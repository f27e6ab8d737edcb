import Starlark.Node.Parameter
import Starlark.Node.Span
import Starlark.Page
import Starlark.Quoted
import Starlark.Strength

/-!
# Printing trees

Printing a node gives a doc. Each form writes its tokens and its parts; around
it the node writes its comments and, where the context asks for more strength
than the form has, parentheses.

Sequences in brackets are written on one line or with each part on a line of
its own, as their hints say. Lines inside an expression break only where the
source broke them.
-/

set_option autoImplicit false

namespace Starlark

/-- How far blocks and sequences are indented. -/
def indentWidth : Nat := 4

/-! ## Strings -/

namespace StringLit

/-- Whether the token already is a spelling of the value between double
quotes. -/
def isKept (s : StringLit) : Bool :=
  s.token.toList.head? == some '"' &&
    match Quoted.decode s.token with
    | .ok (value, triple) => value == s.value && triple == s.triple
    | .error _ => false

/-- Writes a string: its own token where that will do, and otherwise the
canonical spelling. -/
def print (s : StringLit) : Doc := fun p =>
  if s.isKept then p.put s.token
  else
    let p := if s.token.isEmpty then p else p.noteRequoted s.token
    p.put (Quoted.encode s.value s.triple)

end StringLit

/-! ## Around a form -/

/-- The strength of a form; none when it can stand in every context. -/
def Form.strength? : Form → Option Strength
  | .dot .. | .index .. | .slice .. | .call .. => some .suffix
  | .unary .. => some .unary
  | .binary false _ _ op _ _ => some (.ofOperator op)
  | .binary true .. => some .assign
  | .lambda .. => some .colon
  | .conditional .. => some .ifElse
  | _ => none

/-- Whether a form needs parentheses where `outer` is asked for. -/
def Form.needsParens (f : Form) (outer : Strength) : Bool :=
  f.strength?.any (·.isBelow outer)

namespace Page

/-- Writes the comments above a node. They start on a line of their own. -/
def leading (before : List Comment) : Doc := fun p =>
  if before.isEmpty then p
  else
    let p := p.trim
    let p := if 0 < p.column then putChars ['\n'] p else p
    commentLines before (pad p.margin p)

/-- Writes a node around its form: comments, parentheses, and the comments
that wait for the end of the line. Statements with a body write the latter
themselves. -/
def framed (comments : Comments) (parens isBlock : Bool) (body : Doc) : Doc := fun p =>
  let p := leading comments.before p.breakIfDue
  let p := if parens then put ")" (enclosed body (put "(" p)) else body p
  if isBlock then p else queue comments.suffix p

/-- Writes two operands around an operator. The line breaks behind the
operator when `lineBreak` is set, and then goes on at the column where the left
operand began, moved by `extra`. -/
def operation (x : Doc) (op : String) (lineBreak : Bool) (y : Doc) (extra : Nat) : Doc := fun p =>
  let body : Doc := fun p =>
    let p := put op (put " " (x p))
    y (if lineBreak then breakInside p else put " " p)
  marginAt (if lineBreak then p.column + extra else p.margin) body p

end Page

/-! ## Sequences -/

/-- A part of a sequence. -/
structure Item where
  /-- Whether comments stand above the part. -/
  commented : Bool
  doc : Doc

/-- What stands around a sequence. -/
inductive Enclosure where
  | call
  | list
  | braces
  | tuple
  | paren
  /-- Nothing. -/
  | none
  deriving DecidableEq

namespace Enclosure

/-- The opening bracket. -/
def opening : Enclosure → String
  | .call | .tuple | .paren => "("
  | .list => "["
  | .braces => "\x7b"
  | .none => ""

/-- The closing bracket. -/
def closing : Enclosure → String
  | .call | .tuple | .paren => ")"
  | .list => "]"
  | .braces => "\x7d"
  | .none => ""

/-- What stands around a collection. -/
def ofCollection : Collection → Enclosure
  | .list => .list
  | .set | .dict => .braces
  | .tuple => .tuple
  | .bareTuple => .none

end Enclosure

/-- Whether a sequence goes on one line. Comments above a part or before the
closing bracket rule that out. -/
def fitsOneLine (enclosure : Enclosure) (items : List Item) (closing : List Comment)
    (layout : Layout) : Bool :=
  if items.any Item.commented || !closing.isEmpty then false
  else if enclosure = .none then true
  else if layout.multiLine then false
  else layout.compact || items.length ≤ 1

namespace Page

/-- Writes parts on one line. -/
def onOneLine : List Item → Doc
  | [], p => p
  | [x], p => x.doc p
  | x :: y :: rest, p => onOneLine (y :: rest) (put ", " (x.doc p))

/-- Writes parts on a line each. The last one in parentheses has no comma,
which would make a tuple. -/
def onLines (enclosure : Enclosure) : List Item → Doc
  | [], p => p
  | x :: rest, p =>
    let p := x.doc p.newline
    onLines enclosure rest
      (if enclosure = .paren && rest.isEmpty then p else put "," p)

/-- Moves comments that wait before the first part to a line of their own. -/
def makeRoom (items : List Item) : Doc := fun p =>
  if !items.isEmpty && !p.pending.isEmpty then pad (p.margin - 2) (putChars ['\n'] p) else p

/-- Writes a sequence. `closing` are the comments before the closing
bracket. -/
def sequence (enclosure : Enclosure) (items : List Item) (closing : List Comment)
    (layout : Layout) : Doc := fun p =>
  let body : Doc :=
    if fitsOneLine enclosure items closing layout then fun p =>
      let p := onOneLine items p
      if items.length = 1 && enclosure = .tuple then put "," p else p
    else fun p =>
      newline (indented indentWidth
        (fun p => linesOfComments closing (onLines enclosure items (makeRoom items p))) p)
  put enclosure.closing (enclosed body (put enclosure.opening p))

/-- Writes the clauses of a comprehension. -/
def clauseDocs (multiLine : Bool) : List Item → Doc
  | [], p => p
  | x :: rest, p =>
    clauseDocs multiLine rest (x.doc (if multiLine then breakInside p else put " " p))

/-- Writes a comprehension on one line, or its body and each clause on a line
of its own. -/
def comprehension (curly : Bool) (body : Doc) (clauses : List Item) (closing : List Comment)
    (multiLine : Bool) : Doc := fun p =>
  let inside : Doc :=
    if multiLine || !closing.isEmpty then fun p =>
      newline (indented indentWidth
        (fun p => linesOfComments closing (clauseDocs true clauses (body p.newline))) p)
    else fun p => clauseDocs false clauses (body p)
  enclosed
    (fun p => put (if curly then "\x7d" else "]")
      (inside (put (if curly then "\x7b" else "[") p))) p

/-- Writes what follows `lambda` and its blank: parameters with commas
between. -/
def lambdaParams : List Item → Doc
  | [], p => p
  | items, p => onOneLine items (put " " p)

end Page

/-! ## Statements -/

/-- A statement and the doc of its node. -/
structure Printed where
  node : Node
  doc : Doc

namespace Printed

/-- The statement as a part of a sequence. -/
def item (s : Printed) : Item := ⟨!s.node.comments.before.isEmpty, s.doc⟩

/-- Writes a statement without the comments below it. A comment block has
nothing else. -/
def statement (s : Printed) : Doc := fun p =>
  match s.node.form with
  | .commentBlock _ => p
  | .verbatim _ token => Page.softBreak (p.commentLines s.node.comments.before |>.put token)
  | _ => Page.softBreak (s.doc p)

end Printed

/-- Whether a statement loads symbols. -/
def Node.isLoad : Node → Bool
  | .mk _ (.load ..) => true
  | v => v.isCallOf "load"

/-- Whether a statement defines a function. -/
def Node.isDef : Node → Bool
  | .mk _ (.defStmt ..) => true
  | _ => false

namespace Page

/-- Whether two statements may follow each other without a blank line. -/
def keepsTogether (p : Page) (s t : Node) : Bool :=
  if !t.comments.before.isEmpty then false
  else if s.isLoad && t.isLoad then true
  else if p.spacing = .apart && p.margin = 0 then false
  else if s.isDef || t.isDef then false
  else t.start.line - s.stop.line ≤ 1

/-- Writes the comments below a statement. -/
def below (after : List Comment) : Doc := fun p =>
  after.foldl (fun p c => softBreak (comment c p.breakIfDue)) p

/-- Writes statements. The last one leaves its line open. -/
def statements : List Printed → Doc
  | [], p => p
  | [s], p => below s.node.comments.after (s.statement p)
  | s :: t :: rest, p =>
    let p := newline (below s.node.comments.after (s.statement p))
    statements (t :: rest) (if p.keepsTogether s.node t.node then p else p.newline)

/-- Writes the body of a block on lines of its own. -/
def block (body : List Printed) : Doc := indented indentWidth fun p => statements body p.newline

/-- Writes a branch: its word, its condition, and its body. -/
def branch (word : String) (cond : Doc) (suffix : List Comment) (body : List Printed) : Doc :=
  fun p => block body (queue suffix (put ":" (cond (put word p.breakIfDue))))

/-- Starts the line of an `else` or `elif`, with a blank line before it when
`gap` is set. -/
def elseLine (gap : Bool) (before : List Comment) : Doc := fun p =>
  let p := p.breakIfDue
  commentLines before (if gap then p.newline else p)

end Page

/-- Whether the source has a blank line between a branch and the `else` or
`elif` behind it. -/
def gapBefore (body : List Node) (elsePos : Close) : Bool :=
  match lastStop body with
  | none => false
  | some stop => 0 < elsePos.pos.line && 1 < elsePos.pos.line - stop.line

/-! ## Loads -/

namespace Binding

/-- Writes a symbol of a `load`: a string, behind the local name when that is
another one. -/
def item (b : Binding) : Item :=
  let lit := StringLit.ofValue b.symbol.text
  if b.bound.text = b.symbol.text then
    let comments := b.bound.comments.append b.symbol.comments
    ⟨!comments.before.isEmpty, Page.framed comments false false lit.print⟩
  else
    ⟨false, Page.framed .none false false
      (Page.operation (Page.framed b.bound.comments false false (Page.put b.bound.text)) "=" false
        (Page.framed b.symbol.comments false false lit.print) indentWidth)⟩

end Binding

/-! ## Nodes -/

mutual

/-- Writes a node where the strength `outer` is asked for. -/
def Node.print : Node → Strength → Doc
  | .mk comments f, outer, p =>
    p.framed comments (f.needsParens outer) f.isBlock (f.print comments.suffix)

/-- Writes a form. `suffix` are the comments at the end of its line, which
stand behind the header of a statement with a body. -/
def Form.print : Form → List Comment → Doc
  | .ident _ name, _, p => p.put name
  | .literal _ token, _, p => p.put token
  | .string lit, _, p => lit.print p
  | .dot x _ _ name, _, p => ((x.print .suffix p).put ".").put name
  | .index x _ y _, _, p => (y.print .low ((x.print .suffix p).put "[")).put "]"
  | .slice x _ lower _ upper second step _, _, p =>
    let p := (printOption lower .low ((x.print .suffix p).put "[")).put ":"
    let p := printOption upper .low p
    let p := if second.isSome then printOption step .low (p.put ":") else p
    p.put "]"
  | .unary _ op x, _, p =>
    let p := p.put op
    printOption x .unary (if op = "not" then p.put " " else p)
  | .binary false x _ op lineBreak y, _, p =>
    let own := Strength.ofOperator op
    p.operation (x.print own) op lineBreak (y.print own.next) 0
  | .binary true x _ op lineBreak y, _, p =>
    p.operation (x.print .assign) op lineBreak (y.print .comma) (if op = "=" then indentWidth else 0)
  | .conditional yes _ test _ no, _, p =>
    let p := (yes.print .or p).put " if "
    let p := (test.print .or p).put " else "
    no.print .ifElse p
  | .lambda _ params _ body, _, p =>
    let p := (p.put "lambda").lambdaParams ((printList params).map Printed.item)
    body.print .low (p.put ": ")
  | .call callee _ args close layout, _, p =>
    (callee.print .suffix p).sequence .call ((printList args).map Printed.item)
      close.comments.before layout
  | .collection kind _ items close layout, _, p =>
    p.sequence (.ofCollection kind) ((printList items).map Printed.item) close.comments.before
      layout
  | .keyValue key _ value, _, p => value.print .low ((key.print .low p).put ": ")
  | .comprehension curly _ body clauses close multiLine, _, p =>
    p.comprehension curly (body.print .low) ((printList clauses).map Printed.item)
      close.comments.before multiLine
  | .forClause _ vars _ x, _, p => x.print .or ((vars.print .low (p.put "for ")).put " in ")
  | .ifClause _ cond, _, p => cond.print .or (p.put "if ")
  | .paren _ x close multiLine, _, p =>
    p.sequence .paren [⟨!x.comments.before.isEmpty, x.print .low⟩] close.comments.before
      ⟨false, multiLine⟩
  | .defStmt _ name _ params _ _ body layout, suffix, p =>
    let p := ((p.put "def ").put name).sequence .call ((printList params).map Printed.item) []
      layout
    ((p.put ":").queue suffix).block (printList body)
  | .forStmt _ vars x body, suffix, p =>
    let p := x.print .low ((vars.print .low (p.put "for ")).put " in ")
    ((p.put ":").queue suffix).block (printList body)
  | .ifStmt _ cond yesBody elsePos noBody, suffix, p =>
    let p := p.branch "if " (cond.print .low) suffix (printList yesBody)
    printElse noBody (gapBefore yesBody elsePos) elsePos p
  | .returnStmt _ none, _, p => p.put "return"
  | .returnStmt _ (some x), _, p => x.print .low ((p.put "return").put " ")
  | .branch token _, _, p => p.put token
  | .load _ label comments bindings close compact, _, p =>
    (p.put "load").sequence .call
      (⟨!comments.before.isEmpty, Page.framed comments false false label.print⟩ ::
        bindings.map Binding.item)
      close.comments.before ⟨compact, !compact⟩
  | .commentBlock _, _, p => p
  | .verbatim _ token, _, p => p.put token
  | .typed name _ type, _, p => type.print .low ((p.put name.text).put ": ")

/-- The docs of some nodes. -/
def printList : List Node → List Printed
  | [] => []
  | x :: rest => ⟨x, x.print .low⟩ :: printList rest

/-- Writes a node that may be missing. -/
def printOption : Option Node → Strength → Doc
  | none, _, p => p
  | some x, outer, p => x.print outer p

/-- Writes what follows a branch of an `if`. An `if` that stands alone there is
an `elif`. -/
def printElse : List Node → Bool → Close → Doc
  | [], _, _, p => p
  | [.mk comments (.ifStmt _ cond yesBody elsePos noBody)], gap, close, p =>
    let p := (p.elseLine gap close.comments.before).queue close.comments.suffix
    let p := p.branch "elif " (cond.print .low) comments.suffix (printList yesBody)
    printElse noBody (gapBefore yesBody elsePos) elsePos p
  | x :: rest, gap, close, p =>
    let p := ((p.elseLine gap close.comments.before).put "else:").queue close.comments.suffix
    p.block (⟨x, x.print .low⟩ :: printList rest)

end

/-- The text of a single node, without a line end. Comments that wait for one
are left out. -/
def Node.format (spacing : Spacing) (v : Node) : String :=
  (v.print .low (.blank spacing)).text

end Starlark
