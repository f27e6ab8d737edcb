import Starlark.Node.Print
import Starlark.Proofs.Word

/-!
# Scripts

A doc is a function on pages and shows nothing of what it writes. A script is
the same doc as a value: words, blanks, the places where lines may break, the
comments on the way, and the scopes of the margin and of open brackets.
`Script.run` plays a script on a page, and `Node.script` gives the script that
printing a node plays (`Node.print_eq_run`).

What printing writes can then be said by recursion on scripts, with few cases,
instead of by recursion on the forms of nodes.
-/

set_option autoImplicit false

namespace Starlark

/-- What printing does, step by step. -/
inductive Script where
  | done
  | word (w : Word)
  | blank
  /-- Notes a string that was spelled anew. -/
  | note (token : String)
  /-- Leaves comments to wait for the next line break. -/
  | queue (cs : List Comment)
  | newline
  | softBreak
  | breakIfDue
  | breakInside
  /-- Comments above a node. -/
  | leading (cs : List Comment)
  /-- Comments on lines that they end. -/
  | remarks (cs : List Comment)
  /-- Comments on lines that they start. -/
  | closing (cs : List Comment)
  /-- Comments below a statement. -/
  | under (cs : List Comment)
  /-- A line of their own for the comments that wait before the first part of a
  sequence. -/
  | room
  /-- A blank line, unless the two statements may follow each other. -/
  | apart (s t : Node)
  /-- The margin at the present column when a line breaks inside. -/
  | hang (breaks : Bool) (extra : Nat) (body : Script)
  | indented (body : Script)
  | enclosed (body : Script)
  | seq (first second : Script)

namespace Script

instance : Append Script := ⟨seq⟩

/-- Plays a script. -/
def run : Script → Doc
  | done, p => p
  | word w, p => p.putChars w.text
  | blank, p => p.putChars [' ']
  | note token, p => p.noteRequoted token
  | queue cs, p => p.queue cs
  | newline, p => p.newline
  | softBreak, p => p.softBreak
  | breakIfDue, p => p.breakIfDue
  | breakInside, p => p.breakInside
  | leading cs, p => p.leading cs
  | remarks cs, p => p.commentLines cs
  | closing cs, p => p.linesOfComments cs
  | under cs, p => p.below cs
  | room, p => if p.pending.isEmpty then p else Page.pad (p.margin - 2) (p.putChars ['\n'])
  | apart s t, p => if p.keepsTogether s t then p else p.newline
  | hang breaks extra body, p =>
    Page.marginAt (if breaks then p.column + extra else p.margin) body.run p
  | indented body, p => Page.indented indentWidth body.run p
  | enclosed body, p => Page.enclosed body.run p
  | seq first second, p => second.run (first.run p)

@[simp] theorem run_append (s t : Script) (p : Page) : (s ++ t).run p = t.run (s.run p) := rfl

@[simp] theorem run_done (p : Page) : done.run p = p := rfl

/-- A script that is played only under a condition. -/
def onlyIf (b : Bool) (s : Script) : Script := if b then s else done

@[simp] theorem run_onlyIf (b : Bool) (s : Script) (p : Page) :
    (onlyIf b s).run p = if b then s.run p else p := by
  cases b <;> rfl

/-- A keyword. -/
def key (k : Keyword) : Script := word (.keyword k)

/-- A symbol. -/
def mark (s : Symbol) : Script := word (.symbol s)

/-! ## Strings and operators -/

end Script

namespace StringLit

/-- How a literal is written. -/
def spelling (s : StringLit) : List Char :=
  if s.isKept then s.token.toList else Quoted.encodeChars s.value.toList s.triple

/-- The script of a literal. -/
def script (s : StringLit) : Script :=
  .onlyIf (!s.isKept && !s.token.isEmpty) (.note s.token) ++ .word ⟨.string, s.spelling⟩

theorem print_eq_run (s : StringLit) (p : Page) : s.print p = s.script.run p := by
  unfold print script spelling
  cases s.isKept with
  | true => rfl
  | false =>
      cases s.token.isEmpty <;> simp [Script.run, Page.put, Quoted.encode]

end StringLit

namespace Script

/-- A binary operator. Two of them are pairs of words. -/
def operator (op : String) : Script :=
  if op = "not in" then key .not ++ blank ++ key .in
  else if op = "is not" then key .is ++ blank ++ key .not
  else word (.sign op)

/-- An operator of two words is written with a blank between them. -/
theorem run_operator (op : String) (p : Page) : (operator op).run p = p.put op := by
  unfold operator
  split
  case isTrue same =>
    subst same
    rfl
  split
  case isTrue same =>
    subst same
    rfl
  rfl

/-- Two operands around an operator. -/
def operation (x : Script) (op : String) (breaks : Bool) (y : Script) (extra : Nat) : Script :=
  hang breaks extra (x ++ blank ++ operator op ++ (if breaks then breakInside else blank) ++ y)

theorem run_operation (x : Script) (op : String) (breaks : Bool) (y : Script) (extra : Nat)
    (p : Page) :
    (operation x op breaks y extra).run p = p.operation x.run op breaks y.run extra := by
  unfold Page.operation
  simp only [operation, run]
  congr 1
  funext p
  cases breaks <;> simp only [run_append, run_operator] <;> rfl

/-- A node around its form. -/
def framed (comments : Comments) (parens isBlock : Bool) (body : Script) : Script :=
  breakIfDue ++ leading comments.before ++
    (if parens then mark .lparen ++ enclosed body ++ mark .rparen else body) ++
    onlyIf (!isBlock) (queue comments.suffix)

theorem run_framed (comments : Comments) (parens isBlock : Bool) (body : Script) (p : Page) :
    (framed comments parens isBlock body).run p = p.framed comments parens isBlock body.run := by
  unfold framed Page.framed
  cases parens <;> cases isBlock <;> rfl

/-! ## Sequences -/

/-- A part of a sequence. -/
structure Part where
  /-- Whether comments stand above the part. -/
  commented : Bool
  script : Script

/-- The part as what is printed. -/
def Part.item (x : Part) : Item := ⟨x.commented, x.script.run⟩

/-- Parts on one line. -/
def onOneLine : List Part → Script
  | [] => done
  | [x] => x.script
  | x :: y :: rest => x.script ++ (mark .comma ++ blank) ++ onOneLine (y :: rest)

theorem run_onOneLine (parts : List Part) (p : Page) :
    (onOneLine parts).run p = p.onOneLine (parts.map Part.item) := by
  fun_induction onOneLine parts generalizing p with
  | case1 => rfl
  | case2 x => rfl
  | case3 x y rest ih =>
      simp only [run_append, ih]
      rfl

/-- Parts on a line each. -/
def onLines (enclosure : Enclosure) : List Part → Script
  | [] => done
  | x :: rest =>
    newline ++ x.script ++ onlyIf (!(enclosure = .paren && rest.isEmpty)) (mark .comma) ++
      onLines enclosure rest

theorem run_onLines (enclosure : Enclosure) (parts : List Part) (p : Page) :
    (onLines enclosure parts).run p = p.onLines enclosure (parts.map Part.item) := by
  induction parts generalizing p with
  | nil => rfl
  | cons x rest ih =>
      simp only [onLines, run_append, ih, run_onlyIf, List.map_cons, Page.onLines,
        List.isEmpty_map]
      cases enclosure = .paren && rest.isEmpty <;> rfl

/-- The opening bracket. -/
def opening : Enclosure → Script
  | .call | .tuple | .paren => mark .lparen
  | .list => mark .lbrack
  | .braces => mark .lbrace
  | .none => done

/-- The closing bracket. -/
def closeOf : Enclosure → Script
  | .call | .tuple | .paren => mark .rparen
  | .list => mark .rbrack
  | .braces => mark .rbrace
  | .none => done

/-- Whether a sequence goes on one line. -/
def fits (enclosure : Enclosure) (parts : List Part) (comments : List Comment)
    (layout : Layout) : Bool :=
  fitsOneLine enclosure (parts.map Part.item) comments layout

/-- What stands between the brackets of a sequence. -/
def inside (enclosure : Enclosure) (parts : List Part) (comments : List Comment)
    (layout : Layout) : Script :=
  if fits enclosure parts comments layout then
    onOneLine parts ++ onlyIf (parts.length = 1 && enclosure = .tuple) (mark .comma)
  else
    indented (onlyIf (!parts.isEmpty) room ++ onLines enclosure parts ++ closing comments) ++
      newline

/-- A sequence. -/
def sequence (enclosure : Enclosure) (parts : List Part) (comments : List Comment)
    (layout : Layout) : Script :=
  opening enclosure ++ enclosed (inside enclosure parts comments layout) ++ closeOf enclosure

/-- Playing the script of a sequence prints the sequence. -/
theorem run_sequence (enclosure : Enclosure) (parts : List Part) (comments : List Comment)
    (layout : Layout) (p : Page) :
    (sequence enclosure parts comments layout).run p =
      p.sequence enclosure (parts.map Part.item) comments layout := by
  have body : (inside enclosure parts comments layout).run =
      if fitsOneLine enclosure (parts.map Part.item) comments layout then fun p =>
        let p := Page.onOneLine (parts.map Part.item) p
        if (parts.map Part.item).length = 1 && enclosure = .tuple then Page.put "," p else p
      else fun p => Page.newline (Page.indented indentWidth
        (fun p => Page.linesOfComments comments
          (Page.onLines enclosure (parts.map Part.item) (Page.makeRoom (parts.map Part.item) p)))
        p) := by
    funext p
    unfold inside fits
    split
    · simp only [run_append, run_onOneLine, run_onlyIf, List.length_map]
      rfl
    · simp only [run_append, run]
      congr 2
      funext p
      simp only [run_append, run_onLines, run_onlyIf, Page.makeRoom, List.isEmpty_map, run]
      cases parts.isEmpty <;> cases p.pending.isEmpty <;> rfl
  cases enclosure <;> simp only [sequence, run_append, run, body] <;> rfl

/-- The clauses of a comprehension. -/
def clauses (multiLine : Bool) : List Part → Script
  | [] => done
  | x :: rest => (if multiLine then breakInside else blank) ++ x.script ++ clauses multiLine rest

theorem run_clauses (multiLine : Bool) (parts : List Part) (p : Page) :
    (clauses multiLine parts).run p = p.clauseDocs multiLine (parts.map Part.item) := by
  induction parts generalizing p with
  | nil => rfl
  | cons x rest ih =>
      simp only [clauses, run_append, ih, List.map_cons, Page.clauseDocs]
      cases multiLine <;> rfl

/-- A comprehension. -/
def comprehension (curly : Bool) (body : Script) (parts : List Part) (comments : List Comment)
    (multiLine : Bool) : Script :=
  enclosed (mark (if curly then .lbrace else .lbrack) ++
    (if multiLine || !comments.isEmpty then
      indented (newline ++ body ++ clauses true parts ++ closing comments) ++ newline
    else body ++ clauses false parts) ++
    mark (if curly then .rbrace else .rbrack))

/-- Playing the script of a comprehension prints the comprehension. -/
theorem run_comprehension (curly : Bool) (body : Script) (parts : List Part)
    (comments : List Comment) (multiLine : Bool) (p : Page) :
    (comprehension curly body parts comments multiLine).run p =
      p.comprehension curly body.run (parts.map Part.item) comments multiLine := by
  unfold comprehension Page.comprehension
  simp only [run]
  congr 1
  funext p
  cases multiLine || !comments.isEmpty with
  | true =>
      have lines : (newline ++ body ++ clauses true parts ++ closing comments).run = fun p =>
          Page.linesOfComments comments
            (Page.clauseDocs true (parts.map Part.item) (body.run p.newline)) := by
        funext p
        simp only [run_append, run_clauses]
        rfl
      simp only [run_append, if_true, run, lines]
      cases curly <;> rfl
  | false =>
      simp only [run_append, Bool.false_eq_true, if_false, run_clauses]
      cases curly <;> rfl

/-- The parameters of a `lambda`. -/
def lambdaParams : List Part → Script
  | [] => done
  | parts => blank ++ onOneLine parts

theorem run_lambdaParams (parts : List Part) (p : Page) :
    (lambdaParams parts).run p = p.lambdaParams (parts.map Part.item) := by
  cases parts with
  | nil => rfl
  | cons x rest =>
      simp only [lambdaParams, run_append, run_onOneLine]
      rfl

/-! ## Statements -/

/-- A statement and the script of its node. -/
structure Line where
  node : Node
  script : Script

namespace Line

/-- The statement as what is printed. -/
def printed (s : Line) : Printed := ⟨s.node, s.script.run⟩

/-- The statement as a part of a sequence. -/
def part (s : Line) : Part := ⟨!s.node.comments.before.isEmpty, s.script⟩

/-- A statement without the comments below it. -/
def statement (s : Line) : Script :=
  match s.node.form with
  | .commentBlock _ => done
  | .verbatim _ token =>
    remarks s.node.comments.before ++ word ⟨.ident, token.toList⟩ ++ softBreak
  | _ => s.script ++ softBreak

theorem run_statement (s : Line) (p : Page) : s.statement.run p = s.printed.statement p := by
  obtain ⟨⟨comments, form⟩, script⟩ := s
  cases form <;> rfl

/-- A statement with the comments below it. -/
def whole (s : Line) : Script := s.statement ++ under s.node.comments.after

end Line

/-- Statements, the last of which leaves its line open. -/
def statements : List Line → Script
  | [] => done
  | [s] => s.whole
  | s :: t :: rest => s.whole ++ newline ++ apart s.node t.node ++ statements (t :: rest)

/-- Playing the script of statements prints the statements. -/
theorem run_statements (lines : List Line) (p : Page) :
    (statements lines).run p = p.statements (lines.map Line.printed) := by
  fun_induction statements lines generalizing p with
  | case1 => rfl
  | case2 s =>
      simp only [Line.whole, run_append, Line.run_statement]
      rfl
  | case3 s t rest ih =>
      simp only [Line.whole, run_append, Line.run_statement, ih]
      rfl

/-- The body of a block. -/
def block (body : List Line) : Script := indented (newline ++ statements body)

theorem run_block (body : List Line) (p : Page) :
    (block body).run p = p.block (body.map Line.printed) := by
  unfold Page.block
  simp only [block, run]
  congr 1
  funext p
  rw [run_append, run_statements]
  rfl

/-- A header up to its colon, the comments on its line, and the body. -/
def headed (suffix : List Comment) (body : List Line) : Script :=
  mark .colon ++ queue suffix ++ block body

theorem run_headed (suffix : List Comment) (body : List Line) (p : Page) :
    (headed suffix body).run p = ((p.put ":").queue suffix).block (body.map Line.printed) := by
  simp only [headed, run_append, run_block]
  rfl

/-- A branch. -/
def branch (k : Keyword) (cond : Script) (suffix : List Comment) (body : List Line) : Script :=
  breakIfDue ++ (key k ++ blank) ++ cond ++ headed suffix body

/-- The start of the line of an `else` or `elif`. -/
def elseLine (gap : Bool) (before : List Comment) : Script :=
  breakIfDue ++ onlyIf gap newline ++ remarks before

theorem run_elseLine (gap : Bool) (before : List Comment) (p : Page) :
    (elseLine gap before).run p = p.elseLine gap before := by
  cases gap <;> rfl

end Script

/-! ## Loads -/

namespace Binding

open Script (Part framed operation)

/-- A symbol of a `load` as a part of a sequence. -/
def part (b : Binding) : Part :=
  let lit := StringLit.ofValue b.symbol.text
  if b.bound.text = b.symbol.text then
    let comments := b.bound.comments.append b.symbol.comments
    ⟨!comments.before.isEmpty, framed comments false false lit.script⟩
  else
    ⟨false, framed .none false false
      (operation (framed b.bound.comments false false (.word (.name b.bound.text))) "=" false
        (framed b.symbol.comments false false lit.script) indentWidth)⟩

/-- A symbol of a `load` is printed by its script. -/
theorem item_eq (b : Binding) : b.item = b.part.item := by
  have literal (lit : StringLit) : lit.script.run = lit.print := by
    funext p
    rw [lit.print_eq_run]
  have framedRun (comments : Comments) (body : Script) :
      (framed comments false false body).run = Page.framed comments false false body.run := by
    funext p
    rw [Script.run_framed]
  unfold item part
  split
  · simp only [Part.item, framedRun, literal]
  · have joined (lit : StringLit) :
        (operation (framed b.bound.comments false false (.word (.name b.bound.text))) "=" false
          (framed b.symbol.comments false false lit.script) indentWidth).run =
        Page.operation (Page.framed b.bound.comments false false (Page.put b.bound.text)) "=" false
          (Page.framed b.symbol.comments false false lit.print) indentWidth := by
      funext p
      rw [Script.run_operation, framedRun, framedRun, literal]
      rfl
    simp only [Part.item, framedRun, joined]

end Binding

/-! ## Nodes -/

/-- Operators are weaker than attributes, calls and subscripts. -/
theorem Strength.rank_ofOperator_lt (op : String) : (Strength.ofOperator op).rank < 15 := by
  have choice {c : Prop} [Decidable c] {x y : Strength} (one : x.rank < 15) (two : y.rank < 15) :
      (if c then x else y).rank < 15 := by
    split
    · exact one
    · exact two
  unfold Strength.ofOperator
  repeat' first | apply choice | decide

/-- So an operation has parentheses there. -/
theorem Form.needsParens_operation (x : Node) (p : Position) (op : String) (breaks : Bool)
    (y : Node) : Form.needsParens (.binary false x p op breaks y) .suffix = true :=
  decide_eq_true (Strength.rank_ofOperator_lt op)

open Script in
mutual

/-- The script of a node where the strength `outer` is asked for. -/
def Node.script : Node → Strength → Script
  | .mk comments f, outer =>
    framed comments (f.needsParens outer) f.isBlock (f.script comments.suffix)

/-- The script of a form. -/
def Form.script : Form → List Comment → Script
  | .ident _ name, _ => word (.name name)
  | .literal _ token, _ => word ⟨.number, token.toList⟩
  | .string lit, _ => lit.script
  | .dot x _ _ name, _ => x.script .suffix ++ mark .dot ++ word (.name name)
  | .index x _ y _, _ => x.script .suffix ++ mark .lbrack ++ y.script .low ++ mark .rbrack
  | .slice x _ lower _ upper second step _, _ =>
    x.script .suffix ++ mark .lbrack ++ scriptOption lower .low ++ mark .colon ++
      scriptOption upper .low ++
      (if second.isSome then mark .colon ++ scriptOption step .low else done) ++ mark .rbrack
  | .unary _ op x, _ => word (.sign op) ++ onlyIf (op = "not") blank ++ scriptOption x .unary
  | .binary false x _ op lineBreak y, _ =>
    operation (x.script (.ofOperator op)) op lineBreak (y.script (Strength.ofOperator op).next) 0
  | .binary true x _ op lineBreak y, _ =>
    operation (x.script .assign) op lineBreak (y.script .comma)
      (if op = "=" then indentWidth else 0)
  | .conditional yes _ test _ no, _ =>
    yes.script .or ++ (blank ++ key .if ++ blank) ++ test.script .or ++
      (blank ++ key .else ++ blank) ++ no.script .ifElse
  | .lambda _ params _ body, _ =>
    key .lambda ++ lambdaParams ((scriptList params).map Line.part) ++ (mark .colon ++ blank) ++
      body.script .low
  | .call callee _ args close layout, _ =>
    callee.script .suffix ++ sequence .call ((scriptList args).map Line.part)
      close.comments.before layout
  | .collection kind _ items close layout, _ =>
    sequence (.ofCollection kind) ((scriptList items).map Line.part) close.comments.before layout
  | .keyValue key _ value, _ => key.script .low ++ (mark .colon ++ blank) ++ value.script .low
  | .comprehension curly _ body clauses close multiLine, _ =>
    comprehension curly (body.script .low) ((scriptList clauses).map Line.part)
      close.comments.before multiLine
  | .forClause _ vars _ x, _ =>
    (key .for ++ blank) ++ vars.script .low ++ (blank ++ key .in ++ blank) ++ x.script .or
  | .ifClause _ cond, _ => (key .if ++ blank) ++ cond.script .or
  | .paren _ x close multiLine, _ =>
    sequence .paren [⟨!x.comments.before.isEmpty, x.script .low⟩] close.comments.before
      ⟨false, multiLine⟩
  | .defStmt _ name _ params _ _ body layout, suffix =>
    (key .define ++ blank) ++ word (.name name) ++
      sequence .call ((scriptList params).map Line.part) [] layout ++
      headed suffix (scriptList body)
  | .forStmt _ vars x body, suffix =>
    (key .for ++ blank) ++ vars.script .low ++ (blank ++ key .in ++ blank) ++ x.script .low ++
      headed suffix (scriptList body)
  | .ifStmt _ cond yesBody elsePos noBody, suffix =>
    branch .if (cond.script .low) suffix (scriptList yesBody) ++
      scriptElse noBody (gapBefore yesBody elsePos) elsePos
  | .returnStmt _ none, _ => key .return
  | .returnStmt _ (some x), _ => key .return ++ blank ++ x.script .low
  | .branch token _, _ => word (.sign token)
  | .load _ label comments bindings close compact, _ =>
    key .load ++ sequence .call
      (⟨!comments.before.isEmpty, framed comments false false label.script⟩ ::
        bindings.map Binding.part)
      close.comments.before ⟨compact, !compact⟩
  | .commentBlock _, _ => done
  | .verbatim _ token, _ => word ⟨.ident, token.toList⟩
  | .typed name _ type, _ =>
    word (.name name.text) ++ (mark .colon ++ blank) ++ type.script .low

/-- The scripts of some nodes. -/
def scriptList : List Node → List Line
  | [] => []
  | x :: rest => ⟨x, x.script .low⟩ :: scriptList rest

/-- The script of a node that may be missing. -/
def scriptOption : Option Node → Strength → Script
  | none, _ => done
  | some x, outer => x.script outer

/-- The script of what follows a branch of an `if`. -/
def scriptElse : List Node → Bool → Close → Script
  | [], _, _ => done
  | [.mk comments (.ifStmt _ cond yesBody elsePos noBody)], gap, close =>
    elseLine gap close.comments.before ++ queue close.comments.suffix ++
      branch .elif (cond.script .low) comments.suffix (scriptList yesBody) ++
      scriptElse noBody (gapBefore yesBody elsePos) elsePos
  | x :: rest, gap, close =>
    elseLine gap close.comments.before ++ (key .else ++ mark .colon) ++
      queue close.comments.suffix ++ block (⟨x, x.script .low⟩ :: scriptList rest)

end

theorem items_map_printed (lines : List Script.Line) :
    (lines.map Script.Line.printed).map Printed.item =
      (lines.map Script.Line.part).map Script.Part.item := by
  simp only [List.map_map]
  rfl

open Script in
mutual

/-- Printing a node plays its script. -/
theorem Node.print_eq_run : ∀ (v : Node) (outer : Strength) (p : Page),
    v.print outer p = (v.script outer).run p
  | .mk comments f, outer, p => by
    rw [Node.print, Node.script, run_framed]
    congr 1
    exact funext fun p => f.print_eq_run comments.suffix p

/-- Printing a form plays its script. -/
theorem Form.print_eq_run : ∀ (f : Form) (suffix : List Comment) (p : Page),
    f.print suffix p = (f.script suffix).run p
  | .ident .., _, _ | .literal .., _, _ | .commentBlock _, _, _ | .verbatim .., _, _
  | .returnStmt _ none, _, _ | .branch .., _, _ => rfl
  | .string lit, _, p => lit.print_eq_run p
  | .dot x _ _ _, _, p => by
    simp only [Form.print, Form.script, run_append, x.print_eq_run]
    rfl
  | .index x _ y _, _, p => by
    simp only [Form.print, Form.script, run_append, x.print_eq_run, y.print_eq_run]
    rfl
  | .slice x _ lower _ upper second step _, _, p => by
    simp only [Form.print, Form.script, run_append, x.print_eq_run, printOption_eq_run lower,
      printOption_eq_run upper, printOption_eq_run step]
    cases second <;> rfl
  | .unary _ op x, _, p => by
    simp only [Form.print, Form.script, run_append, printOption_eq_run x, run_onlyIf,
      decide_eq_true_eq]
    rfl
  | .binary false x _ op _ y, _, p => by
    have left := funext (x.print_eq_run (.ofOperator op))
    have right := funext (y.print_eq_run (Strength.ofOperator op).next)
    simp only [Form.print, Form.script, run_operation, left, right]
  | .binary true x _ op _ y, _, p => by
    have left := funext (x.print_eq_run .assign)
    have right := funext (y.print_eq_run .comma)
    simp only [Form.print, Form.script, run_operation, left, right]
  | .conditional yes _ test _ no, _, p => by
    simp only [Form.print, Form.script, run_append, yes.print_eq_run, test.print_eq_run,
      no.print_eq_run]
    rfl
  | .lambda _ params _ body, _, p => by
    simp only [Form.print, Form.script, run_append, run_lambdaParams, printList_eq params,
      items_map_printed, body.print_eq_run]
    rfl
  | .call callee _ args _ _, _, p => by
    simp only [Form.print, Form.script, run_append, run_sequence, callee.print_eq_run,
      printList_eq args, items_map_printed]
  | .collection _ _ items _ _, _, p => by
    simp only [Form.print, Form.script, run_sequence, printList_eq items, items_map_printed]
  | .keyValue key _ value, _, p => by
    simp only [Form.print, Form.script, run_append, key.print_eq_run, value.print_eq_run]
    rfl
  | .comprehension _ _ body clauses _ _, _, p => by
    have each := funext (body.print_eq_run .low)
    simp only [Form.print, Form.script, run_comprehension, printList_eq clauses,
      items_map_printed, each]
  | .forClause _ vars _ x, _, p => by
    simp only [Form.print, Form.script, run_append, vars.print_eq_run, x.print_eq_run]
    rfl
  | .ifClause _ cond, _, p => by
    simp only [Form.print, Form.script, run_append, cond.print_eq_run]
    rfl
  | .paren _ x _ _, _, p => by
    have only := funext (x.print_eq_run .low)
    simp only [Form.print, Form.script, run_sequence, only]
    rfl
  | .defStmt _ _ _ params _ _ body _, _, p => by
    simp only [Form.print, Form.script, run_append, run_sequence, run_headed, printList_eq params,
      printList_eq body, items_map_printed]
    rfl
  | .forStmt _ vars x body, _, p => by
    simp only [Form.print, Form.script, run_append, run_headed, vars.print_eq_run,
      x.print_eq_run, printList_eq body]
    rfl
  | .ifStmt _ cond yesBody _ noBody, _, p => by
    simp only [Form.print, Form.script, run_append, printElse_eq_run noBody, Script.branch,
      run_headed, Page.branch, cond.print_eq_run, printList_eq yesBody]
    rfl
  | .returnStmt _ (some x), _, p => by
    simp only [Form.print, Form.script, run_append, x.print_eq_run]
    rfl
  | .load _ label comments bindings _ _, _, p => by
    have items : bindings.map Binding.item = (bindings.map Binding.part).map Part.item := by
      rw [List.map_map]
      exact List.map_congr_left fun b _ => b.item_eq
    have first : (framed comments false false label.script).run =
        Page.framed comments false false label.print := by
      funext p
      rw [run_framed, funext label.print_eq_run]
    simp only [Form.print, Form.script, run_append, run_sequence, List.map_cons, items, Part.item,
      first]
    rfl
  | .typed _ _ type, _, p => by
    simp only [Form.print, Form.script, run_append, type.print_eq_run]
    rfl

theorem printList_eq : ∀ xs : List Node, printList xs = (scriptList xs).map Line.printed
  | [] => rfl
  | x :: rest => by
    rw [printList, scriptList, List.map_cons, printList_eq rest, funext (x.print_eq_run .low)]
    rfl

theorem printOption_eq_run : ∀ (x : Option Node) (outer : Strength) (p : Page),
    printOption x outer p = (scriptOption x outer).run p
  | none, _, _ => rfl
  | some x, outer, p => x.print_eq_run outer p

/-- So are the branches behind an `if`, by the recursion of the printer. -/
theorem printElse_eq_run : ∀ (body : List Node) (gap : Bool) (close : Close) (p : Page),
    printElse body gap close p = (scriptElse body gap close).run p
  | [], _, _, _ => rfl
  | [x], gap, close, p => by
    have alone := funext (x.print_eq_run .low)
    obtain ⟨comments, f⟩ := x
    cases f with
    | ifStmt pos cond yesBody elsePos noBody =>
        simp only [printElse, scriptElse, run_append, run_elseLine, printElse_eq_run noBody,
          Script.branch, run_headed, Page.branch, cond.print_eq_run, printList_eq yesBody]
        rfl
    | _ =>
        simp only [printElse, scriptElse, run_append, run_elseLine, run_block, List.map_cons, alone]
        rfl
  | x :: y :: rest, gap, close, p => by
    simp only [printElse, scriptElse, run_append, run_elseLine, run_block, List.map_cons,
      printList_eq (y :: rest), funext (x.print_eq_run .low)]
    rfl

end

/-- What holds for the scripts of some nodes holds for the parts that they are. -/
theorem forall_scriptList {P : Script → Prop} {vs : List Node}
    (each : ∀ v ∈ vs, P (v.script .low)) :
    ∀ x ∈ (scriptList vs).map Script.Line.part, P x.script := by
  induction vs with
  | nil => exact fun x member => nomatch member
  | cons v vs ih =>
      obtain ⟨here, later⟩ := List.forall_mem_cons.mp each
      exact List.forall_mem_cons.mpr ⟨here, ih later⟩

end Starlark
