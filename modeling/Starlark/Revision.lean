import Starlark.File.Print
import Starlark.Source

/-!
# Revisions

Edits of a whole file that are known by name, each a rule for single nodes:
which nodes it replaces, and by what.
-/

set_option autoImplicit false

namespace Starlark

/-- Where a comment is put on a node. -/
inductive Side where
  | before
  | suffix
  | after
  deriving DecidableEq

/-- Puts a comment on one side of the others. -/
def Comments.push (side : Side) (c : Comment) (cs : Comments) : Comments :=
  match side with
  | .before => cs.pushBefore c
  | .suffix => cs.pushSuffix c
  | .after => cs.pushAfter c

/-- A rule that replaces nodes. -/
inductive Revision where
  /-- Puts nodes of a kind in parentheses, unless they stand in some. -/
  | wrap (kind : String)
  /-- Takes parentheses away. -/
  | unwrap
  /-- Gives identifiers of one name another one. -/
  | rename (name newName : String)
  /-- Replaces identifiers of a name by a node. -/
  | substitute (name : String) (node : Node)
  /-- Gives strings of one value another one, tokens left as they are. -/
  | setString (value newValue : String)
  /-- Forgets the tokens of strings. -/
  | clearTokens
  /-- Exchanges single and triple quotes. -/
  | flipTriple
  /-- Gives operators of one text another one. -/
  | setOperator (op newOp : String)
  /-- Sets or removes the line breaks behind operators. -/
  | setLineBreak (value : Bool)
  /-- Sets the layout hints of nodes of a kind, or of all. -/
  | force (kind : Option String) (compact multiLine : Option Bool)
  /-- Puts a comment on nodes of a kind. -/
  | comment (kind : String) (side : Side) (text : String)
  /-- Replaces number literals by an identifier. -/
  | nameLiterals (name : String)
  /-- Writes more digits behind number literals. -/
  | extendLiterals (digits : String)

namespace Revision

/-- The hints with those given put in their place. -/
def forced (compact multiLine : Option Bool) (l : Layout) : Layout :=
  ⟨compact.getD l.compact, multiLine.getD l.multiLine⟩

/-- The form with those of the given hints that it has put in their place. -/
def forceForm (compact multiLine : Option Bool) : Form → Form
  | .call callee p args e l => .call callee p args e (forced compact multiLine l)
  | .collection k p items e l => .collection k p items e (forced compact multiLine l)
  | .defStmt p n q params r s body l => .defStmt p n q params r s body (forced compact multiLine l)
  | .paren p x e m => .paren p x e (multiLine.getD m)
  | .comprehension u p body clauses e m => .comprehension u p body clauses e (multiLine.getD m)
  | .load p label c bindings e k => .load p label c bindings e (compact.getD k)
  | f => f

/-- What stands inside any number of parentheses. -/
def insideParens : Node → Node
  | .mk _ (.paren _ x _ _) => insideParens x
  | v => v

/-- Whether a node is in parentheses of its own. -/
def isParen : Node → Bool
  | .mk _ (.paren ..) => true
  | _ => false

/-- The replacement of a node, given the node around it. -/
def replacement? (r : Revision) (v : Node) (around : Option Node) : Option Node :=
  match r, v with
  | .wrap kind, v =>
    if v.kind = kind ∧ ¬ around.any isParen then
      some (.bare (.paren .nowhere v (.at .nowhere) false))
    else none
  | .unwrap, v => if isParen v then some (insideParens v) else none
  | .rename name newName, .mk c (.ident p n) =>
    if n = name then some (.mk c (.ident p newName)) else none
  | .substitute name node, .mk _ (.ident _ n) => if n = name then some node else none
  | .setString value newValue, .mk c (.string lit) =>
    if lit.value = value then some (.mk c (.string { lit with value := newValue })) else none
  | .clearTokens, .mk c (.string lit) => some (.mk c (.string { lit with token := "" }))
  | .flipTriple, .mk c (.string lit) => some (.mk c (.string { lit with triple := !lit.triple }))
  | .setOperator op newOp, .mk c (.binary a x p o l y) =>
    if o = op then some (.mk c (.binary a x p newOp l y)) else none
  | .setOperator op newOp, .mk c (.unary p o x) =>
    if o = op then some (.mk c (.unary p newOp x)) else none
  | .setLineBreak value, .mk c (.binary a x p o _ y) => some (.mk c (.binary a x p o value y))
  | .force kind compact multiLine, .mk c f =>
    if kind.all (· == f.kind) then some (.mk c (forceForm compact multiLine f)) else none
  | .comment kind side text, v =>
    if v.kind = kind then some (v.mapComments (.push side (.new text))) else none
  | .nameLiterals name, .mk _ (.literal ..) => some (.ident name)
  | .extendLiterals digits, .mk _ (.literal _ token) => some (.literal (token ++ digits))
  | _, _ => none

/-- The visitor that follows a rule and counts its visits. -/
def visitor (r : Revision) : Node.Visitor Nat := fun v above count =>
  (r.replacement? v above.head?, count + 1)

end Revision

namespace File

/-- Follows a rule through a file; also the number of visits. -/
def revise (r : Revision) (f : File) : File × Nat := f.edit r.visitor 0

/-- Follows a rule through the first statement only. -/
def reviseFirst (r : Revision) (f : File) : File × Nat :=
  match f.statements with
  | [] => (f, 0)
  | v :: rest =>
    let (v, count) := v.edit r.visitor 0
    ({ f with statements := v :: rest }, count)

/-- Replaces the parts of every statement by a node; also how many there
are. -/
def replaceParts (node : Node) (f : File) : File × Nat :=
  ({ f with statements := f.statements.map (Node.mapParts fun _ => node) },
    (f.statements.flatMap Node.children).length)

/-- What a visitor sees: for each visit the number of ancestors, the kind of
the node, and the text of the node around it with its place vacant. -/
def trace (f : File) : List (Nat × String × Option String) :=
  let note : Node.Visitor (List (Nat × String × Option String)) := fun v above seen =>
    (none, (above.length, v.kind, above.head?.map (Node.format .grouped)) :: seen)
  (f.edit note []).2.reverse

/-- The statements in reverse order. -/
def reversed (f : File) : File := { f with statements := f.statements.reverse }

/-- The file without one of its statements. -/
def remove (index : Nat) (f : File) : File := { f with statements := f.statements.eraseIdx index }

/-- The file with one more statement. -/
def append (node : Node) (f : File) : File := { f with statements := f.statements ++ [node] }

end File

end Starlark
