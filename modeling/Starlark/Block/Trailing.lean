import Starlark.Block

/-!
# Comments at the end of a body

A comment at the end of a body that is indented less than the body belongs
after the statement. `Node.splitTrailing` cuts the comments off the last body
of a statement, from the first such line on, and gives them as comment blocks
to stand behind the statement.
-/

set_option autoImplicit false

namespace Starlark

namespace Form

variable {α : Type}

/-- Changes the body that closes a form and gives the form back with what the
change yields: the body of a `def` or `for`, or the last branch of an `if`
with its `elif` and `else`. -/
def onLastBody (change : List Node → List Node × α) : Form → Option (Form × α)
  | .defStmt p n q params r s body l =>
    let (body, a) := change body
    some (.defStmt p n q params r s body l, a)
  | .forStmt p vars x body =>
    let (body, a) := change body
    some (.forStmt p vars x body, a)
  | .ifStmt p cond yesBody e [] =>
    let (yesBody, a) := change yesBody
    some (.ifStmt p cond yesBody e [], a)
  | .ifStmt p cond yesBody e [.mk c (.ifStmt p' cond' yesBody' e' noBody')] =>
    (onLastBody change (.ifStmt p' cond' yesBody' e' noBody')).map fun (f, a) =>
      (.ifStmt p cond yesBody e [.mk c f], a)
  | .ifStmt p cond yesBody e noBody =>
    let (noBody, a) := change noBody
    some (.ifStmt p cond yesBody e noBody, a)
  | _ => none

end Form

namespace Block

/-- Whether a comment stands to the left of a column. A comment that stands
nowhere does not. -/
def standsLeftOf (column : Nat) (c : Comment) : Bool :=
  0 < c.start.column && c.start.column < column

/-- The comments below a node, cut before the first one left of a column. -/
def cutAfter (column : Nat) (v : Node) : List Comment × List Comment :=
  v.comments.after.span (!standsLeftOf column ·)

/-- Cuts the comment blocks at the end of a body, from the first line left of
a column on: what stays, and what is cut off. A block left without lines goes
away. -/
def cutBlocks (column : Nat) : List Node → List Node × List Node
  | [] => ([], [])
  | v :: rest =>
    match cutAfter column v with
    | (_, []) =>
      let (stays, cut) := cutBlocks column rest
      (v :: stays, cut)
    | ([], cut) => ([], .commentBlockOf cut :: rest)
    | (stays, cut) =>
      ([v.mapComments fun c => { c with after := stays }], .commentBlockOf cut :: rest)

/-- Cuts the comments at the end of a body, from the first line left of a
column on. `v` is the last statement of the body and `blocks` are the comment
blocks behind it. -/
def cutTail (column : Nat) (v : Node) (blocks : List Node) : List Node × List Node :=
  match cutAfter column v with
  | (_, []) =>
    let (stays, cut) := cutBlocks column blocks
    (v :: stays, cut)
  | (stays, cut) =>
    ([v.mapComments fun c => { c with after := stays }], .commentBlockOf cut :: blocks)

/-- Cuts the comments at the end of a body that stand to the left of its first
statement. -/
def cutBody (body : List Node) : List Node × List Node :=
  match body with
  | [] => ([], [])
  | first :: _ =>
    let blocks := (body.reverse.takeWhile Node.isCommentBlock).reverse
    match body.reverse.dropWhile Node.isCommentBlock with
    | [] => (body, [])
    | last :: rest =>
      let (stays, cut) := cutTail first.start.column last blocks
      (rest.reverse ++ stays, cut)

end Block

namespace Node

/-- The body that closes a statement, if it has one. -/
def lastBody? (v : Node) : Option (List Node) :=
  (v.form.onLastBody fun body => (body, body)).map (·.2)

/-- The statement without the comments that stand left of its last body, and
those comments as comment blocks. -/
def splitTrailing (v : Node) : Node × List Node :=
  match v.form.onLastBody Block.cutBody with
  | some (f, cut) => (.mk v.comments f, cut)
  | none => (v, [])

end Node

end Starlark
