import Starlark.Node.Span

/-!
# Statements and the comments between them

The lines of a block are read one by one: blank lines, comments alone on their
line, and groups of statements. `Block.ofEntries` puts them together. A comment
directly below a statement belongs below it, until another statement follows
directly; then it belongs above that one. A comment after a blank line starts
a comment block, a statement of its own, which in turn moves above a statement
that follows directly.
-/

set_option autoImplicit false

namespace Starlark

namespace Node

/-- A comment block that starts with one comment. -/
def commentBlock (c : Comment) : Node := .mk (.ofAfter [c]) (.commentBlock c.start)

/-- A comment block of several comments, the first at its start. -/
def commentBlockOf (lines : List Comment) : Node :=
  .mk (.ofAfter lines) (.commentBlock ((lines.head?.map Comment.start).getD .nowhere))

end Node

/-- What one line of a block holds. -/
inductive Entry where
  | blank
  | remark (c : Comment)
  /-- The statements of a line, or a statement with a body and the comment
  blocks that follow it. `followed` says that a comment on the next line
  belongs below the last of them. -/
  | group (nodes : List Node) (followed : Bool)

/-- Statements put together so far. -/
structure Block where
  /-- The statements, last first. -/
  rev : List Node
  /-- Whether the next line follows the last statement directly. -/
  followed : Bool

namespace Block

/-- Before the first line. -/
def empty : Block := ⟨[], false⟩

/-- The statements, first to last. -/
def nodes (b : Block) : List Node := b.rev.reverse

/-- Adds a comment alone on its line. -/
def remark (b : Block) (c : Comment) : Block :=
  match b.rev, b.followed with
  | last :: rest, true => ⟨last.mapComments (·.pushAfter c) :: rest, true⟩
  | rev, _ => ⟨.commentBlock c :: rev, true⟩

/-- Takes away the comments that wait below the last statement. A comment
block that gives up its comments goes away. -/
def release : List Node → List Comment × List Node
  | [] => ([], [])
  | last :: rest =>
    if last.isCommentBlock then (last.comments.after, rest)
    else (last.comments.after, last.mapComments (fun c => { c with after := [] }) :: rest)

/-- Puts comments above the first of some statements. -/
def putBefore (waiting : List Comment) : List Node → List Node
  | [] => []
  | first :: rest => first.mapComments (fun c => { c with before := waiting }) :: rest

/-- Adds statements. Comments that wait below the last statement move above
the first new one. -/
def group (b : Block) (nodes : List Node) (followed : Bool) : Block :=
  if b.followed then
    let (waiting, rev) := release b.rev
    ⟨(putBefore waiting nodes).reverse ++ rev, followed⟩
  else ⟨nodes.reverse ++ b.rev, followed⟩

/-- Adds one line. -/
def add (b : Block) : Entry → Block
  | .blank => ⟨b.rev, false⟩
  | .remark c => b.remark c
  | .group nodes followed => b.group nodes followed

/-- The block made of some lines. -/
def ofEntries (entries : List Entry) : Block := entries.foldl add empty

/-- Puts the comment lines of a body in front of its statements. The last
comment block sticks to the first statement if that stands on the next
line. -/
def precede (leading : Block) (body : List Node) : List Node :=
  match leading.rev, body with
  | last :: rest, first :: more =>
    match last.isCommentBlock, last.comments.after.getLast? with
    | true, some c =>
      if first.start.line = c.start.line + 1 then
        rest.reverse ++ putBefore last.comments.after (first :: more)
      else leading.nodes ++ body
    | _, _ => leading.nodes ++ body
  | _, _ => leading.nodes ++ body

end Block

end Starlark
