import Starlark.Position

/-!
# Comments

A comment is kept with the place where it starts. Comments hang on the nodes
of a tree, above them, at the end of their line or below them, and on the
closing tokens of brackets.
-/

set_option autoImplicit false

namespace Starlark

/-- One `#` comment. -/
structure Comment where
  /-- Where the `#` stands. -/
  start : Position
  /-- The text, the `#` included. -/
  text : String
  deriving DecidableEq, Inhabited

/-- A comment that stands nowhere in the source. -/
def Comment.new (text : String) : Comment := ⟨.nowhere, text⟩

/-- The comments that belong to one place of a tree. -/
structure Comments where
  /-- Whole lines above. -/
  before : List Comment
  /-- At the end of the line. -/
  suffix : List Comment
  /-- Whole lines below. -/
  after : List Comment
  deriving DecidableEq, Inhabited

namespace Comments

/-- No comments. -/
def none : Comments := ⟨[], [], []⟩

/-- Comments at the end of the line only. -/
def ofSuffix (suffix : List Comment) : Comments := ⟨[], suffix, []⟩

/-- Comments below only. -/
def ofAfter (after : List Comment) : Comments := ⟨[], [], after⟩

/-- Whether there is no comment. -/
def isEmpty (c : Comments) : Bool := c.before.isEmpty && c.suffix.isEmpty && c.after.isEmpty

/-- All comments, in the order in which they stand around their place. -/
def toList (c : Comments) : List Comment := c.before ++ c.suffix ++ c.after

/-- One more comment above, below those already there. -/
def pushBefore (c : Comments) (x : Comment) : Comments := { c with before := c.before ++ [x] }

/-- One more comment at the end of the line. -/
def pushSuffix (c : Comments) (x : Comment) : Comments := { c with suffix := c.suffix ++ [x] }

/-- One more comment below. -/
def pushAfter (c : Comments) (x : Comment) : Comments := { c with after := c.after ++ [x] }

/-- The comments of `front`, and those of `back` behind them, place by place. -/
def append (front back : Comments) : Comments :=
  ⟨front.before ++ back.before, front.suffix ++ back.suffix, front.after ++ back.after⟩

end Comments

/-- A closing bracket, or the `else` or `elif` that closes a branch. It
carries the comments that stand before it. -/
structure Close where
  /-- Where it stands; nowhere when there is none. -/
  pos : Position
  /-- The comments it carries. -/
  comments : Comments
  deriving DecidableEq, Inhabited

/-- A closing token without comments. -/
def Close.at (pos : Position) : Close := ⟨pos, .none⟩

/-- Where a closing token ends; it counts as one character. -/
def Close.stop (c : Close) : Position := c.pos.right

end Starlark
