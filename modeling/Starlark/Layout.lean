import Starlark.Node.Span

/-!
# Layout hints

How a sequence was laid out in the source is decided once, when it is read,
from the lines its parts stand on. Only line breaks between parts count: a
part may itself span several lines and leave the sequence compact, so the
decision does not change when the part is laid out anew.
-/

set_option autoImplicit false

namespace Starlark

/-- Whether a node may stand in a sequence that is kept on one line: a
literal, an identifier, a sign in front of one of these, or empty brackets. A
sign in front of a string does not count. -/
def Node.isSimple : Node → Bool
  | .mk _ (.literal ..) | .mk _ (.string ..) | .mk _ (.ident ..) => true
  | .mk _ (.unary _ _ (some (.mk _ (.literal ..)))) => true
  | .mk _ (.unary _ _ (some (.mk _ (.ident ..)))) => true
  | .mk _ (.collection _ _ items _ _) => items.isEmpty
  | _ => false

namespace Layout

/-- Whether each part is simple and starts on the line where the one before it
stopped, the first on line `line` and the closing bracket on line `stop`. -/
def followsOn (stop : Nat) : Nat → List Node → Bool
  | line, [] => stop == line
  | line, x :: rest => x.start.line == line && x.isSimple && followsOn stop x.stop.line rest

/-- Several simple parts on one line stay on one line. -/
def staysCompact (start : Position) (parts : List Node) (stop : Position) : Bool :=
  1 < parts.length && followsOn stop.line start.line parts

/-- Brackets around nothing, or around one part, stay apart when a line break
stood inside them. -/
def staysOpen (start : Position) (parts : List Node) (stop : Position) : Bool :=
  match parts with
  | [] => start.line != stop.line
  | [x] => start.line != x.start.line || stop.line != x.stop.line
  | _ => false

/-- The hints for a sequence between two brackets. -/
def ofParts (start : Position) (parts : List Node) (stop : Position) : Layout :=
  ⟨staysCompact start parts stop, staysOpen start parts stop⟩

/-- Whether a line break stands between the end of a part on line `line`, the
parts after it, and the closing bracket on line `stop`. -/
def breaksBetween (stop : Nat) : Nat → List Node → Bool
  | line, [] => line != stop
  | line, x :: rest => line != x.start.line || breaksBetween stop x.stop.line rest

/-- A comprehension stays on several lines when a line break separates its
brackets, its body and its clauses. -/
def comprehensionStaysOpen (start : Position) (body : Node) (clauses : List Node)
    (stop : Position) : Bool :=
  breaksBetween stop.line start.line (body :: clauses)

end Layout

end Starlark
