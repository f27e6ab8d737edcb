/-!
# Binding strength

How tightly a form holds its parts together, loosest first. A node is put in
parentheses when its context asks for more strength than it has.
-/

set_option autoImplicit false

namespace Starlark

/-- The levels of binding strength. -/
inductive Strength where
  | low | assign | comma | colon | ifElse | or | and | comparison | bitOr | bitXor | bitAnd
  | shift | add | multiply | unary | suffix
  deriving DecidableEq

namespace Strength

/-- The place of a level, loosest first. -/
def rank : Strength → Nat
  | .low => 0 | .assign => 1 | .comma => 2 | .colon => 3 | .ifElse => 4 | .or => 5 | .and => 6
  | .comparison => 7 | .bitOr => 8 | .bitXor => 9 | .bitAnd => 10 | .shift => 11 | .add => 12
  | .multiply => 13 | .unary => 14 | .suffix => 15

/-- The next tighter level, which right operands need. -/
def next : Strength → Strength
  | .low => .assign | .assign => .comma | .comma => .colon | .colon => .ifElse
  | .ifElse => .or | .or => .and | .and => .comparison | .comparison => .bitOr
  | .bitOr => .bitXor | .bitXor => .bitAnd | .bitAnd => .shift | .shift => .add
  | .add => .multiply | .multiply => .unary | .unary | .suffix => .suffix

/-- Whether a form of strength `own` needs parentheses where `outer` is asked
for. -/
def isBelow (own outer : Strength) : Bool := own.rank < outer.rank

/-- The strength of a binary operator; an unknown one holds nothing
together. -/
def ofOperator (op : String) : Strength :=
  if ["=", "+=", "-=", "*=", "/=", "//=", "%=", "&=", "|=", "^=", "<<=", ">>="].contains op then
    .assign
  else if op = "or" then .or
  else if op = "and" then .and
  else if ["in", "not in", "is", "is not", "<", ">", "==", "!=", "<=", ">="].contains op then
    .comparison
  else if op = "|" then .bitOr
  else if op = "^" then .bitXor
  else if op = "&" then .bitAnd
  else if op = "<<" ∨ op = ">>" then .shift
  else if op = "+" ∨ op = "-" then .add
  else if ["*", "/", "//", "%"].contains op then .multiply
  else .low

end Strength

end Starlark
