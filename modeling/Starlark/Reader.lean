import Starlark.Fault

/-!
# Reading tokens

A reader takes tokens from the front of a list and gives a value, or a fault.
The small readers here look at the next token, take it, or insist on its kind;
the readers of the grammar are built from them.

Past the last token the end of the source stands for ever, so a reader always
has a next token to look at.
-/

set_option autoImplicit false

namespace Starlark

/-- A reader of tokens. -/
abbrev Reader (α : Type) := StateT (List Token) (Except Fault) α

namespace Reader

open Token (Kind)

variable {α : Type}

/-- The next token. -/
def peek : Reader Token := do return (← get).headD .ended

/-- The token after the next one. -/
def peekSecond : Reader Token := do return ((← get).drop 1).headD .ended

/-- Whether the next token is of a kind. -/
def isAt (kind : Kind) : Reader Bool := do return (← peek).kind == kind

/-- Takes the next token. -/
def bump : Reader Token := do
  let token ← peek
  modify List.tail
  return token

/-- Refuses the next token, naming the kinds that could stand in its place. -/
def unexpected (expected : List Kind) : Reader α := do
  let token ← peek
  throw ⟨token.pos, .unexpected token.kind expected⟩

/-- Takes the next token, which has to be of a kind. -/
def expect (kind : Kind) : Reader Token := do
  if ← isAt kind then bump else unexpected [kind]

/-- Whether tokens of a kind can name something. -/
def isName : Kind → Bool
  | .ident | .keyword .load => true
  | _ => false

/-- Takes a name; `load` may be one. -/
def expectName : Reader Token := do
  if isName (← peek).kind then bump else unexpected [.ident]

/-- Gives up at the next token. A repetition ends so when it has run more
often than there are tokens, which it never does. -/
def stuck : Reader α := unexpected []

/-- What follows the first of several items: commas and further items, up to
the closing token, which is taken. A comma may stand before the closing
token. At most `n` items are read. -/
def moreItems (close : Kind) (item : Reader α) : Nat → Reader (List α × Token)
  | 0 => stuck
  | n + 1 => do
    if ← isAt close then return ([], ← bump)
    else if ← isAt (.symbol .comma) then
      let _ ← bump
      if ← isAt close then return ([], ← bump)
      else
        let x ← item
        let (xs, last) ← moreItems close item n
        return (x :: xs, last)
    else unexpected [.symbol .comma, close]

/-- Items separated by commas, up to the closing token, which is taken. -/
def items (close : Kind) (item : Reader α) (n : Nat) : Reader (List α × Token) := do
  if ← isAt close then return ([], ← bump)
  else
    let x ← item
    let (xs, last) ← moreItems close item n
    return (x :: xs, last)

end Reader

end Starlark
