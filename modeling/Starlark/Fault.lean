import Starlark.Quoted
import Starlark.Token

/-!
# Faults

Everything that can be wrong with a source, as a cause at a place. The words
of each report are in `Cause.message`, and nowhere else.
-/

set_option autoImplicit false

namespace Starlark

/-- What is wrong with a source. -/
inductive Cause where
  /-- A line is indented less than its block and not as any block around it. -/
  | indentation
  /-- The source ends inside a string. -/
  | endInString
  /-- A line ends inside a string with single quotes. -/
  | newlineInString
  /-- A character begins no token. -/
  | character (c : Char)
  /-- A token stands where the grammar wants one of the expected kinds. -/
  | unexpected (found : Token.Kind) (expected : List Token.Kind)
  /-- A string literal is misspelt. -/
  | literal (fault : Quoted.Fault)
  /-- The bytes are not UTF-8. -/
  | encoding
  deriving DecidableEq

namespace Cause

/-- A character between single quotes, the way faults show it. Only ASCII
characters can be at fault, as all others belong to identifiers; of those the
control characters are shown by their code. -/
def quoteChar (c : Char) : String :=
  if c = '\x00' then "'\\0'"
  else if c = '\\' then "'\\\\'"
  else if Quoted.isControl c then
    "'\\u\x7b" ++ String.ofList (Nat.toDigits 16 c.toNat) ++ "\x7d'"
  else String.ofList ['\'', c, '\'']

/-- The text reported for a cause. -/
def message : Cause → String
  | .indentation => "unexpected indentation"
  | .endInString => "unexpected EOF in string"
  | .newlineInString => "unexpected newline in string"
  | .character c => "unexpected input character " ++ quoteChar c
  | .unexpected found expected =>
    "syntax error: unexpected " ++ found.shown ++
      (if expected.isEmpty then ""
        else ", expecting " ++ String.intercalate " or " (expected.map Token.Kind.shown))
  | .literal fault => fault.message
  | .encoding => "invalid UTF-8 in source"

end Cause

/-- A cause at a place of a source. -/
structure Fault where
  pos : Position
  cause : Cause
  deriving DecidableEq

/-- A fault in a named source. -/
structure Failure extends Fault where
  path : String
  deriving DecidableEq

/-- The text reported for a failure. -/
def Failure.message (f : Failure) : String :=
  f.path ++ ":" ++ f.pos.shown ++ ": " ++ f.cause.message

end Starlark
