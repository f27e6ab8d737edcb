import Starlark.Fault

/-!
# How far a lexeme reaches

For each class of lexeme, how many characters after its first one belong to
it. The text of a lexeme is then the first character and that many more, so
cutting it off loses nothing of the source.
-/

set_option autoImplicit false

namespace Starlark.Lexeme

/-- Spaces, tabs and carriage returns, which separate lexemes. -/
def isSpace (c : Char) : Bool := c == ' ' || c == '\t' || c == '\r'

/-- Letters, digits, `_` and every character outside ASCII. -/
def isWordChar (c : Char) : Bool := c.isAlphanum || c == '_' || 0x80 ≤ c.toNat

/-- The characters of a number, exponent signs apart. -/
def isNumberChar (c : Char) : Bool := c.isAlphanum || c == '_' || c == '.'

/-- Whether a character is a quote. -/
def isQuote (c : Char) : Bool := c == '"' || c == '\''

/-- How far a word reaches into what follows its first character. -/
def wordExtent (rest : List Char) : Nat := (rest.takeWhile isWordChar).length

/-- How far a comment reaches into what follows its `#`. -/
def commentExtent (rest : List Char) : Nat := (rest.takeWhile (· != '\n')).length

/-- How far a number reaches into what follows its first character. A sign
belongs to it directly after an `e`. -/
def numberExtent : List Char → Nat
  | [] => 0
  | [c] => if isNumberChar c then 1 else 0
  | c :: d :: rest =>
    if (c == 'e' || c == 'E') && (d == '+' || d == '-') then numberExtent rest + 2
    else if isNumberChar c then numberExtent (d :: rest) + 1
    else 0

/-- How many characters a string takes after its opening quote, on one line.
A backslash hides the character after it. -/
def shortExtent (quote : Char) : List Char → Except Cause Nat
  | [] => .error .endInString
  | ['\\'] => .error .endInString
  | '\\' :: _ :: rest => (· + 2) <$> shortExtent quote rest
  | c :: rest =>
    if c = quote then .ok 1
    else if c = '\n' then .error .newlineInString
    else (· + 1) <$> shortExtent quote rest

/-- How many characters a string takes after its three opening quotes. -/
def longExtent (quote : Char) : List Char → Except Cause Nat
  | [] => .error .endInString
  | '\\' :: _ :: rest => (· + 2) <$> longExtent quote rest
  | c :: rest =>
    if c = quote ∧ [quote, quote].isPrefixOf rest then .ok 3
    else (· + 1) <$> longExtent quote rest

/-- How many characters a string takes after its first quote. -/
def stringExtent (quote : Char) (rest : List Char) : Except Cause Nat :=
  if [quote, quote].isPrefixOf rest then (· + 2) <$> longExtent quote (rest.drop 2)
  else shortExtent quote rest

/-- The longest operator or punctuation mark at the front of a text. -/
def operatorText? (text : List Char) : Option (List Char) :=
  [3, 2, 1].findSome? fun width =>
    let front := text.take width
    if (Token.Kind.ofOperator? front).isSome then some front else none

/-- What begins at a character. -/
inductive Piece where
  | newline
  /-- A backslash that joins two lines. -/
  | continuation
  | comment
  | string
  | number
  | word
  | operator
  deriving DecidableEq

/-- How many characters of `rest` make a line break. -/
def lineBreakWidth? : List Char → Option Nat
  | '\n' :: _ => some 1
  | '\r' :: '\n' :: _ => some 2
  | _ => none

/-- What begins at the character `c` in front of `rest`, and how far it
reaches into `rest`. -/
def pieceAt (c : Char) (rest : List Char) : Except Cause (Piece × Nat) :=
  if c = '\n' then .ok (.newline, 0)
  else if c = '\\' then
    match lineBreakWidth? rest with
    | some width => .ok (.continuation, width)
    | none => .error (.character c)
  else if c = '#' then .ok (.comment, commentExtent rest)
  else if isQuote c then (Piece.string, ·) <$> stringExtent c rest
  else if c.isDigit || (c == '.' && (rest.head?.any Char.isDigit)) then
    .ok (.number, numberExtent rest)
  else if isWordChar c then
    match rest with
    | quote :: more =>
      if (c == 'r' || c == 'R') && isQuote quote then
        (Piece.string, · + 1) <$> stringExtent quote more
      else .ok (.word, wordExtent rest)
    | [] => .ok (.word, 0)
  else
    match operatorText? (c :: rest) with
    | some text => .ok (.operator, text.length - 1)
    | none => .error (.character c)

end Starlark.Lexeme
