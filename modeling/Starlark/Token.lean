import Starlark.Position

/-!
# Tokens

A token has a kind, its text and the place of its text. Keywords and symbols
are known by their text, so the two tables below are the whole vocabulary:
reading a keyword's or a symbol's characters gives it back
(`Keyword.ofLetters?_letters`, `Symbol.ofSigns?_signs`).
-/

set_option autoImplicit false

namespace Starlark

/-- The reserved words. -/
inductive Keyword where
  | and | break | continue | define | elif | else | for | if | in | is | lambda | load | not | or
  | pass | return
  deriving DecidableEq

namespace Keyword

/-- Every keyword. -/
def all : List Keyword :=
  [.and, .break, .continue, .define, .elif, .else, .for, .if, .in, .is, .lambda, .load, .not, .or,
    .pass, .return]

/-- The letters of a keyword. -/
def letters : Keyword → List Char
  | .and => ['a', 'n', 'd']
  | .break => ['b', 'r', 'e', 'a', 'k']
  | .continue => ['c', 'o', 'n', 't', 'i', 'n', 'u', 'e']
  | .define => ['d', 'e', 'f']
  | .elif => ['e', 'l', 'i', 'f']
  | .else => ['e', 'l', 's', 'e']
  | .for => ['f', 'o', 'r']
  | .if => ['i', 'f']
  | .in => ['i', 'n']
  | .is => ['i', 's']
  | .lambda => ['l', 'a', 'm', 'b', 'd', 'a']
  | .load => ['l', 'o', 'a', 'd']
  | .not => ['n', 'o', 't']
  | .or => ['o', 'r']
  | .pass => ['p', 'a', 's', 's']
  | .return => ['r', 'e', 't', 'u', 'r', 'n']

/-- How a keyword is written. -/
def text (k : Keyword) : String := String.ofList k.letters

/-- The keyword with given letters, if there is one. -/
def ofLetters? (word : List Char) : Option Keyword := all.find? (fun k => k.letters == word)

/-- A keyword is read back from its letters. -/
theorem ofLetters?_letters (k : Keyword) : ofLetters? k.letters = some k := by
  cases k <;> decide

end Keyword

/-- Operators and punctuation, augmented assignments apart. -/
inductive Symbol where
  | plus | minus | star | starStar | slash | slashSlash | percent | tilde | pipe | amp | caret
  | shl | shr | lt | gt | le | ge | eqEq | ne | eq
  | lparen | rparen | lbrack | rbrack | lbrace | rbrace | comma | colon | semi | dot
  deriving DecidableEq

namespace Symbol

/-- Every symbol. -/
def all : List Symbol :=
  [.plus, .minus, .star, .starStar, .slash, .slashSlash, .percent, .tilde, .pipe, .amp, .caret,
    .shl, .shr, .lt, .gt, .le, .ge, .eqEq, .ne, .eq, .lparen, .rparen, .lbrack, .rbrack, .lbrace,
    .rbrace, .comma, .colon, .semi, .dot]

/-- The characters of a symbol. -/
def signs : Symbol → List Char
  | .plus => ['+']
  | .minus => ['-']
  | .star => ['*']
  | .starStar => ['*', '*']
  | .slash => ['/']
  | .slashSlash => ['/', '/']
  | .percent => ['%']
  | .tilde => ['~']
  | .pipe => ['|']
  | .amp => ['&']
  | .caret => ['^']
  | .shl => ['<', '<']
  | .shr => ['>', '>']
  | .lt => ['<']
  | .gt => ['>']
  | .le => ['<', '=']
  | .ge => ['>', '=']
  | .eqEq => ['=', '=']
  | .ne => ['!', '=']
  | .eq => ['=']
  | .lparen => ['(']
  | .rparen => [')']
  | .lbrack => ['[']
  | .rbrack => [']']
  | .lbrace => ['\x7b']
  | .rbrace => ['\x7d']
  | .comma => [',']
  | .colon => [':']
  | .semi => [';']
  | .dot => ['.']

/-- How a symbol is written. -/
def text (x : Symbol) : String := String.ofList x.signs

/-- The symbol with given characters, if there is one. -/
def ofSigns? (signs : List Char) : Option Symbol := all.find? (fun x => x.signs == signs)

/-- A symbol is read back from its characters. -/
theorem ofSigns?_signs (x : Symbol) : ofSigns? x.signs = some x := by
  cases x <;> decide

/-- Whether a symbol opens a bracket. -/
def opens : Symbol → Bool
  | .lparen | .lbrack | .lbrace => true
  | _ => false

/-- Whether a symbol closes a bracket. -/
def closes : Symbol → Bool
  | .rparen | .rbrack | .rbrace => true
  | _ => false

end Symbol

/-- The assignments that combine with an operator. -/
def augmentedSigns : List (List Char) :=
  [['+', '='], ['-', '='], ['*', '='], ['/', '='],
    ['/', '/', '='], ['%', '='], ['&', '='], ['|', '='],
    ['^', '='], ['<', '<', '='], ['>', '>', '=']]

namespace Token

/-- What a token is. -/
inductive Kind where
  | ident
  | number
  | string
  | comment
  | newline
  | indent
  | unindent
  | eof
  | keyword (word : Keyword)
  | symbol (sign : Symbol)
  /-- An augmented assignment; the token's text says which. -/
  | augmented
  deriving DecidableEq

namespace Kind

/-- The name of a kind in reports. -/
def shown : Kind → String
  | .ident => "identifier"
  | .number => "number"
  | .string => "string"
  | .comment => "comment"
  | .newline => "newline"
  | .indent => "indent"
  | .unindent => "unindent"
  | .eof => "EOF"
  | .keyword word => "'" ++ word.text ++ "'"
  | .symbol sign => "'" ++ sign.text ++ "'"
  | .augmented => "augmented assignment"

/-- The kind of a word that is a keyword. -/
def ofKeyword? (word : List Char) : Option Kind := (Keyword.ofLetters? word).map .keyword

/-- The kind of an operator or punctuation mark. -/
def ofOperator? (signs : List Char) : Option Kind :=
  match Symbol.ofSigns? signs with
  | some sign => some (.symbol sign)
  | none => if augmentedSigns.contains signs then some .augmented else none

end Kind

end Token

/-- A token of a source. -/
structure Token where
  kind : Token.Kind
  /-- The text as it stands in the source; empty for layout tokens. -/
  text : String
  /-- Where the text starts. -/
  pos : Position
  /-- Where the text ends. -/
  stop : Position
  deriving DecidableEq

namespace Token

/-- The token of a kind whose text starts at a place. -/
def mkAt (kind : Kind) (pos : Position) (text : List Char) : Token :=
  ⟨kind, String.ofList text, pos, pos.advance text⟩

/-- What stands behind the last token of every stream. -/
def ended : Token := ⟨.eof, "", .nowhere, .nowhere⟩

instance : Inhabited Token := ⟨ended⟩

end Token

end Starlark
