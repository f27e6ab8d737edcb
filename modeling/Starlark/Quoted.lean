import Starlark.Text.Utf8

/-!
# String literals

A string literal spells a value between quotes: one or three, single or
double, with escapes unless an `r` stands in front. `decode` reads a spelling
and `encode` gives the canonical one, which uses double quotes and escapes as
little as it can. `\x` and octal escapes name the code points below 256.

A fault in a spelling carries the byte offset of the escape at fault.
-/

set_option autoImplicit false

namespace Starlark.Quoted

open Text.Utf8 (size)

/-- What is wrong with the spelling of a string. -/
inductive Fault where
  /-- There is no room for two quotes. -/
  | tooShort
  /-- The text does not begin and end with the same quote. -/
  | unquoted
  /-- Nothing follows a backslash. -/
  | cutOff (offset : Nat)
  /-- An octal escape is above 255. -/
  | octalRange (offset : Nat) (escape : String)
  /-- A `\x` is not followed by two hexadecimal digits. -/
  | hexDigits (offset : Nat) (escape : String)
  /-- A `\u` or `\U` is not followed by the `count` digits it needs. -/
  | unicodeDigits (offset : Nat) (escape : String) (count : Nat)
  /-- The code point is a surrogate. -/
  | surrogate (offset : Nat) (escape : String)
  /-- The code point is beyond the last one. -/
  | codePointRange (offset : Nat) (escape : String)
  deriving DecidableEq

namespace Fault

/-- The byte offset of the escape at fault. -/
def offset : Fault → Nat
  | .tooShort | .unquoted => 0
  | .cutOff o | .octalRange o _ | .hexDigits o _ | .unicodeDigits o _ _ | .surrogate o _
  | .codePointRange o _ => o

/-- The text reported for a fault. -/
def message : Fault → String
  | .tooShort => "string literal too short"
  | .unquoted => "string literal is not quoted"
  | .cutOff _ => "truncated escape sequence"
  | .octalRange _ e => "invalid escape sequence " ++ e ++ ": octal value out of range"
  | .hexDigits _ e => "invalid escape sequence " ++ e ++ ": expected two hex digits"
  | .unicodeDigits _ e n =>
    "invalid escape sequence " ++ e ++ ": expected " ++ toString n ++ " hex digits"
  | .surrogate _ e => "invalid escape sequence " ++ e ++ ": surrogate code point"
  | .codePointRange _ e => "invalid escape sequence " ++ e ++ ": code point out of range"

/-- The text reported when a spelling is read on its own, outside a source. -/
def report (fault : Fault) : String := "invalid string literal: " ++ fault.message

end Fault

/-! ## Digits -/

/-- Whether a character is an octal digit. -/
def isOctal (c : Char) : Bool := '0' ≤ c && c ≤ '7'

/-- Whether a character is a hexadecimal digit. -/
def isHex (c : Char) : Bool := c.isDigit || ('a' ≤ c && c ≤ 'f') || ('A' ≤ c && c ≤ 'F')

/-- The value of a digit in any base up to sixteen. -/
def digitValue (c : Char) : Nat :=
  if c.isDigit then c.toNat - '0'.toNat
  else if 'a' ≤ c then c.toNat - 'a'.toNat + 10
  else c.toNat - 'A'.toNat + 10

/-- The number that digits denote in a base, most significant first. -/
def valueOf (base : Nat) (digits : List Char) : Nat :=
  digits.foldl (fun value d => value * base + digitValue d) 0

/-! ## Reading -/

/-- The character that a one-letter escape stands for. -/
def simpleEscape? : Char → Option Char
  | 'a' => some '\x07'
  | 'b' => some '\x08'
  | 'f' => some '\x0c'
  | 'n' => some '\n'
  | 'r' => some '\r'
  | 't' => some '\t'
  | 'v' => some '\x0b'
  | '\\' => some '\\'
  | '\'' => some '\''
  | '"' => some '"'
  | _ => none

/-- The character for a code point given by exactly `count` digits after
`\u` or `\U`. -/
def unicodeEscape (offset count : Nat) (mark : Char) (rest : List Char) : Except Fault Char :=
  let digits := rest.take count
  if digits.length = count ∧ digits.all isHex then
    let value := valueOf 16 digits
    let escape := String.ofList ('\\' :: mark :: digits)
    if 0xD800 ≤ value ∧ value ≤ 0xDFFF then .error (.surrogate offset escape)
    else if 0x10FFFF < value then .error (.codePointRange offset escape)
    else .ok (Char.ofNat value)
  else .error (.unicodeDigits offset (String.ofList ['\\', mark]) count)

/-- Reads the escape whose backslash stands at `offset` and is followed by
`rest`. The result is the text it denotes and how many characters of `rest`
it takes. A line break after the backslash denotes nothing, and an escape
that is not known denotes itself. -/
def escape (offset : Nat) (rest : List Char) : Except Fault (List Char × Nat) :=
  match rest with
  | [] => .error (.cutOff offset)
  | '\n' :: _ => .ok ([], 1)
  | c :: more =>
    match simpleEscape? c with
    | some d => .ok ([d], 1)
    | none =>
      if isOctal c then
        let digits := (rest.take 3).takeWhile isOctal
        let value := valueOf 8 digits
        if 255 < value then .error (.octalRange offset (String.ofList ('\\' :: digits)))
        else .ok ([Char.ofNat value], digits.length)
      else if c = 'x' then
        let digits := more.take 2
        if digits.length = 2 ∧ digits.all isHex then .ok ([Char.ofNat (valueOf 16 digits)], 3)
        else .error (.hexDigits offset (String.ofList ('\\' :: rest.take 3)))
      else if c = 'u' then do
        let d ← unicodeEscape offset 4 'u' more
        .ok ([d], 5)
      else if c = 'U' then do
        let d ← unicodeEscape offset 8 'U' more
        .ok ([d], 9)
      else .ok (['\\', c], 1)

/-- The value that the body of a literal denotes, its first character standing
at `offset`. -/
def unescape (offset : Nat) : List Char → Except Fault (List Char)
  | [] => .ok []
  | c :: rest =>
    if c = '\\' then do
      let (text, used) ← escape offset rest
      let value ← unescape (offset + 1 + size (rest.take used)) (rest.drop used)
      .ok (text ++ value)
    else do
      let value ← unescape (offset + c.utf8Size) rest
      .ok (c :: value)
termination_by body => body.length
decreasing_by all_goals simp; try omega

/-- Whether a text begins and ends with three of the quote, without sharing
any. -/
def isTriple (quote : Char) (text : List Char) : Bool :=
  6 ≤ text.length && [quote, quote, quote].isPrefixOf text &&
    [quote, quote, quote].isSuffixOf text

/-- Reads a literal: its value, and whether it has triple quotes. -/
def decodeChars (token : List Char) : Except Fault (List Char × Bool) :=
  let raw : Bool := match token with
    | 'r' :: _ | 'R' :: _ => true
    | _ => false
  let mark := if raw then 1 else 0
  let text := token.drop mark
  match text with
  | [] => .error .tooShort
  | quote :: rest =>
    if quote ≠ '"' ∧ quote ≠ '\'' then .error .unquoted
    else if rest = [] then .error .tooShort
    else if text.getLast? ≠ some quote then .error .unquoted
    else
      let triple := isTriple quote text
      let width := if triple then 3 else 1
      let body := (text.drop width).take (text.length - 2 * width)
      if raw then .ok (body, triple)
      else do
        let value ← unescape (mark + width) body
        .ok (value, triple)

/-- Reads a literal: its value, and whether it has triple quotes. -/
def decode (token : String) : Except Fault (String × Bool) := do
  let (value, triple) ← decodeChars token.toList
  .ok (String.ofList value, triple)

/-! ## Writing -/

/-- Whether a character is a control character. -/
def isControl (c : Char) : Bool :=
  let n := c.toNat
  n < 0x20 || (0x7F ≤ n && n < 0xA0)

/-- An octal escape of three digits, for a code point below 512. -/
def octalEscape (c : Char) : List Char :=
  let n := c.toNat
  ['\\', Nat.digitChar (n / 64), Nat.digitChar (n / 8 % 8), Nat.digitChar (n % 8)]

/-- The spelling of one character other than a quote. -/
def encodeChar (triple : Bool) (c : Char) : List Char :=
  if c = '\\' then ['\\', '\\']
  else if c = '\n' then if triple then ['\n'] else ['\\', 'n']
  else if c = '\r' then ['\\', 'r']
  else if c = '\t' then ['\\', 't']
  else if isControl c then octalEscape c
  else [c]

/-- The body of the canonical spelling. Between triple quotes, one or two
quotes stand unescaped when another character follows them. -/
def encodeBody (triple : Bool) : List Char → List Char
  | [] => []
  | '"' :: '"' :: c :: rest =>
    if triple && c != '"' then '"' :: '"' :: encodeBody triple (c :: rest)
    else '\\' :: '"' :: encodeBody triple ('"' :: c :: rest)
  | '"' :: c :: rest =>
    if triple && c != '"' then '"' :: encodeBody triple (c :: rest)
    else '\\' :: '"' :: encodeBody triple (c :: rest)
  | ['"'] => ['\\', '"']
  | c :: rest => encodeChar triple c ++ encodeBody triple rest

/-- The quotes around a canonical spelling. -/
def delimiter (triple : Bool) : List Char := if triple then ['"', '"', '"'] else ['"']

/-- The canonical spelling of a value. -/
def encodeChars (value : List Char) (triple : Bool) : List Char :=
  delimiter triple ++ encodeBody triple value ++ delimiter triple

/-- The canonical spelling of a value. -/
def encode (value : String) (triple : Bool) : String :=
  String.ofList (encodeChars value.toList triple)

end Starlark.Quoted
