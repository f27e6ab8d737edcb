import Starlark.Comment
import Starlark.Lexeme.Extent
import Starlark.Text.Blank

/-!
# Lexemes

A source is cut into lexemes: tokens, and the comments that do not count as
tokens. `scan` gives them in the order in which they stand in the source.

Line ends are tokens only outside brackets. There the indentation of a line
is compared with the blocks that are open, and each block that opens or closes
is a token of its own. A comment alone on its line outside brackets is a
token; so is one after the closing `):` of a header. Every other comment is
kept on the side: a line comment when nothing but white space or an opening
bracket stands before it, and otherwise a suffix comment.
-/

set_option autoImplicit false

namespace Starlark

/-- A token, or a comment kept on the side. -/
inductive Lexeme where
  | token (t : Token)
  /-- A comment on a line of its own inside brackets, or after an opening
  bracket. -/
  | lineComment (c : Comment)
  /-- A comment that follows code on its line. -/
  | suffixComment (c : Comment)

namespace Lexeme

/-- The token that a lexeme is, if it is one. -/
def token? : Lexeme → Option Token
  | .token t => some t
  | _ => none

/-- The line comment that a lexeme is, if it is one. -/
def lineComment? : Lexeme → Option Comment
  | .lineComment c => some c
  | _ => none

/-- The suffix comment that a lexeme is, if it is one. -/
def suffixComment? : Lexeme → Option Comment
  | .suffixComment c => some c
  | _ => none

/-! ## The state between lexemes -/

/-- What is known of the source before a place. -/
structure Margin where
  /-- The place. -/
  pos : Position
  /-- The widths of the open blocks, innermost first. -/
  indents : List Nat
  /-- How many brackets are open. -/
  depth : Nat
  /-- Whether a new line begins here, outside brackets. -/
  lineStart : Bool
  /-- What stands before the place on its line, white space left out, nearest
  first. -/
  behind : List Char
  /-- Whether the last token is a line end. -/
  afterNewline : Bool

namespace Margin

/-- The state at the front of a source. -/
def initial : Margin := ⟨.origin, [], 0, true, [], false⟩

/-- What stands before a place on its line, once more text has been passed. -/
def passed (behind : List Char) (text : List Char) : List Char :=
  text.foldl (fun seen c => if c = '\n' then [] else if Text.isBlank c then seen else c :: seen)
    behind

/-- The state after some text that is no token. -/
def skip (m : Margin) (text : List Char) : Margin :=
  { m with pos := m.pos.advance text, behind := passed m.behind text }

/-- The width of the innermost open block. -/
def width (m : Margin) : Nat := m.indents.headD 0

/-- A layout token at the present place. -/
def layoutToken (m : Margin) (kind : Token.Kind) : Lexeme := .token (.mkAt kind m.pos [])

/-- Compares the first character of a line with the open blocks: the layout
tokens it calls for, and the blocks open from here on. -/
def indentation (m : Margin) (c : Char) : Except Fault (List Lexeme × Margin) :=
  if !m.lineStart then .ok ([], m)
  else
    let m := { m with lineStart := false }
    if c = '\n' ∨ c = '#' then .ok ([], m)
    else
      let here := m.pos.column - 1
      if m.width < here then
        .ok ([m.layoutToken .indent],
          { m with indents := here :: m.indents, afterNewline := false })
      else if here < m.width then
        let closed := m.indents.takeWhile (here < ·)
        let still := m.indents.dropWhile (here < ·)
        if still.headD 0 = here then
          .ok (closed.map fun _ => m.layoutToken .unindent,
            { m with indents := still, afterNewline := false })
        else .error ⟨m.pos, .indentation⟩
      else .ok ([], m)

/-- Whether a comment here follows code on its line. -/
def followsCode (m : Margin) : Bool :=
  match m.behind with
  | [] => false
  | [':', ')'] => false
  | '(' :: _ | '[' :: _ | '\x7b' :: _ => false
  | _ => true

/-- The kind of a word; `load` is a keyword only in front of a parenthesis. -/
def wordKind (text rest : List Char) : Token.Kind :=
  match Keyword.ofLetters? text with
  | some .load =>
    if (rest.dropWhile fun c => c == ' ' || c == '\t').head? = some '(' then .keyword .load
    else .ident
  | some word => .keyword word
  | none => .ident

/-- The kind of an operator or punctuation mark. -/
def operatorKind (text : List Char) : Token.Kind :=
  (Token.Kind.ofOperator? text).getD .augmented

/-- The lexeme that a piece of the source is, if it is one. The text of the
piece stands at the present place, in front of `rest`. -/
def lexeme? (m : Margin) (piece : Piece) (text rest : List Char) : Option Lexeme :=
  match piece with
  | .newline => if m.depth = 0 then some (.token (.mkAt .newline m.pos text)) else none
  | .continuation => none
  | .comment =>
    let shown := Text.trimEnd text
    let comment : Comment := ⟨m.pos, String.ofList shown⟩
    if m.followsCode then some (.suffixComment comment)
    else if m.depth = 0 then some (.token (.mkAt .comment m.pos shown))
    else some (.lineComment comment)
  | .string => some (.token (.mkAt .string m.pos text))
  | .number => some (.token (.mkAt .number m.pos text))
  | .word => some (.token (.mkAt (wordKind text rest) m.pos text))
  | .operator => some (.token (.mkAt (operatorKind text) m.pos text))

/-- The number of open brackets after an operator. -/
def depthAfter (depth : Nat) (text : List Char) : Nat :=
  match operatorKind text with
  | .symbol sign => if sign.opens then depth + 1 else if sign.closes then depth - 1 else depth
  | _ => depth

/-- The state after a piece. -/
def after (m : Margin) (piece : Piece) (text rest : List Char) : Margin :=
  let m' := m.skip text
  let m' := match m.lexeme? piece text rest with
    | some (.token t) => { m' with afterNewline := t.kind = .newline }
    | _ => m'
  match piece with
  | .newline => { m' with lineStart := m.depth = 0 }
  | .operator => { m' with depth := depthAfter m.depth text }
  | _ => m'

/-- The tokens that end every source: a line end unless one has just stood
there, the end of each open block, and the end itself. -/
def finish (m : Margin) : List Lexeme :=
  (if m.afterNewline then [] else [m.layoutToken .newline]) ++
    m.indents.map (fun _ => m.layoutToken .unindent) ++ [m.layoutToken .eof]

end Margin

/-! ## Scanning -/

/-- The lexemes of the source from a place on. -/
def scanFrom (m : Margin) (source : List Char) : Except Fault (List Lexeme) :=
  let m := m.skip (source.takeWhile isSpace)
  match _found : source.dropWhile isSpace with
  | [] => .ok m.finish
  | c :: rest => do
    let (layout, m) ← m.indentation c
    match pieceAt c rest with
    | .error cause => .error ⟨m.pos, cause⟩
    | .ok (piece, more) =>
      let text := c :: rest.take more
      let lexemes ← scanFrom (m.after piece text (rest.drop more)) (rest.drop more)
      .ok (layout ++ (m.lexeme? piece text (rest.drop more)).toList ++ lexemes)
termination_by source.length
decreasing_by
  have shorter := (List.dropWhile_suffix (l := source) isSpace).length_le
  rw [_found] at shorter
  simp only [List.length_cons, List.length_drop] at shorter ⊢
  omega

/-- The lexemes of a source. -/
def scan (source : List Char) : Except Fault (List Lexeme) := scanFrom .initial source

end Lexeme

/-! ## Streams -/

/-- The lexemes of a source, tokens and side comments apart. -/
structure TokenStream where
  tokens : List Token
  lineComments : List Comment
  suffixComments : List Comment

namespace TokenStream

/-- Sorts lexemes into a stream. -/
def ofLexemes (lexemes : List Lexeme) : TokenStream :=
  ⟨lexemes.filterMap Lexeme.token?, lexemes.filterMap Lexeme.lineComment?,
    lexemes.filterMap Lexeme.suffixComment?⟩

/-- The stream of a source. -/
def ofChars (source : List Char) : Except Fault TokenStream :=
  ofLexemes <$> Lexeme.scan source

end TokenStream

end Starlark
