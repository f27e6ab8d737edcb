import Starlark.Proofs.Lexeme.Levels
import Starlark.Proofs.Nesting.Node
import Starlark.Proofs.RoundTrip

/-!
# Words with blanks between them

The classes of words are written down here as grammars, without a scanner: names
and keywords, numbers, string literals, operators and punctuation
(`Word.Complete`). Words of these classes with one blank between each two are
scanned as these words, and then the line and the source end
(`TokenStream.ofChars_spaced`).

The scanner takes the longest piece that it can. That it stops at the end of
each word needs two things: no character of the word ends its piece earlier
(`Word.Complete.sound`), and a blank ends every piece. The kind of a word depends
on nothing else, except that `load` is a name unless a parenthesis comes next.
-/

set_option autoImplicit false

namespace Starlark

namespace Lexeme

open Outcome (map_eq_ok)

/-! ## Numbers -/

/-- What may follow the first character of a number: letters, digits, `_` and `.`, and a sign
directly behind an `e`. -/
inductive NumberTail : List Char → Prop
  | nil : NumberTail []
  | exponent {e sign : Char} {rest : List Char} (letter : e = 'e' ∨ e = 'E')
      (signed : sign = '+' ∨ sign = '-') (more : NumberTail rest) : NumberTail (e :: sign :: rest)
  | char {c : Char} {rest : List Char} (number : isNumberChar c = true) (more : NumberTail rest) :
      NumberTail (c :: rest)

/-- A number begins with a digit, or with a point and a digit. -/
inductive IsNumber : List Char → Prop
  | digit {d : Char} {rest : List Char} (digit : d.isDigit = true) (more : NumberTail rest) :
      IsNumber (d :: rest)
  | point {d : Char} {rest : List Char} (digit : d.isDigit = true) (more : NumberTail rest) :
      IsNumber ('.' :: d :: rest)

theorem isNumberChar_of_isDigit {d : Char} (digit : d.isDigit = true) : isNumberChar d = true := by
  simp [isNumberChar, Char.isAlphanum, digit]

/-- A sign stands only behind its `e`. -/
theorem NumberTail.noSign {d : Char} {rest : List Char} (tail : NumberTail (d :: rest)) :
    (d == '+' || d == '-') = false := by
  by_contra signed
  rw [Bool.not_eq_false, Bool.or_eq_true, beq_iff_eq, beq_iff_eq] at signed
  cases tail with
  | exponent letter => rcases signed with rfl | rfl <;> simp at letter
  | char number => rcases signed with rfl | rfl <;> cases number

/-- The scanner takes a whole number. -/
theorem NumberTail.numberExtent {text : List Char} (tail : NumberTail text) :
    numberExtent text = text.length := by
  induction tail with
  | nil => rfl
  | @exponent e sign rest letter signed _ ih =>
      have both : ((e == 'e' || e == 'E') && (sign == '+' || sign == '-')) = true := by
        simpa using And.intro letter signed
      rw [Lexeme.numberExtent, if_pos both, ih]
      rfl
  | @char c rest number more ih =>
      cases rest with
      | nil => simp [Lexeme.numberExtent, number]
      | cons d rest => simp [Lexeme.numberExtent, number, more.noSign, ih]

/-! ## String literals -/

/-- The body of a literal between single quotes. A backslash hides the character behind it; any
other character is no quote and no line end. -/
inductive ShortBody (quote : Char) : List Char → Prop
  | nil : ShortBody quote []
  | escaped (d : Char) {body : List Char} (more : ShortBody quote body) :
      ShortBody quote ('\\' :: d :: body)
  | plain {c : Char} {body : List Char} (noSlash : c ≠ '\\') (noQuote : c ≠ quote)
      (noLine : c ≠ '\n') (more : ShortBody quote body) : ShortBody quote (c :: body)

/-- The body of a literal between triple quotes. Three quotes in a row do not begin in it, except
behind a backslash. -/
inductive LongBody (quote : Char) : List Char → Prop
  | nil : LongBody quote []
  | escaped (d : Char) {body : List Char} (more : LongBody quote body) :
      LongBody quote ('\\' :: d :: body)
  | plain {c : Char} {body : List Char} (noSlash : c ≠ '\\')
      (noQuotes : ¬[quote, quote, quote] <+: c :: (body ++ [quote, quote, quote]))
      (more : LongBody quote body) : LongBody quote (c :: body)

/-- What follows the first quote of a literal. -/
inductive LiteralTail (quote : Char) : List Char → Prop
  | short {body : List Char} (inside : ShortBody quote body) : LiteralTail quote (body ++ [quote])
  | long {body : List Char} (inside : LongBody quote body) :
      LiteralTail quote (quote :: quote :: (body ++ [quote, quote, quote]))

/-- A literal, which may be marked as raw. -/
inductive IsString : List Char → Prop
  | cooked {quote : Char} {text : List Char} (quoted : isQuote quote = true)
      (tail : LiteralTail quote text) : IsString (quote :: text)
  | raw {r quote : Char} {text : List Char} (marked : r = 'r' ∨ r = 'R')
      (quoted : isQuote quote = true) (tail : LiteralTail quote text) :
      IsString (r :: quote :: text)

section Literals

variable {quote : Char} {body text : List Char}

theorem ne_slash_of_isQuote (quoted : isQuote quote = true) : quote ≠ '\\' := by
  rintro rfl
  cases quoted

theorem ShortBody.shortExtent (inside : ShortBody quote body) (quoted : isQuote quote = true) :
    shortExtent quote (body ++ [quote]) = .ok (body ++ [quote]).length := by
  induction inside with
  | nil => rw [List.nil_append, shortExtent_cons (ne_slash_of_isQuote quoted), if_pos rfl]; rfl
  | escaped d _ ih => exact map_eq_ok.mpr ⟨_, ih, rfl⟩
  | plain noSlash noQuote noLine _ ih =>
      rw [List.cons_append, shortExtent_cons noSlash, if_neg noQuote, if_neg noLine]
      exact map_eq_ok.mpr ⟨_, ih, rfl⟩

/-- The scanner takes a string in triple quotes up to the closing ones. -/
theorem LongBody.longExtent (inside : LongBody quote body) (quoted : isQuote quote = true) :
    longExtent quote (body ++ [quote, quote, quote]) =
      .ok (body ++ [quote, quote, quote]).length := by
  induction inside with
  | nil =>
      have closes : [quote, quote].isPrefixOf [quote, quote] = true := by simp
      rw [List.nil_append, longExtent_cons (ne_slash_of_isQuote quoted), if_pos ⟨rfl, closes⟩]
      rfl
  | escaped d _ ih => exact map_eq_ok.mpr ⟨_, ih, rfl⟩
  | @plain c body noSlash noQuotes _ ih =>
      have open' : ¬(c = quote ∧ [quote, quote].isPrefixOf (body ++ [quote, quote, quote])) := by
        rintro ⟨rfl, front⟩
        exact noQuotes (List.cons_prefix_cons.mpr ⟨rfl, List.isPrefixOf_iff_prefix.mp front⟩)
      rw [List.cons_append, longExtent_cons noSlash, if_neg open']
      exact map_eq_ok.mpr ⟨_, ih, rfl⟩

/-- A literal between single quotes does not begin like one between triple quotes. -/
theorem ShortBody.alone (inside : ShortBody quote body) (quoted : isQuote quote = true) :
    ¬[quote, quote] <+: body ++ [quote] := by
  intro front
  cases inside with
  | nil => simpa using front.length_le
  | escaped d => exact ne_slash_of_isQuote quoted (List.cons_prefix_cons.mp front).1
  | plain _ noQuote => exact noQuote (List.cons_prefix_cons.mp front).1.symm

/-- The scanner takes a whole literal. -/
theorem LiteralTail.stringExtent (tail : LiteralTail quote text) (quoted : isQuote quote = true) :
    stringExtent quote text = .ok text.length := by
  unfold Lexeme.stringExtent
  cases tail with
  | short inside =>
      rw [if_neg fun front => inside.alone quoted (List.isPrefixOf_iff_prefix.mp front)]
      exact inside.shortExtent quoted
  | @long body inside =>
      have opens : [quote, quote].isPrefixOf (quote :: quote :: (body ++ [quote, quote, quote])) :=
        List.isPrefixOf_iff_prefix.mpr (List.prefix_append [quote, quote] _)
      rw [if_pos opens]
      exact map_eq_ok.mpr ⟨_, inside.longExtent quoted, rfl⟩

end Literals

end Lexeme

/-! ## Complete words -/

namespace Word

open Lexeme

/-- A word that is complete in its class, with the kind that the class gives it. -/
inductive Complete : Word → Prop
  | name {name : String} (known : isIdentifier name = true) : Complete (.name name)
  | keyword {text : List Char} {kind : Token.Kind}
      (known : Token.Kind.ofKeyword? text = some kind) : Complete ⟨kind, text⟩
  | number {text : List Char} (number : IsNumber text) : Complete ⟨.number, text⟩
  | string {text : List Char} (string : IsString text) : Complete ⟨.string, text⟩
  | operator {text : List Char} {kind : Token.Kind}
      (known : Token.Kind.ofOperator? text = some kind) : Complete ⟨kind, text⟩

section Classes

variable {text : List Char} {kind : Token.Kind}

theorem exists_eq_keyword (known : Token.Kind.ofKeyword? text = some kind) :
    ∃ k, (⟨kind, text⟩ : Word) = Word.keyword k := by
  obtain ⟨k, found, rfl⟩ := Option.map_eq_some_iff.mp known
  have same : k.letters = text := by simpa using List.find?_some found
  exact ⟨k, by rw [Word.keyword, same]⟩

theorem eq_operatorKind (known : Token.Kind.ofOperator? text = some kind) :
    kind = Margin.operatorKind text := by
  rw [Margin.operatorKind, known]
  rfl

theorem mem_operators (known : Token.Kind.ofOperator? text = some kind) : text ∈ operators := by
  rw [← isSome_ofOperator?, known]
  rfl

/-- A number is a word that is cut off whole. -/
theorem sound_of_isNumber (number : IsNumber text) : (⟨.number, text⟩ : Word).Sound := by
  cases number with
  | @digit d rest digit more =>
      have cuts : Cuts d rest .number (numberExtent rest) := .number (by simp [startsNumber, digit])
      rw [more.numberExtent] at cuts
      exact ⟨d, rest, rfl, cuts, [], rfl⟩
  | @point d rest digit more =>
      have tail : NumberTail (d :: rest) := .char (isNumberChar_of_isDigit digit) more
      have cuts : Cuts '.' (d :: rest) .number (numberExtent (d :: rest)) :=
        .number (by simp [startsNumber, digit])
      rw [tail.numberExtent] at cuts
      exact ⟨'.', d :: rest, rfl, cuts, [], rfl⟩

theorem sound_of_isString (string : IsString text) : (⟨.string, text⟩ : Word).Sound := by
  cases string with
  | cooked quoted tail =>
      exact ⟨_, _, rfl, .string quoted (tail.stringExtent quoted), [], rfl⟩
  | raw marked quoted tail =>
      exact ⟨_, _, rfl, .raw marked rfl quoted (tail.stringExtent quoted), [], rfl⟩

end Classes

variable {w : Word}

/-- A complete word is cut off a source as a whole. -/
theorem Complete.sound (complete : w.Complete) : w.Sound := by
  cases complete with
  | name known => exact sound_name known
  | keyword known =>
      obtain ⟨k, same⟩ := exists_eq_keyword known
      rw [same]
      exact sound_keyword k
  | number number => exact sound_of_isNumber number
  | string string => exact sound_of_isString string
  | operator known =>
      rw [eq_operatorKind known]
      exact sound_operator (mem_operators known)

/-- Complete words other than `load` are read as what they are whatever follows them. -/
theorem Complete.stable (complete : w.Complete) (other : w ≠ .keyword .load) : w.Stable := by
  cases complete with
  | @name name known =>
      apply (sound_name known).stable
      rintro rfl
      exact absurd known (by decide)
  | keyword known =>
      obtain ⟨k, same⟩ := exists_eq_keyword known
      rw [same] at other ⊢
      apply stable_keyword
      rintro rfl
      exact other rfl
  | number | string =>
      intro rest
      rfl
  | @operator text kind known =>
      intro rest
      have piece : Word.piece ⟨Margin.operatorKind text, text⟩ = .operator :=
        @piece_kindOf .operator rfl text rest
      rw [eq_operatorKind known, piece]
      rfl

/-- Only the opening parenthesis begins with one. -/
theorem Complete.eq_lparen (complete : w.Complete) (starts : w.text.head? = some '(') :
    w = symbol .lparen := by
  cases complete with
  | @name name known =>
      obtain ⟨rest, same⟩ := List.head?_eq_some_iff.mp starts
      have same : name.toList = '(' :: rest := same
      simp [isIdentifier, same, isWordChar] at known
  | keyword known =>
      obtain ⟨k, same⟩ := exists_eq_keyword known
      rw [same] at starts
      cases k <;> cases starts
  | number number =>
      cases number with
      | digit digit =>
          obtain rfl := Option.some.inj starts
          cases digit
      | point => cases starts
  | string string =>
      cases string with
      | cooked quoted =>
          obtain rfl := Option.some.inj starts
          cases quoted
      | raw marked =>
          obtain rfl := Option.some.inj starts
          rcases marked with wrong | wrong <;> cases wrong
  | operator known =>
      have alone : ∀ signs ∈ operators, signs.head? = some '(' → signs = ['('] := by decide
      obtain rfl := alone _ (mem_operators known) starts
      cases known
      rfl

/-! ### What words are read as -/

/-- What a word is read as in front of the next one: `load` is a name, unless a parenthesis comes
next. -/
def read (w : Word) (next : Option Word) : Word :=
  if w = keyword .load ∧ next ≠ some (symbol .lparen) then ⟨.ident, w.text⟩ else w

/-- What words in a row are read as. -/
def readAll : List Word → List Word
  | [] => []
  | w :: rest => w.read rest.head? :: readAll rest

/-- The text of some words, with a blank between each two. -/
def spaced (words : List Word) : List Char := [' '].intercalate (words.map text)

/-- What stands behind a word in front of others. -/
def following : List Word → List Char
  | [] => []
  | rest => ' ' :: spaced rest

theorem spaced_cons (w : Word) (rest : List Word) :
    spaced (w :: rest) = w.text ++ following rest := by
  cases rest with
  | nil => simp [spaced, following, List.intercalate_singleton]
  | cons v rest => simp [spaced, following, List.intercalate_cons_cons]

theorem exists_following_eq (rest : List Word) :
    ∃ gap, following rest = List.replicate gap ' ' ++ spaced rest := by
  cases rest with
  | nil => exact ⟨0, rfl⟩
  | cons v rest => exact ⟨1, rfl⟩

@[simp] theorem read_text (w : Word) (next : Option Word) : (w.read next).text = w.text := by
  unfold read
  split <;> rfl

@[simp] theorem read_piece (w : Word) (next : Option Word) : (w.read next).piece = w.piece := by
  unfold read
  split
  · rename_i load
    rw [load.1]
    rfl
  · rfl

/-- What stands behind a word begins, past the blank, with a parenthesis only if the next word is
one. -/
theorem head?_following {rest : List Word} (others : ∀ v ∈ rest, v.Complete) :
    ((following rest).dropWhile fun c => c == ' ' || c == '\t').head? = some '(' ↔
      rest.head? = some (symbol .lparen) := by
  cases rest with
  | nil => simp [following]
  | cons v rest =>
      obtain ⟨complete, _⟩ := List.forall_mem_cons.mp others
      obtain ⟨c, text, same, cuts, _⟩ := complete.sound
      have solid : (c == ' ' || c == '\t') = false := by
        have noSpace := cuts.isSpace
        simp only [isSpace, Bool.or_eq_false_iff] at noSpace
        simp [noSpace.1]
      have front : ((following (v :: rest)).dropWhile fun c => c == ' ' || c == '\t').head? =
          v.text.head? := by
        show ((' ' :: spaced (v :: rest)).dropWhile _).head? = _
        rw [spaced_cons, same]
        simp [solid]
      rw [front, List.head?_cons, Option.some.injEq]
      exact ⟨complete.eq_lparen, fun paren => by rw [paren]; rfl⟩

/-- A word in a row has the kind that it is read with. -/
theorem Complete.kindOf_read (complete : w.Complete) {rest : List Word}
    (others : ∀ v ∈ rest, v.Complete) :
    kindOf w.piece w.text (following rest) = (w.read rest.head?).kind := by
  by_cases load : w = Word.keyword .load
  · subst load
    show (if ((following rest).dropWhile fun c => c == ' ' || c == '\t').head? = some '(' then
      Token.Kind.keyword .load else .ident) = _
    simp only [head?_following others, read]
    by_cases paren : rest.head? = some (symbol .lparen)
    · rw [if_pos paren, if_neg fun other => other.2 paren]
      rfl
    · rw [if_neg paren, if_pos ⟨trivial, paren⟩]
  · rw [read, if_neg fun both => load both.1]
    exact complete.stable load _

/-- A word in a row can be cut off a source as what it is read as. -/
theorem Complete.sound_read (complete : w.Complete) {rest : List Word}
    (others : ∀ v ∈ rest, v.Complete) : (w.read rest.head?).Sound := by
  obtain ⟨c, text, same, cuts, _⟩ := complete.sound
  refine ⟨c, text, ?_, ?_, following rest, ?_⟩
  · rw [read_text, same]
  · rw [read_piece]
    exact cuts
  · rw [read_piece, read_text]
    exact complete.kindOf_read others

end Word

/-! ## Scanning words in a row -/

namespace Lexeme

open Word (Complete spaced following readAll)

/-- Behind a word comes the end or a blank. -/
theorem ends_following {w : Word} (sound : w.Sound) (rest : List Word) :
    (following rest).head?.all (ends w.piece w.text) = true := by
  obtain ⟨c, text, same, cuts, _⟩ := sound
  rw [same]
  cases rest with
  | nil => rfl
  | cons v rest => exact ends_of_isGap cuts rfl

/-- The last token is no line end behind a word. -/
theorem Margin.after_word_afterNewline (m : Margin) (w : Word) (rest : List Char) :
    (m.after w.piece w.text rest).afterNewline = false := by
  have code : w.piece.isCode = true := by
    unfold Word.piece
    split <;> rfl
  rw [after_afterNewline, lexeme?_of_isCode code]
  exact decide_eq_false (ne_of_isInline (kindOf_isInline code w.text rest)).2.2

/-- Words with blanks between them are scanned as what they are read as, and an end of the line is
added. -/
theorem Scans.spaced {words : List Word} (complete : ∀ w ∈ words, w.Complete) {m : Margin}
    (within : m.lineStart = false) (indents : m.indents = []) (ended : m.afterNewline = false)
    (gap : Nat) :
    ∃ ts : List Token, ∃ line stop : Token,
      ts.map Token.word = readAll words ∧ line.word = ⟨.newline, []⟩ ∧ stop.word = ⟨.eof, []⟩ ∧
        Scans m (List.replicate gap ' ' ++ Word.spaced words)
          ((ts ++ [line, stop]).map Lexeme.token) := by
  induction words generalizing m gap with
  | nil =>
      let m' := m.skip (List.replicate gap ' ')
      have finish : m'.finish = [m'.layoutToken .newline, m'.layoutToken .eof] := by
        simp [m', Margin.finish, Margin.skip, ended, indents]
      have scans : Scans m (List.replicate gap ' ') m'.finish :=
        .finish (all_isSpace_replicate gap)
      rw [finish] at scans
      refine ⟨[], .mkAt .newline m'.pos [], .mkAt .eof m'.pos [], rfl, rfl, rfl, ?_⟩
      rw [Word.spaced, List.map_nil, List.intercalate_nil, List.append_nil]
      exact scans
  | cons w rest ih =>
      obtain ⟨here, others⟩ := List.forall_mem_cons.mp complete
      let v := w.read rest.head?
      let m₁ := m.skip (List.replicate gap ' ')
      let m₂ := m₁.after v.piece v.text (following rest)
      have sound : v.Sound := here.sound_read others
      have kind : Word.kindOf v.piece v.text (following rest) = v.kind := by
        rw [Word.read_piece, Word.read_text]
        exact here.kindOf_read others
      have within' : m₂.lineStart = false := (m₁.after_word_lineStart v _).trans within
      have indents' : m₂.indents = [] := (m₁.after_indents ..).trans indents
      have ended' : m₂.afterNewline = false := m₁.after_word_afterNewline v _
      obtain ⟨gap', behind⟩ := Word.exists_following_eq rest
      obtain ⟨ts, line, stop, read, isLine, isStop, scans⟩ :=
        ih others within' indents' ended' gap'
      rw [← behind] at scans
      have step := Scans.word sound kind within gap (ends_following sound rest) scans
      refine ⟨.mkAt v.kind m₁.pos v.text :: ts, line, stop, ?_, isLine, isStop, ?_⟩
      · have word : (Token.mkAt v.kind m₁.pos v.text).word = v := by
          simp only [Token.word, Token.mkAt, String.toList_ofList]
        rw [List.map_cons, read, word, readAll]
      · rw [Word.spaced_cons, ← Word.read_text w rest.head?]
        exact step

end Lexeme

/-- Complete words with a blank between each two are the tokens of their text, in order and each of
the kind of its class, and behind them the line and the source end. -/
theorem TokenStream.ofChars_spaced {words : List Word} (complete : ∀ w ∈ words, w.Complete) :
    ∃ ts : List Token, ∃ line stop : Token,
      TokenStream.ofChars (Word.spaced words) = .ok ⟨ts ++ [line, stop], [], []⟩ ∧
        ts.map Token.word = Word.readAll words ∧
        line.word = ⟨.newline, []⟩ ∧ stop.word = ⟨.eof, []⟩ := by
  obtain ⟨ts, line, stop, read, isLine, isStop, scans⟩ :=
    Lexeme.Scans.spaced complete
      (m := { Lexeme.Margin.initial with lineStart := false }) rfl rfl rfl 0
  rw [List.replicate_zero, List.nil_append] at scans
  refine ⟨ts, line, stop, ?_, read, isLine, isStop⟩
  have scanned : Lexeme.scan (Word.spaced words) = .ok ((ts ++ [line, stop]).map Lexeme.token) := by
    cases words with
    | nil =>
        have empty (m : Lexeme.Margin) : Lexeme.scanFrom m [] = .ok (m.skip []).finish :=
          (Lexeme.Scans.finish rfl).scanFrom
        have same :=
          (empty { Lexeme.Margin.initial with lineStart := false }).symm.trans scans.scanFrom
        exact (empty .initial).trans same
    | cons w rest =>
        obtain ⟨c, text, same, cuts, _⟩ := (complete w List.mem_cons_self).sound
        rw [Word.spaced_cons, same] at scans ⊢
        exact (scans.ofInitial cuts.isSpace).scanFrom
  rw [ofChars, scanned, ← ofLexemes_tokens]
  rfl

/-- A call and an assignment whose words would run into each other without the blanks. -/
def Word.crowd : List Word :=
  [.keyword .load, .symbol .lparen, ⟨.string, ['r', '\'', 'a', ' ', '\\', '\'', '\'']⟩,
    .symbol .rparen, ⟨.ident, ['r']⟩, ⟨.string, ['"', '"']⟩,
    ⟨.string, ['"', '"', '"', '"', '"', '"']⟩,
    .symbol .dot, ⟨.number, ['.', '5', 'e', '+', '1']⟩, .symbol .plus,
    ⟨.augmented, ['/', '/', '=']⟩,
    .symbol .eq, .keyword .load]

/-- The first `load` is a keyword, and the last one is a name. -/
theorem TokenStream.ofChars_spaced_crowd :
    (∀ w ∈ Word.crowd, w.Complete) ∧
    Word.spaced Word.crowd =
      "load ( r'a \\'' ) r \"\" \"\"\"\"\"\" . .5e+1 + //= = load".toList ∧
    ∃ ts : List Token, ∃ line stop : Token,
      TokenStream.ofChars (Word.spaced Word.crowd) = .ok ⟨ts ++ [line, stop], [], []⟩ ∧
        ts.map Token.word = Word.crowd.dropLast ++ [.name "load"] ∧
        line.word = ⟨.newline, []⟩ ∧ stop.word = ⟨.eof, []⟩ := by
  have literal : Lexeme.ShortBody '\'' ['a', ' ', '\\', '\''] :=
    .plain (by decide) (by decide) (by decide)
      (.plain (by decide) (by decide) (by decide) (.escaped '\'' .nil))
  have number : Lexeme.NumberTail ['e', '+', '1'] :=
    .exponent (.inl rfl) (.inl rfl) (.char rfl .nil)
  have complete : ∀ w ∈ Word.crowd, w.Complete := by
    simp only [Word.crowd, List.forall_mem_cons]
    refine ⟨.keyword rfl, .operator rfl, .string (.raw (.inl rfl) rfl (.short literal)),
      .operator rfl, @Word.Complete.name "r" (by decide), .string (.cooked rfl (.short .nil)),
      .string (.cooked rfl (.long .nil)), .operator rfl, .number (.point rfl number), .operator rfl,
      .operator rfl, .operator rfl, .keyword rfl, List.forall_mem_nil _⟩
  exact ⟨complete, rfl, ofChars_spaced complete⟩

end Starlark
