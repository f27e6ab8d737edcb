import Starlark.Proofs.Quoted

/-!
# String literals of a source

Two parts of the program look at a string literal. Scanning finds its end: it
passes over the body, a backslash and the character behind it taken together.
Reading takes off the quotes and gives each escape its meaning; an escape may
take ten characters. They agree (`TokenStream.decode_string`).

What scanning leaves for reading is said in two steps. A literal is a body between
one or three quotes (`Framed`), so reading takes off the quotes that scanning saw.
In the body every backslash goes with the character behind it (`Paired`), and an
escape that takes more takes digits, so what is left behind it is paired again.
Reading therefore never finds a backslash at the end of the body.
-/

set_option autoImplicit false

namespace Starlark

open Text.Utf8 (size)

open Outcome (map_eq_ok bind_eq_ok bind_eq_error map_eq_error)

namespace Lexeme

/-! ## What a literal is made of -/

/-- A body in which every backslash goes with the character behind it. -/
inductive Paired : List Char → Prop
  | nil : Paired []
  | escaped (d : Char) {body : List Char} (more : Paired body) : Paired ('\\' :: d :: body)
  | plain {c : Char} {body : List Char} (other : c ≠ '\\') (more : Paired body) :
      Paired (c :: body)

/-- A body between quotes, one or three of them. A literal with single quotes does not begin like
one with three. -/
inductive Framed (quote : Char) : Bool → List Char → List Char → Prop
  | single {body : List Char} (alone : ¬[quote, quote] <+: body ++ [quote]) :
      Framed quote false body (quote :: (body ++ [quote]))
  | triple (body : List Char) :
      Framed quote true body (quote :: quote :: quote :: (body ++ [quote, quote, quote]))

section Extents

variable {quote : Char} {text : List Char}

/-- A literal that ends at its own quote has its backslashes paired, by induction on its text. -/
theorem paired_of_shortExtent (reaches : shortExtent quote text = .ok text.length) :
    ∃ body, text = body ++ [quote] ∧ Paired body := by
  induction text using escapeInduction with
  | nil | lone => cases reaches
  | escaped d text ih =>
      obtain ⟨k, inner, same⟩ := map_eq_ok.mp reaches
      obtain rfl : k = text.length := by simpa using same
      obtain ⟨body, rfl, paired⟩ := ih inner
      exact ⟨'\\' :: d :: body, rfl, .escaped d paired⟩
  | plain c text plain ih =>
      rw [shortExtent_cons plain] at reaches
      by_cases closes : c = quote
      · subst closes
        obtain rfl : text = [] := by simpa using reaches
        exact ⟨[], rfl, .nil⟩
      by_cases breaks : c = '\n'
      · rw [if_neg closes, if_pos breaks] at reaches
        cases reaches
      rw [if_neg closes, if_neg breaks] at reaches
      obtain ⟨k, inner, same⟩ := map_eq_ok.mp reaches
      obtain rfl : k = text.length := by simpa using same
      obtain ⟨body, rfl, paired⟩ := ih inner
      exact ⟨c :: body, rfl, .plain plain paired⟩

/-- So has one that ends at its own three quotes. -/
theorem paired_of_longExtent (reaches : longExtent quote text = .ok text.length) :
    ∃ body, text = body ++ [quote, quote, quote] ∧ Paired body := by
  induction text using escapeInduction with
  | nil => cases reaches
  | lone =>
      obtain ⟨cause, fails⟩ := @longExtent_lone quote
      rw [fails] at reaches
      cases reaches
  | escaped d text ih =>
      obtain ⟨k, inner, same⟩ := map_eq_ok.mp reaches
      obtain rfl : k = text.length := by simpa using same
      obtain ⟨body, rfl, paired⟩ := ih inner
      exact ⟨'\\' :: d :: body, rfl, .escaped d paired⟩
  | plain c text plain ih =>
      rw [longExtent_cons plain] at reaches
      by_cases closes : c = quote ∧ [quote, quote].isPrefixOf text
      · rw [if_pos closes] at reaches
        obtain ⟨rfl, front⟩ := closes
        obtain ⟨more, rfl⟩ := List.isPrefixOf_iff_prefix.mp front
        obtain rfl : more = [] := by simpa using reaches
        exact ⟨[], rfl, .nil⟩
      rw [if_neg closes] at reaches
      obtain ⟨k, inner, same⟩ := map_eq_ok.mp reaches
      obtain rfl : k = text.length := by simpa using same
      obtain ⟨body, rfl, paired⟩ := ih inner
      exact ⟨c :: body, rfl, .plain plain paired⟩

/-- What is cut off a source as a string is a body between quotes. -/
theorem framed_of_stringExtent (reaches : stringExtent quote text = .ok text.length) :
    ∃ triple body, Framed quote triple body (quote :: text) ∧ Paired body := by
  unfold stringExtent at reaches
  split at reaches
  next opens =>
    obtain ⟨rest, rfl⟩ := List.isPrefixOf_iff_prefix.mp opens
    obtain ⟨k, inner, same⟩ := map_eq_ok.mp reaches
    obtain rfl : k = rest.length := by simpa using same
    obtain ⟨body, rfl, paired⟩ := @paired_of_longExtent quote rest inner
    exact ⟨true, body, .triple body, paired⟩
  next opens =>
    obtain ⟨body, rfl, paired⟩ := paired_of_shortExtent reaches
    rw [List.isPrefixOf_iff_prefix] at opens
    exact ⟨false, body, .single opens, paired⟩

end Extents

/-- The characters behind an escape are paired when those in front of them are no backslashes. -/
theorem Paired.drop {body : List Char} (paired : Paired body) {n : Nat}
    (clear : ∀ c ∈ body.take n, c ≠ '\\') : Paired (body.drop n) := by
  induction n generalizing body with
  | zero => exact paired
  | succ n ih =>
      cases paired with
      | nil => exact .nil
      | escaped d => exact absurd rfl (clear '\\' List.mem_cons_self)
      | plain _ more => exact ih more fun c member => clear c (List.mem_cons_of_mem _ member)

end Lexeme

namespace Quoted

open Lexeme (Paired Framed isQuote)

variable {quote : Char} {triple : Bool} {body text : List Char}

/-! ## Faults of escapes -/

/-- What can be wrong with the escape at an offset: it is all there, and misspelt. -/
inductive Fault.MisspeltAt (offset : Nat) : Fault → Prop
  | octalRange (escape : String) : MisspeltAt offset (.octalRange offset escape)
  | hexDigits (escape : String) : MisspeltAt offset (.hexDigits offset escape)
  | unicodeDigits (escape : String) (count : Nat) :
      MisspeltAt offset (.unicodeDigits offset escape count)
  | surrogate (escape : String) : MisspeltAt offset (.surrogate offset escape)
  | codePointRange (escape : String) : MisspeltAt offset (.codePointRange offset escape)

theorem Fault.MisspeltAt.offset_eq {offset : Nat} {fault : Fault}
    (misspelt : fault.MisspeltAt offset) :
    fault.offset = offset := by
  cases misspelt <;> rfl

/-- A unicode escape fails only where it is misspelt. -/
theorem misspelt_of_unicodeEscape {offset count : Nat} {mark : Char} {rest : List Char}
    {fault : Fault}
    (fails : unicodeEscape offset count mark rest = .error fault) : fault.MisspeltAt offset := by
  unfold unicodeEscape at fails
  dsimp only at fails
  split at fails
  · split at fails
    · cases fails
      exact .surrogate _
    · split at fails
      · cases fails
        exact .codePointRange _
      · cases fails
  · cases fails
    exact .unicodeDigits _ _

/-- Only the end of the text cuts an escape off. -/
theorem misspelt_of_escape {offset : Nat} {c : Char} {rest : List Char} {fault : Fault}
    (fails : escape offset (c :: rest) = .error fault) : fault.MisspeltAt offset := by
  unfold escape at fails
  split at fails
  next same => cases same
  next => cases fails
  next same =>
  split at fails
  next => cases fails
  split at fails
  next =>
    dsimp only at fails
    split at fails <;> cases fails
    exact .octalRange _
  split at fails
  next =>
    dsimp only at fails
    split at fails <;> cases fails
    exact .hexDigits _
  split at fails
  next =>
    obtain digits | ⟨_, _, done⟩ := bind_eq_error.mp fails
    · exact misspelt_of_unicodeEscape digits
    · cases done
  split at fails
  next =>
    obtain digits | ⟨_, _, done⟩ := bind_eq_error.mp fails
    · exact misspelt_of_unicodeEscape digits
    · cases done
  next => cases fails

/-! ## What an escape takes -/

theorem ne_slash_of_isHex {d : Char} (hex : isHex d = true) : d ≠ '\\' := by
  rintro rfl
  cases hex

theorem isHex_of_unicodeEscape {offset count : Nat} {mark d : Char} {rest : List Char}
    (found : unicodeEscape offset count mark rest = .ok d) :
    ∀ e ∈ rest.take count, isHex e = true := by
  unfold unicodeEscape at found
  dsimp only at found
  split at found
  next digits => exact List.all_eq_true.mp digits.2
  next => cases found

/-- An escape takes one character, and then digits. -/
theorem escape_eq_ok {offset used : Nat} {c : Char} {rest value : List Char}
    (found : escape offset (c :: rest) = .ok (value, used)) :
    ∃ n, used = n + 1 ∧ ∀ d ∈ rest.take n, d ≠ '\\' := by
  have one : ∀ d ∈ rest.take 0, d ≠ '\\' := nofun
  unfold escape at found
  split at found
  next same => cases same
  next =>
    cases found
    exact ⟨0, rfl, one⟩
  next same =>
  cases same
  split at found
  next =>
    cases found
    exact ⟨0, rfl, one⟩
  split at found
  next octal =>
    dsimp only at found
    split at found <;> cases found
    rw [List.take_succ_cons, List.takeWhile_cons_of_pos octal]
    refine ⟨((rest.take 2).takeWhile isOctal).length, rfl, ?_⟩
    have front : (rest.take 2).takeWhile isOctal <+: rest :=
      (List.takeWhile_prefix isOctal).trans (List.take_prefix 2 rest)
    rw [← List.prefix_iff_eq_take.mp front]
    rintro d member rfl
    cases List.mem_takeWhile_imp member
  split at found
  next =>
    dsimp only at found
    split at found
    next digits =>
      cases found
      exact ⟨2, rfl, fun d member => ne_slash_of_isHex (List.all_eq_true.mp digits.2 d member)⟩
    next => cases found
  split at found
  next =>
    obtain ⟨d, digits, same⟩ := bind_eq_ok.mp found
    cases same
    exact ⟨4, rfl, fun e member => ne_slash_of_isHex (isHex_of_unicodeEscape digits e member)⟩
  split at found
  next =>
    obtain ⟨d, digits, same⟩ := bind_eq_ok.mp found
    cases same
    exact ⟨8, rfl, fun e member => ne_slash_of_isHex (isHex_of_unicodeEscape digits e member)⟩
  next =>
    cases found
    exact ⟨0, rfl, one⟩

/-- A fault in a body whose backslashes are paired lies at a misspelt escape. -/
theorem unescape_eq_error {offset : Nat} {body : List Char} (paired : Paired body) {fault : Fault}
    (fails : unescape offset body = .error fault) :
    ∃ front back, body = front ++ '\\' :: back ∧ fault.MisspeltAt (offset + size front) := by
  fun_induction unescape offset body with
  | case1 => cases fails
  | case2 offset rest ih =>
      cases paired with
      | plain other => exact absurd rfl other
      | @escaped d rest more =>
      obtain here | ⟨⟨value, used⟩, found, follows⟩ := bind_eq_error.mp fails
      · exact ⟨[], _, rfl, misspelt_of_escape here⟩
      obtain later | ⟨_, _, done⟩ := bind_eq_error.mp follows
      · -- the escape leaves the pairs behind it whole
        obtain ⟨n, rfl, clear⟩ := escape_eq_ok found
        obtain ⟨front, back, same, misspelt⟩ := ih (n + 1) (more.drop clear) later
        refine ⟨'\\' :: ((d :: rest).take (n + 1) ++ front), back, ?_, ?_⟩
        · rw [List.cons_append, List.append_assoc, ← same, List.take_append_drop]
        · have width : Char.utf8Size '\\' = 1 := rfl
          rw [Text.Utf8.size_cons, Text.Utf8.size_append, width, ← Nat.add_assoc, ← Nat.add_assoc]
          exact misspelt
      · cases done
  | case3 offset c rest plain ih =>
      cases paired with
      | escaped => exact absurd rfl plain
      | plain _ more =>
      obtain later | ⟨_, _, done⟩ := bind_eq_error.mp fails
      · obtain ⟨front, back, rfl, misspelt⟩ := ih more later
        refine ⟨c :: front, back, rfl, ?_⟩
        rw [Text.Utf8.size_cons, ← Nat.add_assoc]
        exact misspelt
      · cases done

/-! ## Reading a literal -/

/-- The reader of literals sees whether there are three quotes. -/
theorem isTriple_of_framed (framed : Framed quote triple body text) :
    isTriple quote text = triple := by
  cases framed with
  | single alone =>
      have front : [quote, quote, quote].isPrefixOf (quote :: (body ++ [quote])) = false := by
        rw [← Bool.not_eq_true, List.isPrefixOf_iff_prefix, List.cons_prefix_cons]
        rintro ⟨_, front⟩
        exact alone front
      simp [isTriple, front]
  | triple =>
      have behind : [quote, quote, quote].isSuffixOf
          (quote :: quote :: quote :: (body ++ [quote, quote, quote])) = true := by
        rw [List.isSuffixOf_iff_suffix]
        exact List.suffix_append (quote :: quote :: quote :: body) _
      simp [isTriple, behind]

/-- A literal begins and ends with its quote, and the quotes do not overlap. -/
theorem ends_of_framed (framed : Framed quote triple body text) :
    ∃ rest, text = quote :: rest ∧ rest ≠ [] ∧ text.getLast? = some quote := by
  cases framed with
  | single =>
      refine ⟨_, rfl, List.append_ne_nil_of_right_ne_nil _ nofun, ?_⟩
      rw [← List.cons_append, List.getLast?_append]
      rfl
  | triple =>
      refine ⟨_, rfl, nofun, ?_⟩
      rw [← List.cons_append, ← List.cons_append, ← List.cons_append, List.getLast?_append]
      rfl

/-- The body stands between the quotes. -/
theorem body_of_framed (framed : Framed quote triple body text) :
    (text.drop (if triple then 3 else 1)).take
      (text.length - 2 * if triple then 3 else 1) = body := by
  cases framed with
  | single => simp
  | triple => simp

/-- The body begins behind as many bytes as there are quotes. -/
theorem split_of_framed (quoted : isQuote quote = true) (framed : Framed quote triple body text) :
    ∃ opening closing, text = opening ++ (body ++ closing) ∧
      size opening = if triple then 3 else 1 := by
  have narrow : quote.utf8Size = 1 := by
    simp only [isQuote, Bool.or_eq_true, beq_iff_eq] at quoted
    rcases quoted with rfl | rfl <;> rfl
  cases framed with
  | single => exact ⟨[quote], [quote], rfl, by simp [narrow]⟩
  | triple => exact ⟨[quote, quote, quote], [quote, quote, quote], rfl, by simp [narrow]⟩

/-- A literal is read by reading its body. -/
theorem decodeChars_of_framed (quoted : isQuote quote = true)
    (framed : Framed quote triple body text) :
    decodeChars text = (·, triple) <$> unescape (if triple then 3 else 1) body := by
  have inner := body_of_framed framed
  have same := isTriple_of_framed framed
  obtain ⟨rest, rfl, long, last⟩ := ends_of_framed framed
  rw [List.length_cons] at inner
  rw [map_eq_pure_bind]
  simp only [isQuote, Bool.or_eq_true, beq_iff_eq] at quoted
  rcases quoted with rfl | rfl
  · simp [-mul_ite, decodeChars, long, last, same, inner, pure, Except.pure]
  · simp [-mul_ite, decodeChars, long, last, same, inner, pure, Except.pure]

/-- Behind an `r` the body stands for itself. -/
theorem decodeChars_of_raw {mark : Char} (raw : mark = 'r' ∨ mark = 'R')
    (quoted : isQuote quote = true) (framed : Framed quote triple body text) :
    decodeChars (mark :: text) = .ok (body, triple) := by
  have inner := body_of_framed framed
  have same := isTriple_of_framed framed
  obtain ⟨rest, rfl, long, last⟩ := ends_of_framed framed
  rw [List.length_cons] at inner
  simp only [isQuote, Bool.or_eq_true, beq_iff_eq] at quoted
  rcases raw with rfl | rfl <;> rcases quoted with rfl | rfl <;>
    simp [-mul_ite, decodeChars, long, last, same, inner]

/-- Whether a literal opens with three quotes, behind an `r` if it has one. -/
def opensTriple (token : List Char) : Bool :=
  let text := match token with
    | 'r' :: text | 'R' :: text => text
    | text => text
  ['"', '"', '"'].isPrefixOf text || ['\'', '\'', '\''].isPrefixOf text

/-- So does a look at the first characters. -/
theorem opensTriple_of_framed (quoted : isQuote quote = true)
    (framed : Framed quote triple body text) : opensTriple text = triple := by
  have front : [quote, quote, quote].isPrefixOf text = triple := by
    cases framed with
    | single alone =>
        rw [← Bool.not_eq_true, List.isPrefixOf_iff_prefix, List.cons_prefix_cons]
        rintro ⟨_, front⟩
        exact alone front
    | triple => simp
  obtain ⟨rest, rfl, _⟩ := ends_of_framed framed
  simp only [isQuote, Bool.or_eq_true, beq_iff_eq] at quoted
  rcases quoted with rfl | rfl
  · exact (Bool.or_false _).trans front
  · exact (Bool.false_or _).trans front

theorem opensTriple_of_raw {mark : Char} (raw : mark = 'r' ∨ mark = 'R')
    (quoted : isQuote quote = true) (framed : Framed quote triple body text) :
    opensTriple (mark :: text) = triple := by
  rw [← opensTriple_of_framed quoted framed]
  obtain ⟨rest, rfl, _⟩ := ends_of_framed framed
  simp only [isQuote, Bool.or_eq_true, beq_iff_eq] at quoted
  rcases raw with rfl | rfl <;> rcases quoted with rfl | rfl <;> rfl

/-- A literal that is cut off a source is read with the quotes that it opens with, or one of its
escapes is misspelt. -/
theorem decodeChars_of_cuts {c : Char} {text : List Char}
    (cuts : Lexeme.Cuts c text .string text.length) :
    (∃ value, decodeChars (c :: text) = .ok (value, opensTriple (c :: text))) ∨
      ∃ fault front back, decodeChars (c :: text) = .error fault ∧
        c :: text = front ++ '\\' :: back ∧ fault.MisspeltAt (size front) := by
  generalize piece : Lexeme.Piece.string = p at cuts
  generalize long : text.length = n at cuts
  cases cuts with
  | string quoted extent =>
      subst long
      obtain ⟨triple, body, framed, paired⟩ := Lexeme.framed_of_stringExtent extent
      rw [decodeChars_of_framed quoted framed, opensTriple_of_framed quoted framed]
      cases read : unescape (if triple then 3 else 1) body with
      | ok value => exact .inl ⟨value, rfl⟩
      | error fault =>
          right
          obtain ⟨front, back, rfl, misspelt⟩ := unescape_eq_error paired read
          obtain ⟨opening, closing, split, bytes⟩ := split_of_framed quoted framed
          refine ⟨fault, opening ++ front, back ++ closing, rfl, ?_, ?_⟩
          · rw [split, List.append_assoc, List.append_assoc, List.cons_append]
          · rw [Text.Utf8.size_append, bytes]
            exact misspelt
  | @raw quote more k raw same quoted extent =>
      subst same
      obtain rfl : more.length = k := by simpa using long
      obtain ⟨triple, body, framed, _⟩ := Lexeme.framed_of_stringExtent extent
      left
      rw [opensTriple_of_raw raw quoted framed]
      exact ⟨body, decodeChars_of_raw raw quoted framed⟩
  | _ => cases piece

/-- A token that the scanner cut off has a value, unless an escape in it is misspelt. -/
theorem decode_of_sound {token : String} (sound : (⟨.string, token.toList⟩ : Word).Sound) :
    (∃ value, decode token = .ok (value, opensTriple token.toList)) ∨
      ∃ fault front back, decode token = .error fault ∧
        token.toList = front ++ '\\' :: back ∧ fault.MisspeltAt (size front) := by
  obtain ⟨c, text, same, cuts, _⟩ := sound
  have same : token.toList = c :: text := same
  rw [decode, same]
  rcases decodeChars_of_cuts cuts with ⟨value, read⟩ | ⟨fault, front, back, read, misspelt⟩
  · rw [read]
    exact .inl ⟨String.ofList value, rfl⟩
  · rw [read]
    exact .inr ⟨fault, front, back, rfl, misspelt⟩

end Quoted

/-- A string of a source can be cut off it. -/
theorem TokenStream.sound_string {source : List Char} {stream : TokenStream}
    (scanned : TokenStream.ofChars source = .ok stream) {t : Token} (member : t ∈ stream.tokens)
    (kind : t.kind = .string) : (⟨.string, t.text.toList⟩ : Word).Sound := by
  obtain ⟨ls, success, rfl⟩ := map_eq_ok.mp scanned
  rw [← kind]
  apply (Lexeme.scans_of_scanFrom success).sound (Lexeme.mem_tokens.mp member)
  rw [kind]
  rfl

/-- The scanner and the reading of literals agree: a string of a source is read, and as one with
triple quotes just when it opens with three; or else an escape in it is misspelt, and the fault
gives the offset of its backslash. -/
theorem TokenStream.decode_string {source : List Char} {stream : TokenStream}
    (scanned : TokenStream.ofChars source = .ok stream) {t : Token} (member : t ∈ stream.tokens)
    (kind : t.kind = .string) :
    (∃ value, Quoted.decode t.text = .ok (value, Quoted.opensTriple t.text.toList)) ∨
      ∃ fault front back, Quoted.decode t.text = .error fault ∧
        t.text.toList = front ++ '\\' :: back ∧ fault.MisspeltAt (size front) := by
  exact Quoted.decode_of_sound (TokenStream.sound_string scanned member kind)

/-- A raw literal that ends in an escaped quote, and a misspelt escape behind a character of two
bytes. -/
theorem TokenStream.decode_string_of_misspelling :
    ∃ stream, TokenStream.ofChars "R'''\\'''' 'é\\xg'".toList = .ok stream ∧
      (∃ t ∈ stream.tokens, t.kind = .string ∧ Quoted.opensTriple t.text.toList = true ∧
        ∃ value, Quoted.decode t.text = .ok (value, Quoted.opensTriple t.text.toList)) ∧
      ∃ t ∈ stream.tokens, t.kind = .string ∧ ∃ fault front back,
        Quoted.decode t.text = .error fault ∧ t.text.toList = front ++ '\\' :: back ∧
          fault.MisspeltAt (size front) := by
  let s : Token := ⟨.string, "R'''\\''''", ⟨1, 1, 0⟩, ⟨1, 10, 9⟩⟩
  let t : Token := ⟨.string, "'é\\xg'", ⟨1, 11, 10⟩, ⟨1, 17, 17⟩⟩
  let ends : List Token :=
    [⟨.newline, "", ⟨1, 17, 17⟩, ⟨1, 17, 17⟩⟩, ⟨.eof, "", ⟨1, 17, 17⟩, ⟨1, 17, 17⟩⟩]
  have scanned : TokenStream.ofChars "R'''\\'''' 'é\\xg'".toList =
      .ok ⟨s :: t :: ends, [], []⟩ := by
    cbv
  have first : s ∈ s :: t :: ends := List.mem_cons_self
  have second : t ∈ s :: t :: ends := List.mem_cons_of_mem _ List.mem_cons_self
  refine ⟨_, scanned, ⟨s, first, rfl, by decide, ?_⟩, t, second, rfl, ?_⟩
  · rcases TokenStream.decode_string scanned first rfl with read | ⟨fault, _, _, misread, _⟩
    · exact read
    · have read : Quoted.decode s.text = .ok ("\\'", true) := by cbv
      rw [read] at misread
      cases misread
  · rcases TokenStream.decode_string scanned second rfl with ⟨value, read⟩ | misread
    · have misread : Quoted.decode t.text = .error (.hexDigits 3 "\\xg") := by cbv
      rw [misread] at read
      cases read
    · exact misread

end Starlark
