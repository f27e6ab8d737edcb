import Starlark.Proofs.Lexeme.Tiling
import Starlark.Proofs.Literal
import Starlark.Proofs.Reader.Progress.Statement
import Starlark.Proofs.Span.File
import Starlark.Proofs.Text.Utf8

/-!
# Where failures are placed

A source fails in one of four ways: its bytes are no text, the scanner stops
at a character, a token is not the expected one, or an escape in a string is
misspelt. Each failure is placed behind a text with which the bytes of the
source begin, and what caused it comes next in the source
(`File.behind_of_ofBytes`).

The places come from different hands. The scanner reports its own place, which
it has reached by moving over the source. A reader reports the place of a
token, and a token stands where it says. The place of an escape is counted in
bytes from the start of its string, and the count ends at a backslash, since a
string that was cut off a source begins and ends with the same quote. The place
of a byte that begins no character is found behind the longest text.
-/

set_option autoImplicit false

namespace Starlark

open Text.Utf8 (size)

open Outcome (bind_eq_error map_eq_error)

/-! ## Faults of the scanner -/

/-- The causes that the scanner reports at a character. -/
inductive Cause.LexicalAt (c : Char) : Cause → Prop
  | indentation : LexicalAt c .indentation
  | endInString : LexicalAt c .endInString
  | newlineInString : LexicalAt c .newlineInString
  | character : LexicalAt c (.character c)

namespace Lexeme

/-- A string on one line fails because the line or the source ends in it. -/
theorem shortExtent_eq_error {quote : Char} {text : List Char} {cause : Cause}
    (fails : shortExtent quote text = .error cause) (c : Char) : cause.LexicalAt c := by
  fun_induction shortExtent quote text with
  | case1 | case2 =>
      cases fails
      exact .endInString
  | case3 _ rest ih | case6 _ rest _ _ _ _ ih => exact ih (map_eq_error.mp fails)
  | case4 => cases fails
  | case5 =>
      cases fails
      exact .newlineInString

theorem longExtent_eq_error {quote : Char} {text : List Char} {cause : Cause}
    (fails : longExtent quote text = .error cause) (c : Char) : cause.LexicalAt c := by
  fun_induction longExtent quote text with
  | case1 =>
      cases fails
      exact .endInString
  | case2 _ rest ih | case4 _ rest _ _ ih => exact ih (map_eq_error.mp fails)
  | case3 => cases fails

theorem stringExtent_eq_error {quote : Char} {text : List Char} {cause : Cause}
    (fails : stringExtent quote text = .error cause) (c : Char) : cause.LexicalAt c := by
  unfold stringExtent at fails
  split at fails
  · exact longExtent_eq_error (map_eq_error.mp fails) c
  · exact shortExtent_eq_error fails c

/-- The scanner stops at a character only for a reason that the character shows. -/
theorem pieceAt_eq_error {c : Char} {rest : List Char} {cause : Cause}
    (fails : pieceAt c rest = .error cause) : cause.LexicalAt c := by
  unfold pieceAt at fails
  split at fails
  next => cases fails
  split at fails
  next =>
    split at fails
    · cases fails
    · cases fails
      exact .character
  split at fails
  next => cases fails
  split at fails
  next => exact stringExtent_eq_error (map_eq_error.mp fails) c
  split at fails
  next => cases fails
  split at fails
  next =>
    split at fails
    · split at fails
      · exact stringExtent_eq_error (map_eq_error.mp fails) c
      · cases fails
    · cases fails
  next =>
    split at fails
    · cases fails
    · cases fails
      exact .character

/-- A line that returns to no open level fails at its first character. -/
theorem Margin.indentation_eq_error {m : Margin} {c : Char} {fault : Fault}
    (fails : m.indentation c = .error fault) : fault = ⟨m.pos, .indentation⟩ := by
  unfold Margin.indentation at fails
  split at fails
  next => cases fails
  dsimp only at fails
  split at fails
  next => cases fails
  split at fails
  next => cases fails
  split at fails
  next =>
    split at fails
    · cases fails
    · cases fails
      rfl
  next => cases fails

/-- The scanner stops at a character of the source. -/
theorem scanFrom_eq_error {m : Margin} {source : List Char} {fault : Fault}
    (fails : scanFrom m source = .error fault) :
    ∃ before c after, source = before ++ c :: after ∧ fault.pos = m.pos.advance before ∧
      fault.cause.LexicalAt c := by
  fun_induction scanFrom m source with
  | case1 => cases fails
  | case2 m source _ c rest found ih =>
      have split : source = source.takeWhile isSpace ++ c :: rest := by
        rw [← found, List.takeWhile_append_dropWhile]
      obtain layout | ⟨⟨layout, m'⟩, indentation, follows⟩ := bind_eq_error.mp fails
      · cases Margin.indentation_eq_error layout
        exact ⟨_, c, rest, split, rfl, .indentation⟩
      have place : m'.pos = m.pos.advance (source.takeWhile isSpace) :=
        (Margin.indentation_eq_ok indentation).1
      simp only at follows
      split at follows
      next cause cut =>
        cases follows
        exact ⟨_, c, rest, split, place, pieceAt_eq_error cut⟩
      next piece more cut =>
        obtain scanned | ⟨ls, _, done⟩ := bind_eq_error.mp follows
        · obtain ⟨before, d, after, same, pos, lexical⟩ := ih m' piece more scanned
          refine ⟨source.takeWhile isSpace ++ c :: rest.take more ++ before, d, after, ?_, ?_,
            lexical⟩
          · rw [List.append_assoc, ← same, List.append_assoc, List.cons_append,
              List.take_append_drop, ← split]
          · rw [pos, Margin.after_pos, place, Position.advance_append, Position.advance_append]
        · cases done

end Lexeme

/-! ## Misspelt strings -/

/-- A misspelt string fails at the backslash of an escape. -/
theorem StringLit.ofToken_eq_error {t : Token} {fault : Fault} (sound : t.word.Sound)
    (kind : t.kind = .string) (fails : ofToken t = .error fault) :
    ∃ front back misspelling, t.text.toList = front ++ '\\' :: back ∧
      misspelling.offset = size front ∧ fault = ⟨t.pos.advance front, .literal misspelling⟩ := by
  have string : (⟨.string, t.text.toList⟩ : Word).Sound := by
    rw [← kind]
    exact sound
  unfold ofToken at fails
  rcases Quoted.decode_of_sound string with ⟨value, read⟩ |
    ⟨misspelling, front, back, read, split, place⟩
  · rw [read] at fails
    cases fails
  · rw [read] at fails
    cases fails
    refine ⟨front, back, misspelling, split, place.offset_eq, ?_⟩
    rw [split, place.offset_eq, Text.Utf8.takeBytes_append]

/-! ## Places of failures -/

/-- The tokens of a source stand in it where they say. -/
theorem TokenStream.exists_split {source : List Char} {stream : TokenStream}
    (scanned : TokenStream.ofChars source = .ok stream) {t : Token} (member : t ∈ stream.tokens) :
    ∃ before after, source = before ++ t.text.toList ++ after ∧
      t.pos = Position.origin.advance before := by
  obtain ⟨ls, success, rfl⟩ := Outcome.map_eq_ok.mp scanned
  obtain ⟨tiles, rfl, rfl, laid⟩ :=
    (Lexeme.scans_of_scanFrom success).laid Lexeme.Margin.behind_initial
  obtain ⟨before, after, split, start, _⟩ := laid.tiles.placed _ (Lexeme.mem_tokens.mp member)
  exact ⟨before, after, split, start⟩

/-- The cause of a failure is found behind a text with which the bytes of a source begin. -/
inductive Cause.Behind (bytes : ByteArray) : List Char → Cause → Prop
  /-- The scanner stops at a character. -/
  | lexical {text rest : List Char} {c : Char} {cause : Cause}
      (whole : bytes = (text ++ c :: rest).utf8Encode)
      (stops : TokenStream.ofChars (text ++ c :: rest) =
        .error ⟨Position.origin.advance text, cause⟩)
      (here : cause.LexicalAt c) : Behind bytes text cause
  /-- A token of the source is not the one that is expected. -/
  | unexpected {text rest : List Char} {stream : TokenStream} {t : Token}
      {expected : List Token.Kind} (whole : bytes = (text ++ t.text.toList ++ rest).utf8Encode)
      (scanned : TokenStream.ofChars (text ++ t.text.toList ++ rest) = .ok stream)
      (member : t ∈ stream.tokens) (here : t.pos = Position.origin.advance text) :
      Behind bytes text (.unexpected t.kind expected)
  /-- An escape in a string of the source is misspelt, and its backslash comes next. -/
  | literal {before front back rest : List Char} {stream : TokenStream} {t : Token}
      {misspelling : Quoted.Fault}
      (whole : bytes = (before ++ (front ++ '\\' :: back) ++ rest).utf8Encode)
      (scanned : TokenStream.ofChars (before ++ (front ++ '\\' :: back) ++ rest) = .ok stream)
      (member : t ∈ stream.tokens) (kind : t.kind = .string)
      (text : t.text.toList = front ++ '\\' :: back) (pos : t.pos = Position.origin.advance before)
      (offset : misspelling.offset = size front) :
      Behind bytes (before ++ front) (.literal misspelling)
  /-- The bytes are no text, and begin with no longer one. -/
  | encoding {text : List Char} (invalid : ∀ source : List Char, bytes ≠ source.utf8Encode)
      (longest : ∀ (other : List Char) (rest : ByteArray), bytes = other.utf8Encode ++ rest →
        other <+: text) : Behind bytes text .encoding

/-- A text that is not read fails behind a part of it, and the cause is found there. -/
theorem File.behind_of_ofChars {path : String} {options : Options} {source : List Char}
    {fault : Fault} (fails : File.ofChars path options source = .error fault) :
    ∃ text rest, source = text ++ rest ∧ fault.pos = Position.origin.advance text ∧
      fault.cause.Behind source.utf8Encode text := by
  obtain unscanned | ⟨stream, scanned, unread⟩ := bind_eq_error.mp fails
  · obtain ⟨text, c, rest, rfl, pos, here⟩ :=
      Lexeme.scanFrom_eq_error (map_eq_error.mp unscanned)
    obtain ⟨_, cause⟩ := fault
    cases pos
    exact ⟨text, c :: rest, rfl, rfl, .lexical rfl unscanned here⟩
  obtain refused | ⟨_, _, done⟩ := bind_eq_error.mp unread
  · cases Reader.blames_of_statements (Reader.endsOnce_of_ofChars scanned) refused with
    | @unexpected t member expected =>
        obtain ⟨text, rest, rfl, pos⟩ := TokenStream.exists_split scanned member
        exact ⟨text, t.text.toList ++ rest, List.append_assoc _ _ _, pos,
          .unexpected rfl scanned member pos⟩
    | @literal t _ member kind misspelt =>
        have sound : t.word.Sound := TokenStream.lexical scanned t member (by simp [kind])
        obtain ⟨front, back, misspelling, shown, offset, rfl⟩ :=
          StringLit.ofToken_eq_error sound kind misspelt
        obtain ⟨before, rest, rfl, pos⟩ := TokenStream.exists_split scanned member
        rw [shown] at scanned ⊢
        refine ⟨before ++ front, '\\' :: back ++ rest, by simp, ?_,
          .literal rfl scanned member kind shown pos offset⟩
        rw [pos, Position.advance_append]
  · cases done

/-- When bytes are not read as a file, the failure is placed behind a text with which the bytes
begin, and its cause is to be found there. -/
theorem File.behind_of_ofBytes {path : String} {options : Options} {bytes : ByteArray}
    {failure : Failure} (fails : File.ofBytes path options bytes = .error failure) :
    failure.path = path ∧ ∃ text rest, bytes = text.utf8Encode ++ rest ∧
      failure.pos = Position.origin.advance text ∧ failure.pos.offset = text.utf8Encode.size ∧
      failure.cause.Behind bytes text := by
  unfold ofBytes at fails
  split at fails
  next source decoded =>
    obtain rfl := Text.Utf8.decode_eq_ok_iff.mp decoded
    cases read : File.ofChars path options source with
    | ok f =>
        rw [read] at fails
        cases fails
    | error fault =>
        rw [read] at fails
        cases fails
        obtain ⟨text, rest, rfl, pos, behind⟩ := behind_of_ofChars read
        refine ⟨rfl, text, rest.utf8Encode, List.utf8Encode_append, pos, ?_, behind⟩
        rw [Text.Utf8.size_utf8Encode, ← Position.offset_origin_advance]
        exact congrArg Position.offset pos
  next text undecoded =>
    cases fails
    obtain ⟨⟨rest, begins⟩, longest⟩ := Text.Utf8.decode_eq_error undecoded
    refine ⟨rfl, text, rest, begins, rfl, ?_, .encoding (fun source same => ?_) longest⟩
    · rw [Text.Utf8.size_utf8Encode, ← Position.offset_origin_advance]
    · rw [Text.Utf8.decode_eq_ok_iff.mpr same] at undecoded
      cases undecoded

/-- A misspelt escape behind a character of two bytes, on the second line. -/
theorem File.behind_of_misspelling :
    File.ofBytes "a.bzl" ⟨.bzl, false⟩ "a\nb('é\\xg')".toUTF8 =
        .error ⟨⟨⟨2, 5, 7⟩, .literal (.hexDigits 3 "\\xg")⟩, "a.bzl"⟩ ∧
      ∃ text rest, "a\nb('é\\xg')".toUTF8 = text.utf8Encode ++ rest ∧
        (⟨2, 5, 7⟩ : Position) = Position.origin.advance text ∧ 7 = text.utf8Encode.size ∧
        Cause.Behind "a\nb('é\\xg')".toUTF8 text (.literal (.hexDigits 3 "\\xg")) := by
  have fails : File.ofBytes "a.bzl" ⟨.bzl, false⟩ "a\nb('é\\xg')".toUTF8 =
      .error ⟨⟨⟨2, 5, 7⟩, .literal (.hexDigits 3 "\\xg")⟩, "a.bzl"⟩ := by
    rw [ofBytes_toUTF8]
    cbv
  exact ⟨fails, (File.behind_of_ofBytes fails).2⟩

end Starlark
