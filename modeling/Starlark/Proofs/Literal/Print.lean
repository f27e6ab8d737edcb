import Starlark.Proofs.Literal
import Starlark.Proofs.Seam.Node

/-!
# Printed strings read back

A string is printed as its own token, when that spells the value between double
quotes, and otherwise in the canonical spelling. Whatever an edit has made of its
value and its quotes, what is printed is one literal to the scanner, it is read as
the value with these quotes, and it is printed in the same way again
(`StringLit.readsBack_of_print`).

The scanner sees more of the source than the literal. Only an empty literal can
run into what stands behind it, since a third quote would open a longer one.
-/

set_option autoImplicit false

namespace Starlark

namespace StringLit

variable {s : StringLit}

/-! ## The text of a literal -/

theorem text_print (s : StringLit) (p : Page) :
    (s.print p).text = p.text ++ String.ofList s.spelling := by
  unfold print spelling
  by_cases kept : s.isKept = true
  · simp [kept, Page.text, Page.put, Page.putChars]
  · cases blank : s.token.isEmpty <;>
      simp [kept, Page.text, Page.put, Page.putChars, Page.noteRequoted, Quoted.encode]

/-- Whatever is printed is read as the value. -/
theorem decode_spelling (s : StringLit) :
    Quoted.decode (String.ofList s.spelling) = .ok (s.value, s.triple) := by
  unfold spelling
  by_cases kept : s.isKept = true
  · rw [if_pos kept, String.ofList_toList]
    simp only [isKept, Bool.and_eq_true] at kept
    cases read : Quoted.decode s.token with
    | error fault => simp [read] at kept
    | ok r =>
        obtain ⟨value, triple⟩ := r
        simp only [read, Bool.and_eq_true, beq_iff_eq] at kept
        rw [kept.2.1, kept.2.2]
  · rw [if_neg kept]
    exact Quoted.decode_encode s.value s.triple

/-- A literal that is read from a spelling between double quotes keeps it. -/
theorem spelling_eq_of_decode {lit : StringLit} (quote : lit.token.toList.head? = some '"')
    (read : Quoted.decode lit.token = .ok (lit.value, lit.triple)) :
    lit.spelling = lit.token.toList := by
  have kept : lit.isKept = true := by simp [isKept, quote, read]
  rw [spelling, if_pos kept]

/-! ## Reading back -/

/-- The text that a literal is printed as is a literal again. -/
structure ReadsBack (s : StringLit) (w : String) : Prop where
  /-- The text is what is printed, on every page. -/
  written : ∀ p : Page, (s.print p).text = p.text ++ w
  /-- It is cut off as one string, whatever comes next, but for a quote behind an empty literal. -/
  cut : ∃ text, w.toList = '"' :: text ∧
    ∀ rest : List Char, (w = "\"\"" → rest.head? ≠ some '"') →
      Lexeme.pieceAt '"' (text ++ rest) = .ok (.string, text.length)
  /-- It is read as the value, with the quotes that the literal has. -/
  read : Quoted.decode w = .ok (s.value, s.triple)
  /-- A token with this text is read as a literal that is printed as this text. -/
  again : ∀ t : Token, t.text = w → ∃ lit, StringLit.ofToken t = .ok lit ∧
    ∀ p : Page, (lit.print p).text = p.text ++ w

/-- A whole string between double quotes is cut off in front of everything that does not make it
longer. -/
theorem pieceAt_of_sound {text : List Char} (sound : (⟨.string, '"' :: text⟩ : Word).Sound)
    {rest : List Char} (next : text = ['"'] → rest.head? ≠ some '"') :
    Lexeme.pieceAt '"' (text ++ rest) = .ok (.string, text.length) := by
  obtain ⟨c, text, same, cuts, _⟩ := sound
  cases same
  generalize piece : Word.piece _ = p at cuts
  generalize long : text.length = n at cuts
  cases cuts with
  | string quoted extent =>
      subst long
      exact (Lexeme.Cuts.string quoted (Lexeme.stringExtent_append extent next)).pieceAt
  | raw raw => rcases raw with wrong | wrong <;> cases wrong
  | _ => cases piece

/-- A literal whose token, when it is kept, can be cut off a source is printed as a text that reads
back. -/
theorem readsBack_spelling (lexical : s.Lexical) : s.ReadsBack (String.ofList s.spelling) := by
  obtain ⟨sound, head⟩ := s.spelling_sound lexical
  obtain ⟨text, begins⟩ := List.head?_eq_some_iff.mp head
  refine ⟨s.text_print, ⟨text, ?_, ?_⟩, s.decode_spelling, ?_⟩
  · rw [String.toList_ofList, begins]
  · intro rest next
    rw [begins] at sound next
    apply pieceAt_of_sound sound
    rintro rfl
    exact next rfl
  · intro t same
    have read := s.decode_spelling
    have quote : t.text.toList.head? = some '"' := by rw [same, String.toList_ofList, head]
    rw [← same] at read ⊢
    let lit : StringLit := ⟨t.pos, s.value, s.triple, t.stop, t.text⟩
    have kept : lit.spelling = t.text.toList := @spelling_eq_of_decode lit quote read
    refine ⟨lit, by rw [ofToken, read], fun p => ?_⟩
    rw [text_print, kept, String.ofList_toList]

/-- A string without a token, or with the token of a source, is printed as a text that reads back,
whatever its value and its quotes have become. -/
theorem readsBack_of_print
    (token : s.token = "" ∨ ∃ source stream t, TokenStream.ofChars source = .ok stream ∧
      t ∈ stream.tokens ∧ t.kind = .string ∧ t.text = s.token) :
    ∃ w, s.ReadsBack w := by
  refine ⟨_, readsBack_spelling fun kept => ?_⟩
  rcases token with none | ⟨source, stream, t, scanned, member, kind, same⟩
  · -- an empty token does not begin with a quote
    simp [isKept, none] at kept
  · rw [← same]
    exact TokenStream.sound_string scanned member kind

/-- A raw string in single quotes that an edit has given triple quotes and a value with four quotes
and a line end. -/
theorem readsBack_of_raw :
    (∃ source stream t, TokenStream.ofChars source = .ok stream ∧ t ∈ stream.tokens ∧
      t.kind = .string ∧ t.text = "r'x'") ∧
      ∃ w, (⟨.nowhere, "a\"\"\"\"\n", true, .nowhere, "r'x'"⟩ : StringLit).ReadsBack w := by
  have token : ∃ source stream t, TokenStream.ofChars source = .ok stream ∧ t ∈ stream.tokens ∧
      t.kind = .string ∧ t.text = "r'x'" := by
    refine ⟨"r'x'".toList, ⟨[⟨.string, "r'x'", ⟨1, 1, 0⟩, ⟨1, 5, 4⟩⟩,
      ⟨.newline, "", ⟨1, 5, 4⟩, ⟨1, 5, 4⟩⟩, ⟨.eof, "", ⟨1, 5, 4⟩, ⟨1, 5, 4⟩⟩], [], []⟩, _, ?_,
      List.mem_cons_self, rfl, rfl⟩
    cbv
  exact ⟨token, readsBack_of_print (.inr token)⟩

end StringLit

end Starlark
