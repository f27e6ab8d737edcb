import Starlark.Proofs.Lexeme.Tiling
import Starlark.Proofs.Word

/-!
# The tokens of a source in a row

Tokens follow each other in a source, each stops behind its own text, and the
tokens inside a line are not empty. This is what the places of tokens tell those
who read them one by one.
-/

set_option autoImplicit false

namespace Starlark

open Text.Utf8 (size)

/-- Tokens in the order in which they stand in a source. -/
structure Token.Row (ts : List Token) : Prop where
  ordered : ts.Pairwise fun s t => s.stop.offset ≤ t.pos.offset
  stops : ∀ t ∈ ts, t.stop = t.pos.add t.text
  /-- Tokens inside a line have a text. -/
  solid : ∀ t ∈ ts, t.kind.isInline = true → t.pos.offset < t.stop.offset

namespace Lexeme

theorem pos_lt_stop_of_cons (p : Position) (c : Char) (text : List Char) :
    p.offset < (p.advance (c :: text)).offset := by
  have wide := c.utf8Size_pos
  rw [Position.offset_advance, Text.Utf8.size_cons]
  omega

/-- The pieces inside a line are not empty. -/
theorem Scans.solid {m : Margin} {source : List Char} {ls : List Lexeme} (scans : Scans m source ls)
    {t : Token} (member : Lexeme.token t ∈ ls) (inline : t.kind.isInline = true) :
    t.pos.offset < t.stop.offset := by
  rcases scans.mem member with ⟨m, kind, same, other, -⟩ | ⟨m, piece, c, text, rest, -, found⟩
  · cases same
    simp [Token.mkAt, other] at inline
  · cases piece with
    | newline | continuation | comment =>
        simp only [Margin.lexeme?] at found
        (repeat' split at found) <;> cases found <;> cases inline
    | word | number | string | operator =>
        cases found
        exact pos_lt_stop_of_cons _ _ _

/-- The tokens of a source stand in it in order. -/
theorem Scans.row {source : List Char} {ls : List Lexeme} (scans : Scans .initial source ls) :
    Token.Row (ls.filterMap token?) := by
  obtain ⟨tiles, rfl, rfl, laid⟩ := scans.laid Margin.behind_initial
  have tiled := laid.tiles
  refine ⟨?_, fun t member => ?_, fun t member => scans.solid (mem_tokens.mp member)⟩
  · refine List.Pairwise.filterMap _ (fun l r apart s left t right => ?_) tiled.ordered
    cases l <;> cases left
    cases r <;> cases right
    exact apart
  · obtain ⟨before, after, _, _, stop⟩ := tiled.placed _ (mem_tokens.mp member)
    exact stop

end Lexeme

theorem TokenStream.row {source : List Char} {stream : TokenStream}
    (scanned : TokenStream.ofChars source = .ok stream) : Token.Row stream.tokens := by
  obtain ⟨ls, success, rfl⟩ := Outcome.map_eq_ok.mp scanned
  exact (Lexeme.scans_of_scanFrom success).row

end Starlark
