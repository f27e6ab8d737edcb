import Mathlib.Data.List.Chain
import Starlark.Proofs.Lexeme.Blanked
import Starlark.Proofs.Lexeme.Levels

/-!
# Sources without joined lines

A backslash in front of a line break joins two lines. It is no lexeme, so it
can be told from the backslashes of strings and comments by what the lexemes
cover: in a straight source a lexeme covers every backslash that stands in front
of a line break (`Straight`).

A block is opened in front of a piece that is neither a line end nor a comment.
In a straight source that piece is code, so that the token behind the opening of
a block stands inside a line (`Scans.opens`).
-/

set_option autoImplicit false

namespace Starlark

open Text.Utf8 (size)

/-- The token behind the opening of a block stands inside a line. -/
def Token.OpensOn (s t : Token) : Prop := s.kind = .indent → t.kind.isInline = true

namespace Lexeme

/-- No backslash joins two lines of a source that begins at an offset: each one in front of a line
break is covered by a lexeme. -/
def Straight (offset : Nat) (source : List Char) (ls : List Lexeme) : Prop :=
  ∀ before after, source = before ++ '\\' :: after → lineBreakWidth? after ≠ none →
    ∃ l ∈ ls, l.Covers (offset + size before)

/-! ## How far lexemes reach -/

/-- A lexeme reaches no further than its piece. -/
theorem Margin.lexeme?_stop {m : Margin} {piece : Piece} {text rest : List Char} {l : Lexeme}
    (found : m.lexeme? piece text rest = some l) : l.stop.offset ≤ m.pos.offset + size text := by
  have reach {shown : List Char} (fits : size shown ≤ size text) :
      (m.pos.advance shown).offset ≤ m.pos.offset + size text := by
    rw [Position.offset_advance]
    omega
  have trimmed : size (Text.trimEnd text) ≤ size text := by
    conv_rhs => rw [← trimEnd_append text, Text.Utf8.size_append]
    exact Nat.le_add_right _ _
  have shown (c : Comment) (same : c = ⟨m.pos, String.ofList (Text.trimEnd text)⟩) :
      (c.start.add c.text).offset ≤ m.pos.offset + size text := by
    subst same
    rw [Position.add, String.toList_ofList]
    exact reach trimmed
  cases piece with
  | newline =>
      simp only [lexeme?] at found
      split at found <;> cases found
      exact reach (Nat.le_refl _)
  | continuation => cases found
  | comment =>
      simp only [lexeme?] at found
      split at found
      · cases found
        exact shown _ rfl
      · split at found <;> cases found
        · exact reach trimmed
        · exact shown _ rfl
  | string | number | word | operator =>
      cases found
      exact reach (Nat.le_refl _)

/-- The lexemes of one step stop where its text does at the latest. -/
theorem Margin.stop_of_step {m m' : Margin} {c : Char} {layout : List Lexeme} {piece : Piece}
    {text rest : List Char} (indentation : m.indentation c = .ok (layout, m')) {l : Lexeme}
    (member : l ∈ layout ++ (m'.lexeme? piece text rest).toList) :
    l.stop.offset ≤ m.pos.offset + size text := by
  obtain before | found := List.mem_append.mp member
  · obtain ⟨kind, rfl, _⟩ := Margin.indentation_empty indentation l before
    exact Nat.le_add_right _ _
  · rw [← (indentation_eq_ok indentation).1]
    exact Margin.lexeme?_stop (Option.mem_toList.mp found)

/-! ## Straight sources -/

section Step

variable {m m' : Margin} {spaces text rest : List Char} {c : Char} {layout ls : List Lexeme}
  {piece : Piece} (indentation : (m.skip spaces).indentation c = .ok (layout, m'))
  (straight : Straight m.pos.offset (spaces ++ c :: (text ++ rest))
    (layout ++ (m'.lexeme? piece (c :: text) rest).toList ++ ls))

include indentation

theorem Margin.offset_of_step :
    (m'.after piece (c :: text) rest).pos.offset =
      m.pos.offset + size spaces + size (c :: text) := by
  have here : (m.skip spaces).pos.offset = m.pos.offset + size spaces := Position.offset_advance _ _
  rw [after_pos, (indentation_eq_ok indentation).1, Position.offset_advance, here]

include straight

/-- What is behind the first piece of a straight source is straight. -/
theorem Straight.behind : Straight (m'.after piece (c :: text) rest).pos.offset rest ls := by
  intro before after same joins
  obtain ⟨l, member, start, stop⟩ := straight (spaces ++ c :: (text ++ before)) after
    (by simp [same]) joins
  rw [Margin.offset_of_step indentation]
  have place : m.pos.offset + size (spaces ++ c :: (text ++ before)) =
      m.pos.offset + size spaces + size (c :: text) + size before := by
    simp only [Text.Utf8.size_append, Text.Utf8.size_cons]
    omega
  rw [place] at start stop
  obtain here | later := List.mem_append.mp member
  · have reach := Margin.stop_of_step indentation here
    have skipped : (m.skip spaces).pos.offset = m.pos.offset + size spaces :=
      Position.offset_advance _ _
    omega
  · exact ⟨l, later, start, stop⟩

/-- No piece of a straight source joins two lines. -/
theorem Straight.piece_ne (cut : pieceAt c (text ++ rest) = .ok (piece, text.length))
    (next : Scans (m'.after piece (c :: text) rest) rest ls) : piece ≠ .continuation := by
  rintro rfl
  obtain ⟨rfl, width⟩ := (Margin.pieceAt_line cut).2 rfl
  obtain ⟨l, member, start, stop⟩ := straight spaces (text ++ rest) rfl (by rw [width]; nofun)
  obtain here | later := List.mem_append.mp member
  · -- the only lexemes in front of the break are layout tokens, which are empty
    have layout' : l ∈ layout := by simpa [Margin.lexeme?] using here
    obtain ⟨kind, rfl, _⟩ := Margin.indentation_empty indentation l layout'
    have empty : ((m.skip spaces).layoutToken kind).stop.offset = m.pos.offset + size spaces :=
      Position.offset_advance m.pos spaces
    omega
  · have behind := next.offset_le later
    rw [Margin.offset_of_step indentation, Text.Utf8.size_cons] at behind
    have wide := Char.utf8Size_pos '\\'
    omega

end Step

/-! ## What stands behind the opening of a block -/

theorem opens_append {front ts : List Token} (none : ∀ t ∈ front, t.kind ≠ .indent)
    (opens : ts.IsChain Token.OpensOn) : (front ++ ts).IsChain Token.OpensOn := by
  induction front with
  | nil => exact opens
  | cons t front ih =>
      obtain ⟨first, others⟩ := List.forall_mem_cons.mp none
      exact (ih others).cons fun _ _ kind => absurd kind first

/-- No block is opened at the end of a source. -/
theorem Margin.finish_ne_indent (m : Margin) :
    ∀ t ∈ m.finish.filterMap token?, t.kind ≠ .indent := by
  intro t member
  rw [mem_tokens] at member
  simp only [finish, List.mem_append, List.mem_map, List.mem_singleton] at member
  obtain (newline | ⟨_, _, same⟩) | same := member
  · split at newline
    · cases newline
    · cases List.mem_singleton.mp newline
      simp [Token.mkAt]
  · cases same
    simp [Token.mkAt]
  · cases same
    simp [Token.mkAt]

/-- What is cut off a source opens no block. -/
theorem Margin.lexeme?_ne_indent {m : Margin} {piece : Piece} {text rest : List Char} {t : Token}
    (found : m.lexeme? piece text rest = some (.token t)) : t.kind ≠ .indent := by
  by_cases code : piece.isCode = true
  · rw [lexeme?_of_isCode code] at found
    cases found
    exact (ne_of_isInline (kindOf_isInline code text rest)).1
  · cases piece with
    | newline | continuation | comment =>
        simp only [lexeme?] at found
        (repeat' split at found) <;> cases found <;> simp [Token.mkAt]
    | string | number | word | operator => exact absurd rfl code

/-- A piece that begins a block is code, unless it joins two lines. -/
theorem code_of_content {c : Char} {rest : List Char} {piece : Piece} {more : Nat}
    (cut : pieceAt c rest = .ok (piece, more)) (content : ¬ (c = '\n' ∨ c = '#'))
    (joins : piece ≠ .continuation) : piece.isCode = true := by
  cases piece with
  | newline => exact absurd (.inl ((Margin.pieceAt_line cut).1 rfl).1) content
  | continuation => exact absurd rfl joins
  | comment => exact absurd (.inr (pieceAt_eq_comment cut).1) content
  | string | number | word | operator => rfl

/-- In a straight source each block opens on code. -/
theorem Scans.opens {m : Margin} {source : List Char} {ls : List Lexeme} (scans : Scans m source ls)
    (straight : Straight m.pos.offset source ls) : (ls.filterMap token?).IsChain Token.OpensOn := by
  induction scans with
  | @finish m spaces white =>
      simpa using opens_append (m.skip spaces).finish_ne_indent .nil
  | @step m m' spaces text rest c layout ls piece white solid indentation cut next ih =>
      have others : (((m'.lexeme? piece (c :: text) rest).toList.filterMap token?) ++
          ls.filterMap token?).IsChain Token.OpensOn := by
        refine opens_append (fun t member => ?_) (ih (straight.behind indentation))
        exact Margin.lexeme?_ne_indent (Option.mem_toList.mp (mem_tokens.mp member))
      rw [List.append_assoc, tokens_append, tokens_append]
      cases Margin.calls_of_indentation indentation with
      | within | idle | level => exact others
      | back =>
          refine opens_append (fun t member => ?_) others
          obtain ⟨_, _, same⟩ := List.mem_map.mp (mem_tokens.mp member)
          cases same
          nofun
      | deeper _ content =>
          have code := code_of_content cut content (straight.piece_ne indentation cut next)
          rw [lexeme?_of_isCode code] at others ⊢
          refine others.cons fun t member _ => ?_
          cases member
          exact Margin.kindOf_isInline code _ _

end Lexeme

end Starlark
