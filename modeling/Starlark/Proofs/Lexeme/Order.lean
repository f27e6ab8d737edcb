import Starlark.Proofs.Lexeme

/-!
# The order of tokens

Tokens stand in the source in the order in which they are given. The end
stands last, lines never go back, and a comment is the last thing on its line:
whatever follows it, other than the tokens that close lines and blocks, stands
on a later line (`Scans.ordered`).
-/

set_option autoImplicit false

namespace Starlark

/-- Moving over text does not go back to an earlier line. -/
theorem Position.line_le_advance (p : Position) (text : List Char) :
    p.line ≤ (p.advance text).line := by
  induction text generalizing p with
  | nil => simp
  | cons c text ih =>
      rw [advance_cons]
      refine Nat.le_trans ?_ (ih (p.next c))
      unfold next
      split <;> simp

/-- Whether tokens of a kind close lines or blocks. -/
def Token.Kind.closesLine : Token.Kind → Bool
  | .newline | .unindent | .eof => true
  | _ => false

/-- The first token may stand before the second one in a source. -/
structure Token.Precedes (s t : Token) : Prop where
  real : s.kind ≠ .eof
  line_le : s.pos.line ≤ t.pos.line
  line_lt : s.kind = .comment → t.kind.closesLine = false → s.pos.line < t.pos.line

/-- Tokens in one place stand in any order, as long as the first one is no
comment and not the end. -/
theorem Token.Precedes.of_pos {s t : Token} (real : s.kind ≠ .eof) (other : s.kind ≠ .comment)
    (here : s.pos = t.pos) : s.Precedes t :=
  ⟨real, Nat.le_of_eq (by rw [here]), fun comment => absurd comment other⟩

namespace Lexeme

namespace Margin

variable {m m' : Margin} {piece : Piece} {text rest : List Char}

/-! ## Places -/

/-- Comparing indentations does not move, and gives layout tokens only. -/
theorem indentation_eq_ok {c : Char} {layout : List Lexeme}
    (success : m.indentation c = .ok (layout, m')) :
    m'.pos = m.pos ∧ m'.depth = m.depth ∧ m'.behind = m.behind ∧
      ∀ l ∈ layout, l = m.layoutToken .indent ∨ l = m.layoutToken .unindent := by
  unfold indentation at success
  split at success
  · cases success
    simp
  split at success
  · cases success
    simp
  simp only at success
  split at success
  · cases success
    simp [layoutToken]
  split at success
  · split at success
    · cases success
      refine ⟨rfl, rfl, rfl, fun l member => .inr ?_⟩
      obtain ⟨_, _, rfl⟩ := List.mem_map.mp member
      rfl
    · cases success
  · cases success
    simp

/-- The end of a line calls for no layout tokens. -/
theorem layout_of_newline {layout : List Lexeme}
    (success : m.indentation '\n' = .ok (layout, m')) : layout = [] := by
  unfold indentation at success
  split at success
  · cases success
    rfl
  · rw [if_pos (.inl rfl)] at success
    cases success
    rfl

@[simp] theorem after_pos (m : Margin) (piece : Piece) (text rest : List Char) :
    (m.after piece text rest).pos = m.pos.advance text := by
  unfold after skip
  split <;> cases piece <;> rfl

/-- Only operators open and close brackets. -/
theorem after_depth (m : Margin) (piece : Piece) (text rest : List Char) :
    (m.after piece text rest).depth =
      if piece = .operator then depthAfter m.depth text else m.depth := by
  unfold after skip
  split <;> cases piece <;> rfl

/-- Only line ends begin a line. -/
theorem after_lineStart (m : Margin) (piece : Piece) (text rest : List Char) :
    (m.after piece text rest).lineStart =
      if piece = .newline then decide (m.depth = 0) else m.lineStart := by
  unfold after skip
  split <;> cases piece <;> rfl

@[simp] theorem after_indents (m : Margin) (piece : Piece) (text rest : List Char) :
    (m.after piece text rest).indents = m.indents := by
  unfold after skip
  split <;> cases piece <;> rfl

/-- A piece that is a token starts where the margin ends. -/
theorem lexeme?_pos {t : Token} (found : m.lexeme? piece text rest = some (.token t)) :
    t.pos = m.pos := by
  unfold lexeme? at found
  split at found <;> (repeat' split at found) <;> cases found <;> rfl

theorem wordKind_ne_comment (text rest : List Char) : wordKind text rest ≠ .comment := by
  unfold wordKind
  split
  · split <;> simp
  · simp
  · simp

theorem wordKind_ne_eof (text rest : List Char) : wordKind text rest ≠ .eof := by
  unfold wordKind
  split
  · split <;> simp
  · simp
  · simp

theorem operatorKind_cases (text : List Char) :
    operatorKind text = .augmented ∨ ∃ sign, operatorKind text = .symbol sign := by
  unfold operatorKind Token.Kind.ofOperator?
  split
  · exact .inr ⟨_, rfl⟩
  · split <;> exact .inl rfl

/-- No piece is the end of the source. -/
theorem lexeme?_ne_eof {t : Token} (found : m.lexeme? piece text rest = some (.token t)) :
    t.kind ≠ .eof := by
  unfold lexeme? at found
  split at found <;> (repeat' split at found) <;> cases found
  case h_6.refl => exact wordKind_ne_eof text rest
  case h_7.refl =>
    obtain kind | ⟨sign, kind⟩ := operatorKind_cases text <;> simp [Token.mkAt, kind]
  all_goals simp [Token.mkAt]

/-- Only comments are comment tokens. -/
theorem lexeme?_comment {t : Token} (found : m.lexeme? piece text rest = some (.token t))
    (kind : t.kind = .comment) : piece = .comment := by
  unfold lexeme? at found
  split at found <;> (repeat' split at found) <;> cases found
  case h_6.refl => exact absurd kind (wordKind_ne_comment text rest)
  case h_7.refl =>
    obtain same | ⟨sign, same⟩ := operatorKind_cases text <;> simp [Token.mkAt, same] at kind
  all_goals first | rfl | cases kind

end Margin

/-! ## What follows what -/

theorem tokens_append (ls ls' : List Lexeme) :
    (ls ++ ls').filterMap token? = ls.filterMap token? ++ ls'.filterMap token? :=
  List.filterMap_append

/-- The tokens of some lexemes are the tokens among them. -/
theorem mem_tokens {ls : List Lexeme} {t : Token} :
    t ∈ ls.filterMap token? ↔ Lexeme.token t ∈ ls := by
  rw [List.mem_filterMap]
  constructor
  · rintro ⟨l, member, same⟩
    cases l with
    | token s =>
        cases same
        exact member
    | lineComment c => cases same
    | suffixComment c => cases same
  · intro member
    exact ⟨_, member, rfl⟩

/-- Where the tokens of one step stand. -/
theorem Margin.token_of_step {m m' : Margin} {c : Char} {layout : List Lexeme} {piece : Piece}
    {text rest : List Char} (indentation : m.indentation c = .ok (layout, m')) {t : Token}
    (member : Lexeme.token t ∈ layout ++ (m'.lexeme? piece text rest).toList) :
    t.pos = m.pos ∧ t.kind ≠ .eof ∧ (t.kind = .comment → piece = .comment) := by
  obtain ⟨samePos, _, _, kinds⟩ := Margin.indentation_eq_ok indentation
  rw [List.mem_append, Option.mem_toList] at member
  obtain inLayout | found := member
  · obtain same | same := kinds _ inLayout <;> cases same <;>
      simp [Token.mkAt]
  · exact ⟨(Margin.lexeme?_pos found).trans samePos, Margin.lexeme?_ne_eof found,
      Margin.lexeme?_comment found⟩

/-- No token stands on a line before the margin's. -/
theorem Scans.line_le {m : Margin} {source : List Char} {ls : List Lexeme}
    (scans : Scans m source ls) {t : Token} (member : Lexeme.token t ∈ ls) :
    m.pos.line ≤ t.pos.line := by
  induction scans with
  | @finish m spaces white =>
      have here : t.pos = m.pos.advance spaces := by
        simp only [Margin.finish, List.mem_append, List.mem_map, List.mem_singleton] at member
        obtain (newline | ⟨_, _, unindent⟩) | eof := member
        · split at newline
          · cases newline
          · rw [List.mem_singleton] at newline
            cases newline
            rfl
        · cases unindent
          rfl
        · cases eof
          rfl
      rw [here]
      exact m.pos.line_le_advance spaces
  | @step m m' spaces text rest c layout ls piece white solid indentation cut next ih =>
      rw [List.mem_append] at member
      have before := m.pos.line_le_advance spaces
      obtain here | later := member
      · rw [(Margin.token_of_step indentation here).1]
        exact before
      · have after := ih later
        rw [Margin.after_pos, (Margin.indentation_eq_ok indentation).1] at after
        have within := (m.pos.advance spaces).line_le_advance (c :: text)
        exact Nat.le_trans before (Nat.le_trans within after)

theorem pieceAt_newline (rest : List Char) : pieceAt '\n' rest = .ok (.newline, 0) := rfl

/-- Only a comment sign starts a comment, and it goes on to the end of the line. -/
theorem pieceAt_eq_comment {c : Char} {rest : List Char} {more : Nat}
    (cut : pieceAt c rest = .ok (.comment, more)) : c = '#' ∧ more = commentExtent rest := by
  unfold pieceAt at cut
  split at cut
  · cases cut
  split at cut
  · split at cut <;> cases cut
  split at cut
  · cases cut
    exact ⟨‹c = '#'›, rfl⟩
  split at cut
  · obtain ⟨_, _, same⟩ := Outcome.map_eq_ok.mp cut
    cases same
  split at cut
  · cases cut
  split at cut
  · split at cut
    · split at cut
      · obtain ⟨_, _, same⟩ := Outcome.map_eq_ok.mp cut
        cases same
      · cases cut
    · cases cut
  · split at cut <;> cases cut

/-- A comment reaches up to the end of its line. -/
theorem rest_of_comment {c : Char} {text rest : List Char}
    (cut : pieceAt c (text ++ rest) = .ok (.comment, text.length)) :
    rest = [] ∨ ∃ more, rest = '\n' :: more := by
  obtain ⟨_, width⟩ := pieceAt_eq_comment cut
  have split : (text ++ rest).takeWhile (· != '\n') ++ (text ++ rest).dropWhile (· != '\n') =
      text ++ rest := List.takeWhile_append_dropWhile
  obtain ⟨_, left⟩ := List.append_inj split width.symm
  rw [← left]
  cases found : (text ++ rest).dropWhile (· != '\n') with
  | nil => exact .inl rfl
  | cons d more =>
      have head := @List.head_dropWhile_not _ (· != '\n') (text ++ rest) (by simp [found])
      simp only [found, List.head_cons, bne_eq_false_iff_eq] at head
      exact .inr ⟨more, by rw [head]⟩

/-- A comment stands on one line. -/
theorem newline_not_mem_of_comment {c : Char} {text rest : List Char}
    (cut : pieceAt c (text ++ rest) = .ok (.comment, text.length)) : '\n' ∉ c :: text := by
  obtain ⟨rfl, width⟩ := pieceAt_eq_comment cut
  have split : (text ++ rest).takeWhile (· != '\n') ++ (text ++ rest).dropWhile (· != '\n') =
      text ++ rest := List.takeWhile_append_dropWhile
  obtain ⟨taken, _⟩ := List.append_inj split width.symm
  intro member
  obtain first | inside := List.mem_cons.mp member
  · cases first
  · rw [← taken] at inside
    have other := List.mem_takeWhile_imp inside
    simp at other

/-- At the end of a line, the next piece is the line end. -/
theorem cut_newline {spaces text rest more : List Char} {c : Char} {piece : Piece}
    (white : spaces.all isSpace = true) (cut : pieceAt c (text ++ rest) = .ok (piece, text.length))
    (starts : spaces ++ c :: (text ++ rest) = '\n' :: more) :
    spaces = [] ∧ c = '\n' ∧ piece = .newline ∧ text = [] ∧ rest = more := by
  obtain ⟨rfl, rfl, rfl⟩ : spaces = [] ∧ c = '\n' ∧ text ++ rest = more := by
    cases spaces with
    | nil => simpa using starts
    | cons d spaces =>
        obtain ⟨rfl, _⟩ := List.cons.inj starts
        cases white
  rw [pieceAt_newline] at cut
  obtain ⟨rfl, width⟩ : Piece.newline = piece ∧ 0 = text.length := by simpa using cut
  obtain rfl := List.eq_nil_of_length_eq_zero width.symm
  exact ⟨rfl, rfl, rfl, rfl, rfl⟩

/-- At the end of a line, only tokens that close lines and blocks stand on that
line. -/
theorem Scans.line_lt {m : Margin} {source : List Char} {ls : List Lexeme}
    (scans : Scans m source ls) (ends : source = [] ∨ ∃ more, source = '\n' :: more)
    {t : Token} (member : Lexeme.token t ∈ ls) (open' : t.kind.closesLine = false) :
    m.pos.line < t.pos.line := by
  cases scans with
  | finish white =>
      simp only [Margin.finish, List.mem_append, List.mem_map, List.mem_singleton] at member
      obtain (newline | ⟨_, _, unindent⟩) | eof := member
      · split at newline
        · cases newline
        · rw [List.mem_singleton] at newline
          cases newline
          cases open'
      · cases unindent
        cases open'
      · cases eof
        cases open'
  | @step _ m' spaces text rest c layout ls piece white solid indentation cut next =>
      obtain empty | ⟨more, starts⟩ := ends
      · simp at empty
      obtain ⟨rfl, rfl, rfl, rfl, rfl⟩ := cut_newline white cut starts
      have here : m'.pos = m.pos := (Margin.indentation_eq_ok indentation).1
      rw [Margin.layout_of_newline indentation, List.nil_append, List.mem_append,
        Option.mem_toList] at member
      obtain newline | later := member
      · rw [Margin.lexeme?] at newline
        split at newline
        · cases newline
          cases open'
        · cases newline
      · have after := next.line_le later
        rw [Margin.after_pos, here] at after
        exact after

/-- Tokens that all may precede each other stand in order. -/
theorem ordered_of_mem {ts : List Token} (each : ∀ s ∈ ts, ∀ t ∈ ts, s.Precedes t) :
    ts.Pairwise Token.Precedes := by
  rw [List.pairwise_iff_forall_sublist]
  intro s t pair
  exact each s (pair.subset (by simp)) t (pair.subset (by simp))

/-- The tokens that end a source stand in order. -/
theorem Margin.finish_ordered (m : Margin) :
    (m.finish.filterMap token?).Pairwise Token.Precedes := by
  let front := (if m.afterNewline then [] else [m.layoutToken .newline]) ++
    m.indents.map fun _ => m.layoutToken .unindent
  have closing : ∀ t ∈ front.filterMap token?,
      t.pos = m.pos ∧ t.kind ≠ .eof ∧ t.kind ≠ .comment := by
    intro t member
    rw [mem_tokens, List.mem_append, List.mem_map] at member
    obtain newline | ⟨_, _, unindent⟩ := member
    · split at newline
      · cases newline
      · rw [List.mem_singleton] at newline
        cases newline
        simp [Token.mkAt]
    · cases unindent
      simp [Token.mkAt]
  have precedes : ∀ s ∈ front.filterMap token?, ∀ t : Token, t.pos = m.pos → s.Precedes t := by
    intro s member t here
    obtain ⟨place, real, other⟩ := closing s member
    exact .of_pos real other (place.trans here.symm)
  show ((front ++ [m.layoutToken .eof]).filterMap token?).Pairwise Token.Precedes
  rw [tokens_append, List.pairwise_append]
  refine ⟨ordered_of_mem fun s hs t ht => precedes s hs t (closing t ht).1,
    List.pairwise_singleton _ _, ?_⟩
  intro s hs t ht
  rw [mem_tokens, List.mem_singleton] at ht
  cases ht
  exact precedes s hs _ rfl

/-- The tokens of a source stand in order. -/
theorem Scans.ordered {m : Margin} {source : List Char} {ls : List Lexeme}
    (scans : Scans m source ls) : (ls.filterMap token?).Pairwise Token.Precedes := by
  induction scans with
  | finish => exact Margin.finish_ordered _
  | @step m m' spaces text rest c layout ls piece white solid indentation cut next ih =>
      have here := (Margin.indentation_eq_ok indentation).1
      rw [tokens_append, List.pairwise_append]
      refine ⟨?_, ih, ?_⟩
      · have layouts : ∀ s ∈ layout.filterMap token?, ∀ t : Token,
            t.pos = (m.skip spaces).pos → s.Precedes t := by
          intro s hs t there
          rw [mem_tokens] at hs
          obtain same | same := (Margin.indentation_eq_ok indentation).2.2.2 _ hs <;> cases same <;>
            exact .of_pos (by simp [Token.mkAt]) (by simp [Token.mkAt]) there.symm
        have places : ∀ {t : Token},
            t ∈ (layout ++ (m'.lexeme? piece (c :: text) rest).toList).filterMap token? →
            t.pos = (m.skip spaces).pos :=
          fun ht => (Margin.token_of_step indentation (mem_tokens.mp ht)).1
        rw [tokens_append] at places ⊢
        rw [List.pairwise_append]
        refine ⟨ordered_of_mem fun s hs t ht => layouts s hs t (places (List.mem_append_left _ ht)),
          ?_, fun s hs t ht => layouts s hs t (places (List.mem_append_right _ ht))⟩
        cases m'.lexeme? piece (c :: text) rest with
        | none => exact .nil
        | some l =>
            cases l with
            | token t => exact List.pairwise_singleton _ _
            | lineComment c => exact .nil
            | suffixComment c => exact .nil
      · intro s hs t ht
        rw [mem_tokens] at hs ht
        obtain ⟨place, real, comment⟩ := Margin.token_of_step indentation hs
        have after := next.line_le ht
        rw [Margin.after_pos, here] at after
        have within := (m.skip spaces).pos.line_le_advance (c :: text)
        refine ⟨real, by rw [place]; exact Nat.le_trans within after, fun kind open' => ?_⟩
        obtain rfl := comment kind
        have later := next.line_lt (rest_of_comment cut) ht open'
        rw [Margin.after_pos, here] at later
        rw [place]
        exact Nat.lt_of_le_of_lt within later

/-- Scanning ends with the end of the source. -/
theorem Scans.exists_eof {m : Margin} {source : List Char} {ls : List Lexeme}
    (scans : Scans m source ls) : ∃ t, token t ∈ ls ∧ t.kind = .eof := by
  induction scans with
  | @finish m spaces white => exact ⟨_, List.mem_append_right _ (List.mem_singleton_self _), rfl⟩
  | step _ _ _ _ _ ih =>
      obtain ⟨t, member, kind⟩ := ih
      exact ⟨t, List.mem_append_right _ member, kind⟩

end Lexeme

end Starlark
