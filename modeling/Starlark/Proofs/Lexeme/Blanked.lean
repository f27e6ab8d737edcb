import Starlark.Proofs.Hushed
import Starlark.Proofs.Lexeme.Levels
import Starlark.Proofs.Lexeme.Lookahead

/-!
# Sources with blanks in the place of comments

`blanked` puts a blank in the place of every byte from some offsets on, up to the
ends of their lines. If these are the offsets of the comments of a source, then
scanning the result gives no comments, and its tokens are those of the source,
hushed (`Mutes.scans`).

The two scans run side by side. Their margins differ in what they note of the
present line, and directly behind a comment in the column, in whether the line
has begun, and in the last token; at the end of that line they agree again.
-/

set_option autoImplicit false

namespace Starlark

open Text.Utf8 (size)

namespace Lexeme

/-! ## Blanks in the place of comments -/

/-- A text with blanks from each of some offsets to the end of its line, one for each byte.
`offset` is the offset of the text, and `inside` says that the blanks go on at its front. -/
def blanked (starts : List Nat) : Nat → Bool → List Char → List Char
  | _, _, [] => []
  | offset, inside, c :: rest =>
    let inside := c != '\n' && (inside || starts.contains offset)
    (if inside then List.replicate c.utf8Size ' ' else [c]) ++
      blanked starts (offset + c.utf8Size) inside rest

section Blanked

variable {starts : List Nat} {offset : Nat}

/-- Text in which no comment starts is kept. -/
theorem blanked_append {text : List Char} (rest : List Char)
    (clear : ∀ o ∈ starts, offset ≤ o → offset + size text ≤ o) :
    blanked starts offset false (text ++ rest) =
      text ++ blanked starts (offset + size text) false rest := by
  induction text generalizing offset with
  | nil => simp
  | cons c text ih =>
      have wide := c.utf8Size_pos
      have here : starts.contains offset = false := by
        rw [List.contains_eq_mem, decide_eq_false_iff_not]
        intro member
        have bound := clear offset member (Nat.le_refl _)
        rw [Text.Utf8.size_cons] at bound
        omega
      have beyond :
          ∀ o ∈ starts, offset + c.utf8Size ≤ o → offset + c.utf8Size + size text ≤ o := by
        intro o member beyond
        have bound := clear o member (by omega)
        rw [Text.Utf8.size_cons] at bound
        omega
      have later := ih beyond
      simp only [List.cons_append, blanked, here, Bool.or_false, Bool.and_false, later,
        Text.Utf8.size_cons, Nat.add_assoc]
      rfl

/-- The text of a comment turns into as many blanks as it has bytes. -/
theorem blanked_inside {text : List Char} (rest : List Char) (line : '\n' ∉ text) :
    blanked starts offset true (text ++ rest) =
      List.replicate (size text) ' ' ++ blanked starts (offset + size text) true rest := by
  induction text generalizing offset with
  | nil => simp
  | cons c text ih =>
      obtain ⟨here, later⟩ := not_or.mp (mt List.mem_cons.mpr line)
      simp only [List.cons_append, blanked, bne_iff_ne.mpr (Ne.symm here), Bool.true_or,
        Bool.and_true, if_true, ih later, Text.Utf8.size_cons, Nat.add_assoc,
        List.replicate_add, List.append_assoc]

/-- A comment turns into blanks, up to the end of its line. -/
theorem blanked_comment {c : Char} {text rest : List Char} (starts' : offset ∈ starts)
    (line : '\n' ∉ c :: text) (ends : rest = [] ∨ ∃ more, rest = '\n' :: more) :
    blanked starts offset false (c :: (text ++ rest)) =
      List.replicate (size (c :: text)) ' ' ++
        blanked starts (offset + size (c :: text)) false rest := by
  have first : blanked starts offset false (c :: (text ++ rest)) =
      blanked starts offset true (c :: (text ++ rest)) := by
    simp [blanked, starts']
  have last : blanked starts (offset + size (c :: text)) true rest =
      blanked starts (offset + size (c :: text)) false rest := by
    obtain rfl | ⟨more, rfl⟩ := ends
    · rfl
    · simp [blanked]
  rw [first, ← last]
  exact blanked_inside rest line

example : blanked [2] 0 false "a #é\nb".toList = "a    \nb".toList := by decide

end Blanked

/-! ## Scanning a source with blanks -/

/-- The lexemes of a source behind a margin, and the source with blanks in the place of its
comments. -/
inductive Mutes : Margin → List Char → List Lexeme → List Char → Prop
  | finish {m : Margin} {spaces : List Char} (white : spaces.all isSpace = true) :
      Mutes m spaces (m.skip spaces).finish spaces
  | keep {m m' : Margin} {spaces text rest rest' : List Char} {c : Char} {layout ls : List Lexeme}
      {piece : Piece} (white : spaces.all isSpace = true) (solid : isSpace c = false)
      (indentation : (m.skip spaces).indentation c = .ok (layout, m'))
      (cut : pieceAt c (text ++ rest) = .ok (piece, text.length)) (other : piece ≠ .comment)
      (next : Mutes (m'.after piece (c :: text) rest) rest ls rest') :
      Mutes m (spaces ++ c :: (text ++ rest))
        (layout ++ (m'.lexeme? piece (c :: text) rest).toList ++ ls)
        (spaces ++ c :: (text ++ rest'))
  | comment {m m' : Margin} {spaces text rest rest' : List Char} {c : Char}
    {layout ls : List Lexeme}
      (white : spaces.all isSpace = true)
      (indentation : (m.skip spaces).indentation c = .ok (layout, m'))
      (cut : pieceAt c (text ++ rest) = .ok (.comment, text.length))
      (next : Mutes (m'.after .comment (c :: text) rest) rest ls rest') :
      Mutes m (spaces ++ c :: (text ++ rest))
        (layout ++ (m'.lexeme? .comment (c :: text) rest).toList ++ ls)
        (spaces ++ (List.replicate (size (c :: text)) ' ' ++ rest'))

/-- The offsets are those of the comments among some lexemes, apart from smaller ones. -/
structure Marks (starts : List Nat) (offset : Nat) (ls : List Lexeme) : Prop where
  all : ∀ l ∈ ls, l.isComment = true → l.start.offset ∈ starts
  only : ∀ o ∈ starts, offset ≤ o → ∃ l ∈ ls, l.isComment = true ∧ l.start.offset = o

/-- A lexeme starts at the margin, and comments come of comments only. -/
theorem Margin.lexeme?_start {m : Margin} {piece : Piece} {text rest : List Char} {l : Lexeme}
    (found : m.lexeme? piece text rest = some l) :
    l.start = m.pos ∧ (l.isComment = true ↔ piece = .comment) := by
  have word : wordKind text rest ≠ .comment := wordKind_ne_comment text rest
  have operator : operatorKind text ≠ .comment := by
    obtain same | ⟨sign, same⟩ := operatorKind_cases text <;> rw [same] <;> nofun
  unfold lexeme? at found
  cases piece with
  | newline | comment =>
      simp only at found
      (repeat' split at found) <;> cases found <;> exact ⟨rfl, by simp [isComment, Token.mkAt]⟩
  | continuation => cases found
  | string | number => cases found; exact ⟨rfl, by simp [isComment, Token.mkAt]⟩
  | word => cases found; exact ⟨rfl, by simp [isComment, Token.mkAt, word]⟩
  | operator => cases found; exact ⟨rfl, by simp [isComment, Token.mkAt, operator]⟩

theorem Margin.isSome_lexeme?_comment (m : Margin) (text rest : List Char) :
    ∃ l, m.lexeme? .comment text rest = some l := by
  simp only [lexeme?]
  split
  · exact ⟨_, rfl⟩
  · split <;> exact ⟨_, rfl⟩

/-- Where the lexemes of one step start, and whether they are comments. -/
theorem Margin.lexeme_of_step {m m' : Margin} {c : Char} {layout : List Lexeme} {piece : Piece}
    {text rest : List Char} (indentation : m.indentation c = .ok (layout, m')) {l : Lexeme}
    (member : l ∈ layout ++ (m'.lexeme? piece text rest).toList) :
    l.start = m.pos ∧ (l.isComment = true → piece = .comment) := by
  obtain ⟨samePos, _, _, kinds⟩ := indentation_eq_ok indentation
  obtain before | found := List.mem_append.mp member
  · obtain rfl | rfl := kinds l before <;> exact ⟨rfl, by simp [isComment, layoutToken, Token.mkAt]⟩
  · obtain ⟨start, comment⟩ := lexeme?_start (Option.mem_toList.mp found)
    exact ⟨start.trans samePos, comment.mp⟩

/-- No comment is made at the end of a source. -/
theorem Margin.isComment_finish (m : Margin) : ∀ l ∈ m.finish, l.isComment = false := by
  intro l member
  simp only [finish, List.mem_append, List.mem_map, List.mem_singleton] at member
  obtain (newline | ⟨_, _, rfl⟩) | rfl := member
  · split at newline
    · cases newline
    · rw [List.mem_singleton] at newline
      rw [newline]
      rfl
  · rfl
  · rfl

/-- Lexemes start at the margin or behind it. -/
theorem Scans.offset_le {m : Margin} {source : List Char} {ls : List Lexeme}
    (scans : Scans m source ls) {l : Lexeme} (member : l ∈ ls) : m.pos.offset ≤ l.start.offset := by
  induction scans with
  | @finish m spaces white =>
      obtain ⟨kind, rfl, _⟩ := Margin.finish_empty l member
      show m.pos.offset ≤ (m.pos.advance spaces).offset
      rw [Position.offset_advance]
      omega
  | @step m m' spaces text rest c layout ls piece white solid indentation cut next ih =>
      obtain here | later := List.mem_append.mp member
      · rw [(Margin.lexeme_of_step indentation here).1]
        show m.pos.offset ≤ (m.pos.advance spaces).offset
        rw [Position.offset_advance]
        omega
      · have after := ih later
        rw [Margin.after_pos, (Margin.indentation_eq_ok indentation).1, Position.offset_advance]
          at after
        have before : (m.skip spaces).pos.offset = m.pos.offset + size spaces :=
          Position.offset_advance _ _
        omega

/-- Scanning a source tells where to put blanks. -/
theorem Scans.mutes {starts : List Nat} {m : Margin} {source : List Char} {ls : List Lexeme}
    (scans : Scans m source ls) (marks : Marks starts m.pos.offset ls) :
    Mutes m source ls (blanked starts m.pos.offset false source) := by
  induction scans with
  | @finish m spaces white =>
      have clear : ∀ o ∈ starts, m.pos.offset ≤ o → m.pos.offset + size spaces ≤ o := by
        intro o member beyond
        obtain ⟨l, inside, comment, _⟩ := marks.only o member beyond
        rw [Margin.isComment_finish _ l inside] at comment
        cases comment
      have none := blanked_append [] clear
      rw [List.append_nil, blanked, List.append_nil] at none
      rw [none]
      exact .finish white
  | @step m m' spaces text rest c layout ls piece white solid indentation cut next ih =>
      have here : (m.skip spaces).pos.offset = m.pos.offset + size spaces :=
        Position.offset_advance _ _
      have there : (m'.after piece (c :: text) rest).pos.offset =
          m.pos.offset + size spaces + size (c :: text) := by
        rw [Margin.after_pos, (Margin.indentation_eq_ok indentation).1,
          Position.offset_advance, here]
      have wide : 0 < size (c :: text) := by
        have wide := c.utf8Size_pos
        rw [Text.Utf8.size_cons]
        omega
      -- a marked offset is that of this piece, if it is a comment, or lies behind it
      have later {o : Nat} (member : o ∈ starts) (beyond : m.pos.offset ≤ o) :
          o = m.pos.offset + size spaces ∧ piece = .comment ∨
            (m'.after piece (c :: text) rest).pos.offset ≤ o ∧
              ∃ l ∈ ls, l.isComment = true ∧ l.start.offset = o := by
        obtain ⟨l, inside, comment, same⟩ := marks.only o member beyond
        obtain own | other := List.mem_append.mp inside
        · obtain ⟨start, kind⟩ := Margin.lexeme_of_step indentation own
          exact .inl ⟨by rw [← same, start, here], kind comment⟩
        · exact .inr ⟨same ▸ next.offset_le other, l, other, comment, same⟩
      have marks' : Marks starts (m'.after piece (c :: text) rest).pos.offset ls := by
        refine ⟨fun l member => marks.all l (List.mem_append_right _ member), ?_⟩
        intro o member beyond
        obtain ⟨same, _⟩ | ⟨_, found⟩ := later member (by omega)
        · omega
        · exact found
      have rest' := ih marks'
      rw [there] at rest'
      have front : ∀ o ∈ starts, m.pos.offset ≤ o → m.pos.offset + size spaces ≤ o := by
        intro o member beyond
        obtain ⟨_, _⟩ | ⟨bound, _⟩ := later member beyond <;> omega
      rw [blanked_append (c :: (text ++ rest)) front]
      by_cases comment : piece = .comment
      · subst comment
        obtain ⟨l, found⟩ := m'.isSome_lexeme?_comment (c :: text) rest
        obtain ⟨start, kind⟩ := Margin.lexeme?_start found
        have marked := marks.all l (by simp [found]) (kind.mpr rfl)
        rw [start, (Margin.indentation_eq_ok indentation).1, here] at marked
        rw [blanked_comment marked (newline_not_mem_of_comment cut) (rest_of_comment cut)]
        exact .comment white indentation cut rest'
      · have clear : ∀ o ∈ starts, m.pos.offset + size spaces ≤ o →
            m.pos.offset + size spaces + size (c :: text) ≤ o := by
          intro o member beyond
          obtain ⟨_, kind⟩ | ⟨bound, _⟩ := later member (by omega)
          · exact absurd kind comment
          · omega
        have code := blanked_append rest clear
        rw [List.cons_append, List.cons_append] at code
        rw [code]
        exact .keep white solid indentation cut comment rest'

/-- The text behind some white space starts with a parenthesis. -/
def OpensParen (text : List Char) : Prop :=
  (text.dropWhile fun c => c == ' ' || c == '\t').head? = some '('

/-- White space in front makes no difference to a parenthesis behind it. -/
theorem opensParen_append {spaces text text' : List Char} (white : spaces.all isSpace = true)
    (same : OpensParen text ↔ OpensParen text') :
    OpensParen (spaces ++ text) ↔ OpensParen (spaces ++ text') := by
  induction spaces with
  | nil => exact same
  | cons c spaces ih =>
      rw [List.all_cons, Bool.and_eq_true] at white
      by_cases blank : (c == ' ' || c == '\t') = true
      · simpa [OpensParen, List.dropWhile_cons, blank] using ih white.2
      · simp [OpensParen, blank]

theorem Margin.wordKind_congr {text rest rest' : List Char}
    (same : OpensParen rest ↔ OpensParen rest') :
    wordKind text rest = wordKind text rest' := by
  unfold wordKind
  split
  · simp only [OpensParen] at same
    simp only [same]
  · rfl
  · rfl

/-- Blanking a source changes its first character only from a comment sign to a blank. -/
theorem Mutes.head {m : Margin} {source source' : List Char} {ls : List Lexeme}
    (mutes : Mutes m source ls source') :
    source'.head? = source.head? ∨ source.head? = some '#' ∧ source'.head? = some ' ' := by
  cases mutes with
  | finish => exact .inl rfl
  | @keep m m' spaces => cases spaces <;> exact .inl rfl
  | @comment m m' spaces text rest rest' c layout ls white indentation cut =>
      obtain ⟨rfl, _⟩ := pieceAt_eq_comment cut
      cases spaces with
      | nil =>
          refine .inr ⟨rfl, ?_⟩
          rw [Text.Utf8.size_cons, show '#'.utf8Size = 1 from rfl, Nat.add_comm,
            List.replicate_succ]
          rfl
      | cons d spaces => exact .inl rfl

/-- Blanking a source neither makes nor hides a parenthesis at its front. -/
theorem Mutes.opensParen {m : Margin} {source source' : List Char} {ls : List Lexeme}
    (mutes : Mutes m source ls source') : OpensParen source ↔ OpensParen source' := by
  cases mutes with
  | finish => exact Iff.rfl
  | @keep m m' spaces text rest rest' c layout ls piece white solid =>
      refine opensParen_append white ?_
      have other : (c == ' ' || c == '\t') = false := by
        simp only [isSpace, Bool.or_eq_false_iff] at solid
        simp [solid]
      simp [OpensParen, other]
  | @comment m m' spaces text rest rest' c layout ls white indentation cut next =>
      refine opensParen_append white ?_
      obtain ⟨rfl, _⟩ := pieceAt_eq_comment cut
      -- neither a comment nor the end of its line is a parenthesis
      have blanks :
          OpensParen (List.replicate (size ('#' :: text)) ' ' ++ rest') ↔ OpensParen rest' := by
        rw [OpensParen, List.dropWhile_append_of_pos (by simp), OpensParen]
      have ends : rest'.head? = none ∨ rest'.head? = some '\n' := by
        obtain same | ⟨starts, _⟩ := next.head
        · obtain rfl | ⟨more, rfl⟩ := rest_of_comment cut
          · exact .inl same
          · exact .inr same
        · obtain rfl | ⟨more, rfl⟩ := rest_of_comment cut <;> cases starts
      have closed : ¬ OpensParen rest' := by
        obtain none | line := ends
        · rw [List.head?_eq_none_iff.mp none]
          simp [OpensParen]
        · obtain ⟨more, rfl⟩ := List.head?_eq_some_iff.mp line
          simp [OpensParen]
      rw [blanks]
      exact iff_of_false (by simp [OpensParen]) closed

/-! ## Margins behind blanks -/

namespace Margin

variable {m m' n : Margin} {piece : Piece} {text rest rest' : List Char}

/-- What a margin notes of its line counts for comments only. -/
theorem indentation_noting {c : Char} {layout : List Lexeme}
    (success : m.indentation c = .ok (layout, m')) (b : List Char) :
    ({ m with behind := b } : Margin).indentation c = .ok (layout, { m' with behind := b }) := by
  have noted : ({ m with behind := b } : Margin).indentation c =
      (m.indentation c).map (Prod.map id fun m' => { m' with behind := b }) := by
    have inside {p : Prop} [Decidable p] (f : List Lexeme × Margin → List Lexeme × Margin)
        (x y : Except Fault (List Lexeme × Margin)) :
        (if p then x else y).map f = if p then x.map f else y.map f := apply_ite _ _ _ _
    simp only [indentation, inside]
    rfl
  rw [noted, success]
  rfl

theorem lexeme?_noting (other : piece ≠ .comment) (same : OpensParen rest ↔ OpensParen rest')
    (b : List Char) :
    ({ m with behind := b } : Margin).lexeme? piece text rest' = m.lexeme? piece text rest := by
  cases piece with
  | comment => exact absurd rfl other
  | word => rw [lexeme?, lexeme?, wordKind_congr same]
  | _ => rfl

theorem after_noting (other : piece ≠ .comment) (same : OpensParen rest ↔ OpensParen rest')
    (b : List Char) :
    ({ m with behind := b } : Margin).after piece text rest' =
      { m.after piece text rest with behind := passed b text } := by
  unfold after
  rw [lexeme?_noting other same]
  split <;> cases piece <;> rfl

/-- A margin behind a comment, and one behind the blanks in its place. -/
structure Past (n m : Margin) : Prop where
  line : n.pos.line = m.pos.line
  offset : n.pos.offset = m.pos.offset
  indents : n.indents = m.indents
  depth : n.depth = m.depth
  begun : m.lineStart = false
  ended : m.afterNewline = true → n.afterNewline = true
  inside : 0 < m.depth → n.afterNewline = m.afterNewline

theorem eq_noting (pos : n.pos = m.pos) (indents : n.indents = m.indents)
    (depth : n.depth = m.depth)
    (lineStart : n.lineStart = m.lineStart) (ended : n.afterNewline = m.afterNewline) :
    n = { m with behind := n.behind } := by
  obtain ⟨_, _, _, _, _, _⟩ := n
  obtain ⟨_, _, _, _, _, _⟩ := m
  simp_all

theorem indentation_of_begun (begun : m.lineStart = false) {c : Char} :
    m.indentation c = .ok ([], m) := if_pos (by rw [begun]; rfl)

/-- A line that holds nothing, or nothing but a comment, calls for no tokens. -/
theorem indentation_of_empty {c : Char} (empty : c = '\n' ∨ c = '#') :
    m.indentation c = .ok ([], { m with lineStart := false }) := by
  rw [indentation]
  by_cases begun : (!m.lineStart) = true
  · rw [if_pos begun]
    obtain ⟨_, _, _, lineStart, _, _⟩ := m
    obtain rfl : lineStart = false := by simpa using begun
    rfl
  · rw [if_neg begun]
    exact if_pos empty

/-- Behind the end of the line the two agree again. -/
theorem Past.newline (past : Past n m) (rest rest' : List Char) :
    ∃ b, ({ n with lineStart := false } : Margin).after .newline ['\n'] rest' =
      { m.after .newline ['\n'] rest with behind := b } := by
  refine ⟨_, eq_noting ?_ ?_ ?_ ?_ ?_⟩
  · rw [after_pos, after_pos, Position.advance_cons, Position.advance_cons]
    simp [Position.next, past.line, past.offset]
  · rw [after_indents, after_indents, past.indents]
  · simp only [after_depth, past.depth]
  · simp [after_lineStart, past.depth]
  · rw [after_afterNewline, after_afterNewline]
    by_cases outside : m.depth = 0
    · simp [lexeme?, past.depth, outside, token?, Token.mkAt]
    · simpa [lexeme?, past.depth, outside] using past.inside (Nat.pos_of_ne_zero outside)

/-- A comment that is no token leaves the last token as it is. -/
theorem after_comment_afterNewline (m : Margin) (text rest : List Char) :
    (m.after .comment text rest).afterNewline = m.afterNewline ∨
      (m.after .comment text rest).afterNewline = false ∧ m.depth = 0 := by
  rw [after_afterNewline]
  by_cases follows : m.followsCode = true
  · exact .inl (by simp [lexeme?, follows, token?])
  by_cases outside : m.depth = 0
  · exact .inr ⟨by simp [lexeme?, follows, outside, token?, Token.mkAt], outside⟩
  · exact .inl (by simp [lexeme?, follows, outside, token?])

/-- Whether the last of some tokens is a line end, given whether one stands before them. -/
def endsLine (a : Bool) (ls : List Lexeme) : Bool :=
  (ls.filterMap token?).foldl (fun _ t => t.kind == .newline) a

theorem endsLine_append (a : Bool) (ls ls' : List Lexeme) :
    endsLine a (ls ++ ls') = endsLine (endsLine a ls) ls' := by
  rw [endsLine, tokens_append, List.foldl_append]
  rfl

/-- After the layout of a line the margin knows whether a line end came last. -/
theorem endsLine_indentation {c : Char} {layout : List Lexeme}
    (success : m.indentation c = .ok (layout, m')) :
    endsLine m.afterNewline layout = m'.afterNewline := by
  cases calls_of_indentation success with
  | within | idle | level | deeper => rfl
  | @back closed still _ _ _ some' _ =>
      have closing : ∀ widths : List Nat,
          endsLine false (widths.map fun _ => m.layoutToken .unindent) = false := by
        intro widths
        induction widths with
        | nil => rfl
        | cons w widths ih => exact ih
      obtain ⟨w, closed, rfl⟩ := List.exists_cons_of_ne_nil some'
      exact closing closed

theorem endsLine_after (m : Margin) (piece : Piece) (text rest : List Char) :
    endsLine m.afterNewline (m.lexeme? piece text rest).toList =
      (m.after piece text rest).afterNewline := by
  rw [after_afterNewline]
  cases m.lexeme? piece text rest with
  | none => rfl
  | some l => cases l <;> rfl

end Margin

/-- A part of two rows of lexemes that is the same in both. -/
theorem hushed_append {a b : Bool} {front ls ls' : List Lexeme}
    (code : ∀ l ∈ front, l.isComment = false)
    (rest : Hushed .still (Margin.endsLine a front) (ls.filterMap token?)
      (ls'.filterMap token?) b) :
    Hushed .still a ((front ++ ls).filterMap token?) ((front ++ ls').filterMap token?) b := by
  induction front generalizing a with
  | nil => exact rest
  | cons l front ih =>
      obtain ⟨here, others⟩ := List.forall_mem_cons.mp code
      cases l with
      | token t =>
          have kind : t.kind ≠ .comment := by simpa [isComment] using here
          have more : Hushed .still (t.kind == .newline) ((front ++ ls).filterMap token?)
            ((front ++ ls').filterMap token?) b := ih others rest
          by_cases inline : t.kind.isInline = true
          · have within : (t.kind == .newline) = false := by
              rw [beq_eq_false_iff_ne]
              intro newline
              rw [newline] at inline
              cases inline
            rw [within] at more
            exact .inline inline more
          · exact .layout (eq_false_of_ne_true inline) kind rfl more
      | lineComment c | suffixComment c => cases here

/-- The tokens at the end of a source. -/
theorem Margin.hushed_finish {n m : Margin} (indents : n.indents = m.indents)
    (ended : m.afterNewline = true → n.afterNewline = true) :
    ∃ b, Hushed .still n.afterNewline (m.finish.filterMap token?)
      (n.finish.filterMap token?) b := by
  have closing : ∀ (widths : List Nat) (a : Bool), ∃ b, Hushed .still a
      ((widths.map (fun _ => m.layoutToken .unindent) ++ [m.layoutToken .eof]).filterMap token?)
      ((widths.map (fun _ => n.layoutToken .unindent) ++ [n.layoutToken .eof]).filterMap token?)
        b := by
    intro widths
    induction widths with
    | nil => exact fun a => ⟨false, .layout rfl nofun rfl .done⟩
    | cons w widths ih =>
        intro a
        obtain ⟨b, rest⟩ := ih false
        exact ⟨b, .layout rfl nofun rfl rest⟩
  unfold finish
  rw [indents]
  by_cases last : n.afterNewline = true
  · obtain ⟨b, rest⟩ := closing m.indents true
    refine ⟨b, ?_⟩
    rw [last]
    split
    · exact rest
    · exact .blank rfl rest
  · obtain ⟨b, rest⟩ := closing m.indents true
    refine ⟨b, ?_⟩
    rw [if_neg (mt ended last), if_neg last]
    exact .layout rfl nofun rfl rest

theorem Position.line_advance_of_not_mem {p : Position} {text : List Char} (line : '\n' ∉ text) :
    (p.advance text).line = p.line := by
  induction text generalizing p with
  | nil => rfl
  | cons c text ih =>
      obtain ⟨here, later⟩ := not_or.mp (mt List.mem_cons.mpr line)
      rw [Position.advance_cons, ih later, Position.next, if_neg (Ne.symm here)]

theorem Margin.skip_append (m : Margin) (text text' : List Char) :
    m.skip (text ++ text') = (m.skip text).skip text' := by
  simp [skip, Position.advance_append, passed]

theorem size_blanks (count : Nat) : size (List.replicate count ' ') = count := by
  induction count with
  | zero => rfl
  | succ count ih =>
      rw [List.replicate_succ, Text.Utf8.size_cons, ih, show ' '.utf8Size = 1 from rfl,
        Nat.add_comm]

/-- Passing the blanks in the place of a comment leads where the comment leads. -/
theorem Margin.past_comment {n m : Margin} {b blanks text : List Char}
    (same : n.skip blanks = { m with behind := b }) (spaces : List Char) (line : '\n' ∉ text)
    (rest : List Char) :
    (n.skip (blanks ++ (spaces ++ List.replicate (size text) ' '))).Past
      (({ m.skip spaces with lineStart := false } : Margin).after .comment text rest) := by
  rw [skip_append, skip_append, same]
  have last :=
    after_comment_afterNewline ({ m.skip spaces with lineStart := false } : Margin) text rest
  constructor
  · rw [after_pos]
    show ((m.pos.advance spaces).advance _).line = ((m.pos.advance spaces).advance text).line
    rw [Position.line_advance_of_not_mem line, Position.line_advance_of_not_mem]
    intro member
    cases List.eq_of_mem_replicate member
  · rw [after_pos]
    show ((m.pos.advance spaces).advance _).offset = ((m.pos.advance spaces).advance text).offset
    rw [Position.offset_advance, Position.offset_advance _ text, size_blanks]
  · rw [after_indents]
    rfl
  · rw [after_depth, if_neg (by nofun)]
    rfl
  · rw [after_lineStart, if_neg (by nofun)]
  · intro ended
    obtain kept | ⟨gone, _⟩ := last
    · exact kept.symm.trans ended
    · rw [gone] at ended
      cases ended
  · intro inside
    obtain kept | ⟨_, outside⟩ := last
    · exact kept.symm
    · rw [after_depth, if_neg (by nofun)] at inside
      exact absurd outside (Nat.pos_iff_ne_zero.mp inside)

/-- The lexemes of a source with blanks in the place of its comments. -/
theorem Mutes.scans {m : Margin} {source source' : List Char} {ls : List Lexeme}
    (mutes : Mutes m source ls source') : ∀ {n : Margin} {blanks : List Char},
      blanks.all isSpace = true →
      ((∃ b, n.skip blanks = { m with behind := b }) ∨
        (n.skip blanks).Past m ∧ (source = [] ∨ ∃ more, source = '\n' :: more)) →
      ∃ ls' b, Scans n (blanks ++ source') ls' ∧ (∀ l ∈ ls', l.isComment = false) ∧
        Hushed .still n.afterNewline (ls.filterMap token?) (ls'.filterMap token?) b := by
  induction mutes with
  | @finish m spaces white =>
      intro n blanks white' state
      have all : (blanks ++ spaces).all isSpace = true := by
        rw [List.all_append, white', white]; rfl
      have ends : (n.skip blanks).indents = m.indents ∧
          (m.afterNewline = true → (n.skip blanks).afterNewline = true) := by
        obtain ⟨b, same⟩ | ⟨past, _⟩ := state
        · rw [same]
          exact ⟨rfl, id⟩
        · exact ⟨past.indents, past.ended⟩
      have hushed : ∃ b, Hushed .still (n.skip (blanks ++ spaces)).afterNewline
          ((m.skip spaces).finish.filterMap token?)
          ((n.skip (blanks ++ spaces)).finish.filterMap token?) b :=
        Margin.hushed_finish ends.1 ends.2
      obtain ⟨b, hushed⟩ := hushed
      exact ⟨_, b, .finish all, Margin.isComment_finish _, hushed⟩
  | @keep m m' spaces text rest rest' c layout ls piece white solid indentation cut other next ih =>
      intro n blanks white' state
      obtain ⟨b, same⟩ | ⟨past, ends⟩ := state
      · have all : (blanks ++ spaces).all isSpace = true := by
          rw [List.all_append, white', white]; rfl
        have here : n.skip (blanks ++ spaces) =
            { m.skip spaces with behind := Margin.passed b spaces } := by
          rw [Margin.skip_append, same]
          rfl
        have ended : (n.skip (blanks ++ spaces)).afterNewline = (m.skip spaces).afterNewline := by
          rw [here]
        have indentation' := Margin.indentation_noting indentation (Margin.passed b spaces)
        rw [← here] at indentation'
        have after' := @Margin.after_noting m' piece (c :: text) rest rest' other next.opensParen
          (Margin.passed b spaces)
        obtain ⟨ls', f, scans, none, hushed⟩ := @ih (Margin.after _ piece (c :: text) rest') [] rfl
          (.inl ⟨_, after'⟩)
        have step := Scans.step all solid indentation'
          (pieceAt_of_head other (next.head.imp_right And.right) cut) scans
        rw [Margin.lexeme?_noting other next.opensParen] at step
        have code :
            ∀ l ∈ layout ++ (m'.lexeme? piece (c :: text) rest).toList, l.isComment = false := by
          intro l member
          rw [Bool.eq_false_iff]
          exact fun comment => other ((Margin.lexeme_of_step indentation member).2 comment)
        refine ⟨_, f, by simpa using step, ?_, hushed_append code ?_⟩
        · exact fun l member => (List.mem_append.mp member).elim (code l) (none l)
        · show Hushed .still (Margin.endsLine (n.skip (blanks ++ spaces)).afterNewline _) _ _ f
          rw [ended, Margin.endsLine_append, Margin.endsLine_indentation indentation,
            Margin.endsLine_after]
          rwa [after'] at hushed
      · obtain none | ⟨more, starts⟩ := ends
        · simp at none
        obtain ⟨rfl, rfl, rfl, rfl, rfl⟩ := cut_newline white cut starts
        have begun : (m.skip []).indentation '\n' = .ok ([], m) :=
          Margin.indentation_of_begun past.begun
        rw [begun] at indentation
        cases indentation
        obtain ⟨b, after'⟩ := past.newline rest rest'
        obtain ⟨ls', f, scans, none, hushed⟩ := @ih (Margin.after _ .newline ['\n'] rest') [] rfl
          (.inl ⟨_, after'⟩)
        have cut' : pieceAt '\n' ([] ++ rest') = .ok (.newline, ([] : List Char).length) := rfl
        have step := Scans.step white' solid (Margin.indentation_of_empty (.inl rfl)) cut' scans
        refine ⟨_, f, step, ?_, ?_⟩
        · intro l member
          obtain here | later := List.mem_append.mp member
          · rw [Bool.eq_false_iff]
            exact fun comment => other ((Margin.lexeme_of_step
              (Margin.indentation_of_empty (.inl rfl)) here).2 comment)
          · exact none l later
        · have ended := Margin.after_afterNewline
            ({ n.skip blanks with lineStart := false } : Margin) .newline ['\n'] rest'
          by_cases outside : m.depth = 0
          · have first : m.lexeme? .newline ['\n'] rest =
                some (.token (.mkAt .newline m.pos ['\n'])) := if_pos outside
            have second :
                ({ n.skip blanks with lineStart := false } : Margin).lexeme? .newline ['\n']
                rest' = some (.token (.mkAt .newline (n.skip blanks).pos ['\n'])) :=
              if_pos (past.depth.trans outside)
            rw [second] at ended
            rw [ended] at hushed
            rw [first, second]
            exact .layout rfl nofun rfl hushed
          · have first : m.lexeme? .newline ['\n'] rest = Option.none := if_neg outside
            have second :
                ({ n.skip blanks with lineStart := false } : Margin).lexeme? .newline ['\n']
                rest' = Option.none := if_neg fun closed => outside (past.depth.symm.trans closed)
            rw [second] at ended
            rw [ended] at hushed
            rw [first, second]
            exact hushed
  | @comment m m' spaces text rest rest' c layout ls white indentation cut next ih =>
      intro n blanks white' state
      obtain ⟨b, same⟩ | ⟨past, ends⟩ := state
      · obtain ⟨rfl, _⟩ := pieceAt_eq_comment cut
        rw [Margin.indentation_of_empty (.inr rfl)] at indentation
        cases indentation
        have all :
            (blanks ++ (spaces ++ List.replicate (size ('#' :: text)) ' ')).all isSpace = true := by
          simp only [List.all_append, white', white, Bool.true_and, List.all_eq_true]
          intro d member
          rw [List.eq_of_mem_replicate member]
          rfl
        have past : (n.skip (blanks ++ (spaces ++ List.replicate (size ('#' :: text)) ' '))).Past
            (({ m.skip spaces with lineStart := false } : Margin).after .comment
              ('#' :: text) rest) :=
          Margin.past_comment same spaces (newline_not_mem_of_comment cut) rest
        obtain ⟨ls', f, scans, none, hushed⟩ := ih all (.inr ⟨past, rest_of_comment cut⟩)
        refine ⟨ls', f, by simpa using scans, none, ?_⟩
        obtain ⟨l, found⟩ := Margin.isSome_lexeme?_comment
          ({ m.skip spaces with lineStart := false } : Margin) ('#' :: text) rest
        have kind := (Margin.lexeme?_start found).2.mpr rfl
        rw [found]
        cases l with
        | token t => exact .comment (by simpa [isComment] using kind) hushed
        | lineComment | suffixComment => exact hushed
      · obtain none | ⟨more, starts⟩ := ends
        · simp at none
        · obtain ⟨_, _, kind, _⟩ := cut_newline white cut starts
          cases kind

end Lexeme

end Starlark
