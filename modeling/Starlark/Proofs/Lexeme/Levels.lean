import Starlark.Proofs.Lexeme.Tiling
import Starlark.Proofs.Word

/-!
# Levels of blocks

Layout tokens say where lines end and where blocks open and close. Read from
the left they keep three accounts: the columns of the blocks that are open
(`columnsOf`), the number of open brackets (`bracketsOf`), and, until the first
token of a line has been read, the place where the line begins (`lineOf`).

`Fits source front t` says what a token needs of these accounts behind the
tokens `front`. A margin keeps the same accounts for the scan (`Margin.Follows`),
so every token that a scan gives fits behind those before it (`Scans.fitting`).
What holds of a whole row of tokens (`Leveled`) is read off from that.
-/

set_option autoImplicit false

namespace Starlark

open Text.Utf8 (size)

namespace Position

/-- Columns are counted from one. -/
theorem column_pos_advance {p : Position} (first : 0 < p.column) (text : List Char) :
    0 < (p.advance text).column := by
  induction text generalizing p with
  | nil => exact first
  | cons c text ih =>
      refine ih ?_
      unfold next
      split
      · exact Nat.one_pos
      · exact Nat.succ_pos _

/-- Two beginnings of one source that reach the same place are the same. -/
theorem eq_of_advance_eq {before after before' after' : List Char}
    (split : before ++ after = before' ++ after')
    (same : origin.advance before = origin.advance before') :
    before = before' ∧ after = after' := by
  have bytes : size before = size before' := by
    rw [← offset_origin_advance, ← offset_origin_advance, same]
  have empty : ∀ text : List Char, size text = 0 → text = [] := by
    intro text nothing
    cases text with
    | nil => rfl
    | cons c text =>
        have positive := c.utf8Size_pos
        rw [Text.Utf8.size_cons] at nothing
        omega
  obtain ⟨extra, rfl, rfl⟩ | ⟨extra, rfl, rfl⟩ := List.append_eq_append_iff.mp split
  · obtain rfl := empty extra (by rw [Text.Utf8.size_append] at bytes; omega)
    simp
  · obtain rfl := empty extra (by rw [Text.Utf8.size_append] at bytes; omega)
    simp

end Position

namespace Token

/-! ## The accounts of a row of tokens -/

/-- The columns of the open blocks behind one more token. -/
def columnsBehind (columns : List Nat) (t : Token) : List Nat :=
  match t.kind with
  | .indent => t.pos.column :: columns
  | .unindent => columns.tail
  | _ => columns

/-- The columns of the blocks that some tokens leave open, innermost first. The
source itself is a block in the first column. -/
def columnsOf (ts : List Token) : List Nat := ts.foldl columnsBehind [1]

/-- The number of brackets that some tokens leave open. -/
def bracketsOf (ts : List Token) : Nat := Lexeme.depthOf (ts.map .token)

/-- Where the line begins whose first token is still to come, behind one more
token. -/
def lineBehind (line : Option Position) (t : Token) : Option Position :=
  match t.kind with
  | .newline => some t.stop
  | .indent | .unindent => line
  | _ => none

/-- Where the line begins whose first token comes behind some tokens, if one
begins there. -/
def lineOf (ts : List Token) : Option Position := ts.foldl lineBehind (some .origin)

/-- The kind of the last token. -/
def lastKind (ts : List Token) : Option Kind := ts.getLast?.map Token.kind

/-- How many tokens open a block. -/
def opened (ts : List Token) : Nat := ts.countP (·.kind = .indent)

/-- How many tokens close a block. -/
def closed (ts : List Token) : Nat := ts.countP (·.kind = .unindent)

section Accounts

variable (front : List Token) (t : Token)

theorem columnsOf_concat : columnsOf (front ++ [t]) = columnsBehind (columnsOf front) t := by
  simp [columnsOf]

theorem lineOf_concat : lineOf (front ++ [t]) = lineBehind (lineOf front) t := by
  simp [lineOf]

theorem bracketsOf_concat :
    bracketsOf (front ++ [t]) = Lexeme.depthBehind (bracketsOf front) (.token t) := by
  simp [bracketsOf, Lexeme.depthOf]

@[simp] theorem lastKind_concat : lastKind (front ++ [t]) = some t.kind := by
  simp [lastKind]

end Accounts

/-- A line that begins with a backslash, which joins it to the next one. -/
def Joined (line : List Char) : Prop := (line.dropWhile Lexeme.isSpace).head? = some '\\'

theorem joined_append {spaces rest : List Char} (white : spaces.all Lexeme.isSpace = true) :
    Joined (spaces ++ '\\' :: rest) := by
  unfold Joined
  rw [Lexeme.dropWhile_space white (by decide)]
  rfl

/-! ## Rows in which every token fits -/

/-- What a token of a source needs of the tokens in front of it. -/
structure Fits (source : List Char) (front : List Token) (t : Token) : Prop where
  opens : t.kind = .indent →
    (front = [] ∨ lastKind front = some .newline) ∧ (columnsOf front).headD 1 < t.pos.column
  closes : t.kind = .unindent →
    (lastKind front = some .newline ∨ lastKind front = some .unindent) ∧
      1 < (columnsOf front).length
  /-- Inside brackets, only the tokens that close the source are no code. -/
  outside : t.kind.isInline = false →
    bracketsOf front = 0 ∨ t.pos = Position.origin.advance source ∧ t.text = ""
  /-- The first token of a line stands in the column of the innermost block. -/
  aligned : t.kind.isInline = true → ∀ before line, source = before ++ line →
    lineOf front = some (Position.origin.advance before) → ¬ Joined line →
      (columnsOf front).head? = some t.pos.column

/-- The end of a line, a comment and the end of a source need no more than a
place outside brackets. -/
theorem Fits.of_line {source : List Char} {front : List Token} {t : Token}
    (line : t.kind = .newline ∨ t.kind = .comment ∨ t.kind = .eof)
    (outside : bracketsOf front = 0 ∨ t.pos = Position.origin.advance source ∧ t.text = "") :
    Fits source front t where
  opens kind := by simp [kind] at line
  closes kind := by simp [kind] at line
  outside _ := outside
  aligned code := by
    rcases line with kind | kind | kind <;> simp [kind, Token.Kind.isInline] at code

/-- Tokens that all fit behind those in front of them. -/
def Fitting (source : List Char) : List Token → List Token → Prop
  | _, [] => True
  | front, t :: ts => Fits source front t ∧ Fitting source (front ++ [t]) ts

theorem fitting_append {source : List Char} {front ts us : List Token} :
    Fitting source front (ts ++ us) ↔
      Fitting source front ts ∧ Fitting source (front ++ ts) us := by
  induction ts generalizing front with
  | nil => simp [Fitting]
  | cons t ts ih => simp [Fitting, ih, and_assoc]

theorem Fitting.fits {source : List Char} {front ts us : List Token} {t : Token}
    (fitting : Fitting source front (ts ++ t :: us)) : Fits source (front ++ ts) t :=
  (fitting_append.mp fitting).2.1

/-- The accounts of the open blocks are in order: the columns grow inwards, and
there is one for the source and one for each block that is open. -/
structure Even (front : List Token) : Prop where
  growing : (columnsOf front).Pairwise (· > ·)
  counted : closed front + (columnsOf front).length = opened front + 1
  open' : 0 < (columnsOf front).length

theorem even_nil : Even [] := ⟨by simp [columnsOf], rfl, Nat.one_pos⟩

/-- A token that fits leaves the accounts in order. -/
theorem Even.concat {source : List Char} {front : List Token} {t : Token} (even : Even front)
    (fits : Fits source front t) : Even (front ++ [t]) := by
  obtain ⟨growing, counted, open'⟩ := even
  have opens : opened (front ++ [t]) = opened front + if t.kind = .indent then 1 else 0 := by
    simp [opened, List.countP_append]
  have closes : closed (front ++ [t]) = closed front + if t.kind = .unindent then 1 else 0 := by
    simp [closed, List.countP_append]
  have columns := columnsOf_concat front t
  unfold columnsBehind at columns
  split at columns
  next kind =>
    obtain ⟨_, deeper⟩ := fits.opens kind
    rw [kind] at opens closes
    constructor
    · rw [columns]
      cases stack : columnsOf front with
      | nil => simp
      | cons column outer =>
          rw [stack] at deeper growing
          rw [List.headD_cons] at deeper
          refine List.pairwise_cons.mpr ⟨fun other member => ?_, growing⟩
          obtain rfl | inside := List.mem_cons.mp member
          · exact deeper
          · exact Nat.lt_trans ((List.pairwise_cons.mp growing).1 other inside) deeper
    · rw [columns, opens, closes, List.length_cons]
      simp only [reduceCtorEq, if_false, if_true]
      omega
    · rw [columns]
      exact Nat.succ_pos _
  next kind =>
    obtain ⟨_, more⟩ := fits.closes kind
    rw [kind] at opens closes
    constructor
    · rw [columns]
      exact growing.tail
    · rw [columns, opens, closes, List.length_tail]
      simp only [reduceCtorEq, if_false, if_true]
      omega
    · rw [columns, List.length_tail]
      omega
  next noIndent noUnindent =>
    rw [if_neg noIndent] at opens
    rw [if_neg noUnindent] at closes
    exact ⟨columns ▸ growing, by rw [columns, opens, closes]; exact counted, columns ▸ open'⟩

theorem Fitting.even {source : List Char} {front ts : List Token}
    (fitting : Fitting source front ts)
    (even : Even front) : Even (front ++ ts) := by
  induction ts generalizing front with
  | nil => simpa using even
  | cons t ts ih => simpa using ih fitting.2 (even.concat fitting.1)

/-- A row of tokens that ends as a source does: with the end of a line, the ends
of the blocks that are open, and the end itself. -/
structure Closing (body : List Token) (line : Token) (levels : List Token) (last : Token) :
    Prop where
  isNewline : line.kind = .newline
  areUnindents : ∀ t ∈ levels, t.kind = .unindent
  isEof : last.kind = .eof
  /-- One block end for each column but that of the source. -/
  counted : levels.length + 1 = (columnsOf body).length

/-- The tokens that close a source close every block that is open. -/
theorem Closing.balanced {body levels : List Token} {line last : Token}
    (closing : Closing body line levels last) (even : Even body) :
    opened (body ++ line :: (levels ++ [last])) = closed (body ++ line :: (levels ++ [last])) := by
  obtain ⟨isNewline, areUnindents, isEof, counted⟩ := closing
  have openings : opened levels = 0 := by
    refine List.countP_eq_zero.mpr fun t member => ?_
    simp [areUnindents t member]
  have closings : closed levels = levels.length := by
    refine List.countP_eq_length.mpr fun t member => ?_
    simp [areUnindents t member]
  have account := even.counted
  unfold opened at openings
  unfold closed at closings
  simp only [opened, closed, List.countP_append, List.countP_cons, List.countP_nil,
    isNewline, isEof, openings, closings, reduceCtorEq, decide_false] at account ⊢
  omega

end Token

namespace Lexeme

open Token (columnsOf bracketsOf lineOf lastKind Fits Fitting fitting_append Joined Closing)

/-! ## What the first character of a line calls for -/

/-- The layout tokens that a character calls for, and the margin behind them. -/
inductive Margin.Calls (m : Margin) (c : Char) : List Lexeme → Margin → Prop
  /-- No line begins here. -/
  | within (begun : m.lineStart = false) : Calls m c [] m
  /-- An empty line, or one with nothing but a comment. -/
  | idle (starts : m.lineStart = true) (empty : c = '\n' ∨ c = '#') :
      Calls m c [] { m with lineStart := false }
  | level (starts : m.lineStart = true) (code : ¬ (c = '\n' ∨ c = '#'))
      (aligned : m.width = m.pos.column - 1) : Calls m c [] { m with lineStart := false }
  | deeper (starts : m.lineStart = true) (code : ¬ (c = '\n' ∨ c = '#'))
      (deeper : m.width < m.pos.column - 1) :
      Calls m c [m.layoutToken .indent]
        { m with lineStart := false, indents := (m.pos.column - 1) :: m.indents,
                 afterNewline := false }
  | back {closed still : List Nat} (starts : m.lineStart = true) (code : ¬ (c = '\n' ∨ c = '#'))
      (split : m.indents = closed ++ still) (some' : closed ≠ [])
      (aligned : still.headD 0 = m.pos.column - 1) :
      Calls m c (closed.map fun _ => m.layoutToken .unindent)
        { m with lineStart := false, indents := still, afterNewline := false }

/-- The layout that is given for a character is the one that it calls for. -/
theorem Margin.calls_of_indentation {m m' : Margin} {c : Char} {layout : List Lexeme}
    (success : m.indentation c = .ok (layout, m')) : m.Calls c layout m' := by
  unfold indentation at success
  split at success
  next begun =>
    cases success
    exact .within (by simpa using begun)
  next starts =>
    rw [Bool.not_eq_true', Bool.not_eq_false] at starts
    split at success
    next empty =>
      cases success
      exact .idle starts empty
    next code =>
      simp only at success
      split at success
      next deeper =>
        cases success
        exact .deeper starts code deeper
      next notDeeper =>
        split at success
        next shallower =>
          split at success
          next aligned =>
            cases success
            refine .back starts code List.takeWhile_append_dropWhile.symm ?_ aligned
            intro none
            have width : m.width = m.indents.headD 0 := rfl
            change m.pos.column - 1 < m.width at shallower
            cases stack : m.indents with
            | nil => simp [width, stack] at shallower
            | cons w outer =>
                rw [width, stack, List.headD_cons] at shallower
                simp [stack, shallower] at none
          next => cases success
        next notShallower =>
          cases success
          exact .level starts code
            (Nat.le_antisymm (Nat.not_lt.mp notShallower) (Nat.not_lt.mp notDeeper))

/-! ## Margins keep the accounts -/

/-- A margin agrees with the accounts of a row of tokens. -/
structure Margin.Keeps (m : Margin) (front : List Token) : Prop where
  depth : m.depth = bracketsOf front
  columns : columnsOf front = m.indents.map (· + 1) ++ [1]
  ended : m.afterNewline = true ↔ lastKind front = some .newline

/-- A margin stands behind a part of a source and the tokens of that part. -/
structure Margin.Follows (source before : List Char) (m : Margin) (front : List Token) : Prop
    extends m.Keeps front where
  pos : m.pos = Position.origin.advance before
  starts : m.lineStart = true →
    m.depth = 0 ∧ m.behind = [] ∧ (front = [] ∨ lastKind front = some .newline) ∧
      ∃ above spaces, before = above ++ spaces ∧ spaces.all isSpace = true ∧
        lineOf front = some (Position.origin.advance above)
  /-- A line that has begun and has no token yet begins with a backslash. -/
  begun : m.lineStart = false → ∀ above line, source = above ++ line →
    lineOf front = some (Position.origin.advance above) → Joined line

/-- A margin stands in front of a character, behind the layout tokens that the
character calls for. -/
structure Margin.Awaits (source before : List Char) (c : Char) (m : Margin)
    (front : List Token) : Prop
    extends m.Keeps front where
  pos : m.pos = Position.origin.advance before
  begun : m.lineStart = false
  first : ∀ above line, source = above ++ line →
    lineOf front = some (Position.origin.advance above) →
      Joined line ∨ m.depth = 0 ∧ m.behind = [] ∧ c ≠ '\\' ∧
        (¬ (c = '\n' ∨ c = '#') → (columnsOf front).head? = some m.pos.column)

namespace Margin

variable {source before : List Char} {m m' : Margin} {front : List Token}

theorem Keeps.head (keeps : m.Keeps front) : (columnsOf front).head? = some (m.width + 1) := by
  rw [keeps.columns, width]
  cases m.indents <;> rfl

theorem follows_initial (source : List Char) : initial.Follows source [] [] where
  depth := rfl
  columns := rfl
  ended := by simp [initial, lastKind]
  pos := rfl
  starts _ := ⟨rfl, rfl, .inl rfl, [], [], rfl, rfl, rfl⟩
  begun starts := nomatch starts

/-- White space is not noted as something before a place. -/
theorem passed_spaces {spaces : List Char} (white : spaces.all isSpace = true)
    (behind : List Char) :
    passed behind spaces = behind := by
  induction spaces with
  | nil => rfl
  | cons c spaces ih =>
      rw [List.all_cons, Bool.and_eq_true] at white
      have blank : c ≠ '\n' ∧ Text.isBlank c = true := by
        have space := white.1
        simp only [isSpace, Bool.or_eq_true, beq_iff_eq] at space
        rcases space with (rfl | rfl) | rfl <;> decide
      have step : passed behind (c :: spaces) = passed behind spaces := by simp [passed, blank]
      rw [step, ih white.2]

/-- White space moves the margin on and adds no token. -/
theorem Follows.skip (follows : m.Follows source before front) {spaces : List Char}
    (white : spaces.all isSpace = true) :
    (m.skip spaces).Follows source (before ++ spaces) front where
  depth := follows.depth
  columns := follows.columns
  ended := follows.ended
  pos := by
    rw [Position.advance_append, ← follows.pos]
    rfl
  starts lineStart := by
    obtain ⟨depth, behind, last, above, others, rfl, blank, line⟩ := follows.starts lineStart
    refine ⟨depth, ?_, last, above, others ++ spaces, by simp, by simp [blank, white], line⟩
    exact (passed_spaces white _).trans behind
  begun := follows.begun

/-! ## Layout tokens fit -/

theorem bracketsOf_layout (front : List Token) {kind : Token.Kind}
    (plain : ∀ sign, kind ≠ .symbol sign)
    (pos : Position) : bracketsOf (front ++ [.mkAt kind pos []]) = bracketsOf front := by
  rw [Token.bracketsOf_concat]
  exact depthBehind_mkAt _ plain _ _

/-- The ends of some blocks, one for each width. -/
def unindents (pos : Position) (widths : List Nat) : List Token :=
  widths.map fun _ => .mkAt .unindent pos []

theorem tokens_unindents (m : Margin) (widths : List Nat) :
    (widths.map fun _ => m.layoutToken .unindent).filterMap token? = unindents m.pos widths := by
  induction widths with
  | nil => rfl
  | cons w widths ih => exact congrArg _ ih

/-- The ends of blocks fit behind the end of a line, as long as there are blocks
to close. -/
theorem fitting_unindents {closed still : List Nat} {pos : Position}
    (columns : columnsOf front = (closed ++ still).map (· + 1) ++ [1])
    (last : lastKind front = some .newline ∨ lastKind front = some .unindent)
    (outside : bracketsOf front = 0 ∨ pos = Position.origin.advance source) :
    Fitting source front (unindents pos closed) ∧
      columnsOf (front ++ unindents pos closed) = still.map (· + 1) ++ [1] ∧
      bracketsOf (front ++ unindents pos closed) = bracketsOf front ∧
      lineOf (front ++ unindents pos closed) = lineOf front ∧
      (closed ≠ [] → lastKind (front ++ unindents pos closed) = some .unindent) := by
  induction closed generalizing front with
  | nil =>
      rw [show unindents pos [] = [] from rfl, List.append_nil]
      exact ⟨trivial, columns, rfl, rfl, fun some' => absurd rfl some'⟩
  | cons w closed ih =>
      let t : Token := .mkAt .unindent pos []
      have brackets : bracketsOf (front ++ [t]) = bracketsOf front :=
        bracketsOf_layout _ (by simp) _
      have line : lineOf (front ++ [t]) = lineOf front := Token.lineOf_concat _ _
      have popped : columnsOf (front ++ [t]) = (closed ++ still).map (· + 1) ++ [1] := by
        rw [Token.columnsOf_concat, columns]
        rfl
      have fits : Fits source front t := by
        refine ⟨nofun, fun _ => ⟨last, ?_⟩, fun _ => outside.imp id fun ends => ⟨ends, rfl⟩, nofun⟩
        rw [columns]
        simp
      obtain ⟨fitting, columns', brackets', line', last'⟩ :=
        ih popped (.inr (Token.lastKind_concat _ _)) (by rwa [brackets])
      rw [List.append_assoc] at columns' brackets' line' last'
      refine ⟨⟨fits, fitting⟩, columns', brackets'.trans brackets, line'.trans line, fun _ => ?_⟩
      by_cases more : closed = []
      · subst more
        exact Token.lastKind_concat _ _
      · exact last' more

/-- The layout tokens that a character calls for fit. -/
theorem Follows.calls (follows : m.Follows source before front) {c : Char} {layout : List Lexeme}
    (calls : m.Calls c layout m') {rest : List Char} (split : source = before ++ c :: rest) :
    Fitting source front (layout.filterMap token?) ∧
      m'.Awaits source before c (front ++ layout.filterMap token?) := by
  have positive : 0 < m.pos.column := by
    rw [follows.pos]
    exact Position.column_pos_advance Nat.one_pos before
  -- where a line begins, `c` is its first character
  have first : m.lineStart = true → ∀ above line, source = above ++ line →
      lineOf front = some (Position.origin.advance above) → c = '\\' → Joined line := by
    rintro starts above line whole same rfl
    obtain ⟨_, _, _, above', spaces, rfl, white, place⟩ := follows.starts starts
    have cut : above' ++ (spaces ++ '\\' :: rest) = above ++ line := by
      rw [← whole, split, List.append_assoc]
    obtain ⟨_, rfl⟩ := Position.eq_of_advance_eq cut (Option.some.inj (place.symm.trans same))
    exact Token.joined_append white
  have opened : ∀ {front' : List Token}, m.lineStart = true → lineOf front' = lineOf front →
      (¬ (c = '\n' ∨ c = '#') → (columnsOf front').head? = some m.pos.column) →
      ∀ above line, source = above ++ line →
        lineOf front' = some (Position.origin.advance above) →
          Joined line ∨ m.depth = 0 ∧ m.behind = [] ∧ c ≠ '\\' ∧
            (¬ (c = '\n' ∨ c = '#') → (columnsOf front').head? = some m.pos.column) := by
    intro front' starts sameLine aligned above line whole place
    obtain ⟨depth, behind, _⟩ := follows.starts starts
    by_cases slash : c = '\\'
    · exact .inl (first starts above line whole (sameLine.symm.trans place) slash)
    · exact .inr ⟨depth, behind, slash, aligned⟩
  cases calls with
  | within begun =>
      refine ⟨trivial, ?_⟩
      rw [List.filterMap_nil, List.append_nil]
      exact ⟨follows.toKeeps, follows.pos, begun,
        fun above line whole place => .inl (follows.begun begun above line whole place)⟩
  | idle starts empty =>
      refine ⟨trivial, ?_⟩
      rw [List.filterMap_nil, List.append_nil]
      exact ⟨⟨follows.depth, follows.columns, follows.ended⟩, follows.pos, rfl,
        opened starts rfl fun code => absurd empty code⟩
  | level starts code aligned =>
      refine ⟨trivial, ?_⟩
      rw [List.filterMap_nil, List.append_nil]
      refine ⟨⟨follows.depth, follows.columns, follows.ended⟩, follows.pos, rfl,
        opened starts rfl fun _ => ?_⟩
      rw [follows.head, aligned, Nat.sub_add_cancel positive]
  | deeper starts code deeper =>
      obtain ⟨depth, _, last, _⟩ := follows.starts starts
      have pushed := Token.columnsOf_concat front (.mkAt .indent m.pos [])
      refine ⟨⟨⟨fun _ => ⟨last, ?_⟩, nofun, fun _ => .inl (follows.depth.symm.trans depth), nofun⟩,
        trivial⟩, ⟨?_, ?_, ?_⟩, follows.pos, rfl,
        opened starts (Token.lineOf_concat _ _) fun _ => ?_⟩
      · show (columnsOf front).headD 1 < m.pos.column
        rw [List.headD_eq_head?_getD, follows.head]
        show m.width + 1 < m.pos.column
        omega
      · exact follows.depth.trans (bracketsOf_layout front (by simp) m.pos).symm
      · show columnsOf (front ++ [.mkAt .indent m.pos []]) = _
        rw [pushed, follows.columns, List.map_cons, Nat.sub_add_cancel positive]
        rfl
      · show false = true ↔ lastKind (front ++ [.mkAt .indent m.pos []]) = _
        rw [Token.lastKind_concat]
        simp [Token.mkAt]
      · show (columnsOf (front ++ [.mkAt .indent m.pos []])).head? = _
        rw [pushed]
        rfl
  | @back closed still starts code split some' aligned =>
      obtain ⟨depth, _, last, _⟩ := follows.starts starts
      have columns := follows.columns
      rw [split] at columns
      have newline : lastKind front = some .newline := by
        refine last.resolve_left ?_
        -- nothing but the source is open in front of the first token
        rintro rfl
        cases closed with
        | nil => exact some' rfl
        | cons w closed =>
            have lengths := congrArg List.length columns
            simp [columnsOf] at lengths
      obtain ⟨fitting, columns', depth', line', last'⟩ :=
        fitting_unindents columns (.inl newline) (.inl (follows.depth.symm.trans depth))
      rw [tokens_unindents]
      refine ⟨fitting, ⟨follows.depth.trans depth'.symm, columns', ?_⟩, follows.pos, rfl,
        opened starts line' fun _ => ?_⟩
      · rw [last' some']
        simp
      · rw [columns']
        cases still with
        | nil =>
            have here : 0 = m.pos.column - 1 := aligned
            show some 1 = _
            congr 1
            omega
        | cons w still =>
            have here : w = m.pos.column - 1 := aligned
            show some (w + 1) = _
            congr 1
            omega

/-! ## Pieces of the source fit -/

theorem wordKind_ne_symbol (text rest : List Char) (sign : Symbol) :
    wordKind text rest ≠ .symbol sign := by
  unfold wordKind
  split
  · split <;> simp
  · simp
  · simp

/-- The margin behind a token counts the brackets that the token opens or closes. -/
theorem depthBehind_lexeme {piece : Piece} {text rest : List Char} {t : Token}
    (found : m.lexeme? piece text rest = some (.token t)) :
    depthBehind m.depth (.token t) = (m.after piece text rest).depth := by
  rw [after_depth]
  cases piece with
  | operator =>
      cases found
      exact depthBehind_operator _ _ _
  | word =>
      cases found
      exact depthBehind_mkAt _ (wordKind_ne_symbol text rest) _ _
  | string | number =>
      cases found
      exact depthBehind_mkAt _ (by simp) _ _
  | continuation => cases found
  | newline | comment =>
      simp only [lexeme?] at found
      (repeat' split at found) <;> cases found
      exact depthBehind_mkAt _ (by simp) _ _

/-- The margin notes whether the last token was a line end. -/
theorem after_afterNewline (m : Margin) (piece : Piece) (text rest : List Char) :
    (m.after piece text rest).afterNewline =
      match (m.lexeme? piece text rest).bind token? with
      | some t => decide (t.kind = .newline)
      | none => m.afterNewline := by
  unfold after
  cases m.lexeme? piece text rest with
  | none => cases piece <;> rfl
  | some l => cases l <;> cases piece <;> rfl

/-- A piece that is no token leaves the accounts as they are. -/
theorem Awaits.silent {c : Char} (awaits : m.Awaits source before c front) {piece : Piece}
    {text rest : List Char} (silent : (m.lexeme? piece text rest).bind token? = none)
    (other : piece ≠ .operator) (inside : piece = .newline → m.depth ≠ 0)
    (joined : ∀ above line, source = above ++ line →
      lineOf front = some (Position.origin.advance above) → Joined line) :
    (m.after piece text rest).Follows source (before ++ text) front where
  depth := by
    rw [after_depth, if_neg other]
    exact awaits.depth
  columns := by
    rw [after_indents]
    exact awaits.columns
  ended := by
    rw [after_afterNewline, silent]
    exact awaits.ended
  pos := by rw [after_pos, awaits.pos, Position.advance_append]
  starts lineStart := by
    rw [after_lineStart, awaits.begun] at lineStart
    split at lineStart
    next newline => exact absurd (of_decide_eq_true lineStart) (inside newline)
    next => cases lineStart
  begun _ := joined

/-- The margin behind a token keeps the accounts. -/
theorem Awaits.keeps {c : Char} (awaits : m.Awaits source before c front) {piece : Piece}
    {text rest : List Char} {t : Token} (found : m.lexeme? piece text rest = some (.token t))
    (level : t.kind ≠ .indent ∧ t.kind ≠ .unindent) :
    (m.after piece text rest).Keeps (front ++ [t]) where
  depth := by
    rw [← depthBehind_lexeme found, Token.bracketsOf_concat, awaits.depth]
  columns := by
    rw [after_indents, Token.columnsOf_concat, ← awaits.columns]
    unfold Token.columnsBehind
    split
    next kind => exact absurd kind level.1
    next kind => exact absurd kind level.2
    next => rfl
  ended := by
    rw [after_afterNewline, found, Token.lastKind_concat]
    simp [token?]

/-- A token behind which no line begins. -/
theorem Awaits.token {c : Char} (awaits : m.Awaits source before c front) {piece : Piece}
    {text rest : List Char} {t : Token} (found : m.lexeme? piece text rest = some (.token t))
    (level : t.kind ≠ .indent ∧ t.kind ≠ .unindent) (within : t.kind ≠ .newline)
    (other : piece ≠ .newline) :
    (m.after piece text rest).Follows source (before ++ text) (front ++ [t]) where
  toKeeps := awaits.keeps found level
  pos := by rw [after_pos, awaits.pos, Position.advance_append]
  starts lineStart := by
    rw [after_lineStart, if_neg other, awaits.begun] at lineStart
    cases lineStart
  begun _ above line _ place := by
    rw [Token.lineOf_concat] at place
    unfold Token.lineBehind at place
    split at place
    next kind => exact absurd kind within
    next kind => exact absurd kind level.1
    next kind => exact absurd kind level.2
    next => cases place

/-- Code becomes tokens inside a line. -/
theorem kindOf_isInline {piece : Piece} (code : piece.isCode = true) (text rest : List Char) :
    (Word.kindOf piece text rest).isInline = true := by
  cases piece with
  | newline | continuation | comment => cases code
  | string | number => rfl
  | word =>
      show (wordKind text rest).isInline = true
      unfold wordKind
      split
      · split <;> rfl
      · rfl
      · rfl
  | operator =>
      show (operatorKind text).isInline = true
      obtain kind | ⟨sign, kind⟩ := operatorKind_cases text <;> rw [kind] <;> rfl

theorem ne_of_isInline {kind : Token.Kind} (inline : kind.isInline = true) :
    kind ≠ .indent ∧ kind ≠ .unindent ∧ kind ≠ .newline := by
  refine ⟨?_, ?_, ?_⟩ <;> rintro rfl <;> cases inline

/-- Code begins with none of the characters that end a line. -/
theorem code_of_pieceAt {piece : Piece} (code : piece.isCode = true) {c : Char} {rest : List Char}
    {n : Nat} (cut : pieceAt c rest = .ok (piece, n)) : ¬ (c = '\n' ∨ c = '#') := by
  rintro (rfl | rfl)
  · rw [pieceAt_newline] at cut
    cases cut
    cases code
  · cases cut
    cases code

/-- A piece of code is a token that fits. -/
theorem Awaits.code {c : Char} (awaits : m.Awaits source before c front) {piece : Piece}
    {text rest : List Char} (code : piece.isCode = true)
    (cut : pieceAt c (text ++ rest) = .ok (piece, text.length)) :
    ∃ t, m.lexeme? piece (c :: text) rest = some (.token t) ∧ Fits source front t ∧
      (m.after piece (c :: text) rest).Follows source (before ++ c :: text) (front ++ [t]) := by
  have found := lexeme?_of_isCode (m := m) code (c :: text) rest
  have inline := kindOf_isInline code (c :: text) rest
  obtain ⟨noIndent, noUnindent, noNewline⟩ := ne_of_isInline inline
  refine ⟨_, found, ⟨fun kind => absurd kind noIndent, fun kind => absurd kind noUnindent, ?_, ?_⟩,
    awaits.token found ⟨noIndent, noUnindent⟩ noNewline (by rintro rfl; cases code)⟩
  · intro other
    cases inline.symm.trans other
  · intro _ above line whole place straight
    obtain joined | ⟨_, _, _, aligned⟩ := awaits.first above line whole place
    · exact absurd joined straight
    · exact aligned (code_of_pieceAt code cut)

/-- The tokens of one piece of a source fit. -/
theorem Awaits.piece {c : Char} (awaits : m.Awaits source before c front) {piece : Piece}
    {text rest : List Char} (cut : pieceAt c (text ++ rest) = .ok (piece, text.length)) :
    Fitting source front ((m.lexeme? piece (c :: text) rest).toList.filterMap token?) ∧
      (m.after piece (c :: text) rest).Follows source (before ++ c :: text)
        (front ++ (m.lexeme? piece (c :: text) rest).toList.filterMap token?) := by
  have code : piece.isCode = true →
      Fitting source front ((m.lexeme? piece (c :: text) rest).toList.filterMap token?) ∧
        (m.after piece (c :: text) rest).Follows source (before ++ c :: text)
          (front ++ (m.lexeme? piece (c :: text) rest).toList.filterMap token?) := by
    intro code
    obtain ⟨t, found, fits, follows⟩ := awaits.code code cut
    rw [found]
    exact ⟨⟨fits, trivial⟩, follows⟩
  -- a piece that is no token
  have silent : (m.lexeme? piece (c :: text) rest).bind token? = none →
      (m.after piece (c :: text) rest).Follows source (before ++ c :: text) front →
      Fitting source front ((m.lexeme? piece (c :: text) rest).toList.filterMap token?) ∧
        (m.after piece (c :: text) rest).Follows source (before ++ c :: text)
          (front ++ (m.lexeme? piece (c :: text) rest).toList.filterMap token?) := by
    intro none follows
    have tokens : (m.lexeme? piece (c :: text) rest).toList.filterMap token? = [] := by
      cases found : m.lexeme? piece (c :: text) rest with
      | none => rfl
      | some l =>
          rw [found, Option.bind_some] at none
          simp [none]
    rw [tokens, List.append_nil]
    exact ⟨trivial, follows⟩
  cases piece with
  | string | number | word | operator => exact code rfl
  | newline =>
      obtain ⟨rfl, width⟩ := (pieceAt_line cut).1 rfl
      obtain rfl := List.eq_nil_of_length_eq_zero width
      by_cases outside : m.depth = 0
      · have found : m.lexeme? .newline ['\n'] rest = some (.token (.mkAt .newline m.pos ['\n'])) :=
          if_pos outside
        rw [found]
        refine ⟨⟨.of_line (.inl rfl) (.inl (awaits.depth.symm.trans outside)), trivial⟩, ?_⟩
        have stop : Position.origin.advance (before ++ ['\n']) = m.pos.advance ['\n'] := by
          rw [awaits.pos, Position.advance_append]
        refine ⟨awaits.keeps found (by simp [Token.mkAt]), by rw [after_pos, stop], fun _ => ?_, ?_⟩
        · refine ⟨by rw [after_depth]; exact outside, ?_, .inr (Token.lastKind_concat _ _),
            before ++ ['\n'], [], by simp, rfl, ?_⟩
          · unfold Margin.after Margin.skip
            rw [found]
            rfl
          · show lineOf (front ++ [_]) = _
            rw [Token.lineOf_concat, stop]
            rfl
        · intro begun
          rw [after_lineStart, if_pos rfl] at begun
          exact absurd outside (of_decide_eq_false begun)
      · refine silent ?_ (awaits.silent ?_ (by simp) (fun _ => outside) ?_)
        · simp [lexeme?, outside]
        · simp [lexeme?, outside]
        · intro above line whole place
          exact (awaits.first above line whole place).resolve_right fun here => outside here.1
  | continuation =>
      obtain ⟨rfl, _⟩ := (pieceAt_line cut).2 rfl
      refine silent rfl (awaits.silent rfl (by simp) (by simp) fun above line whole place => ?_)
      exact (awaits.first above line whole place).resolve_right fun here => here.2.2.1 rfl
  | comment =>
      by_cases follows : m.followsCode = true
      · have found : m.lexeme? .comment (c :: text) rest =
            some (.suffixComment ⟨m.pos, String.ofList (Text.trimEnd (c :: text))⟩) :=
              if_pos follows
        refine silent (by rw [found]; rfl)
          (awaits.silent (by rw [found]; rfl) (by simp) (by simp) fun above line whole place => ?_)
        refine (awaits.first above line whole place).resolve_right fun here => ?_
        simp [followsCode, here.2.1] at follows
      by_cases outside : m.depth = 0
      · have found : m.lexeme? .comment (c :: text) rest =
            some (.token (.mkAt .comment m.pos (Text.trimEnd (c :: text)))) := by
          simp [lexeme?, follows, outside]
        have next := awaits.token found (by simp [Token.mkAt]) (by simp [Token.mkAt]) (by simp)
        rw [found]
        exact ⟨⟨.of_line (.inr (.inl rfl)) (.inl (awaits.depth.symm.trans outside)), trivial⟩, next⟩
      · have found : m.lexeme? .comment (c :: text) rest =
            some (.lineComment ⟨m.pos, String.ofList (Text.trimEnd (c :: text))⟩) := by
          simp [lexeme?, follows, outside]
        refine silent (by rw [found]; rfl)
          (awaits.silent (by rw [found]; rfl) (by simp) (by simp) fun above line whole place => ?_)
        exact (awaits.first above line whole place).resolve_right fun here => outside here.1

end Margin

/-! ## Whole sources -/

/-- At the end of a source its tokens close as a source does. -/
theorem Margin.Follows.finish {source : List Char} {m : Margin} {front : List Token}
    (follows : m.Follows source source front) :
    Fitting source front (m.finish.filterMap token?) ∧
      ∃ body line levels last,
        front ++ m.finish.filterMap token? = body ++ line :: (levels ++ [last]) ∧
        Closing body line levels last := by
  let levels : List Token := unindents m.pos m.indents
  let last : Token := .mkAt .eof m.pos []
  have kinds : ∀ t ∈ levels, t.kind = .unindent := by
    intro t member
    obtain ⟨_, _, rfl⟩ := List.mem_map.mp member
    rfl
  have counted : levels.length + 1 = (columnsOf front).length := by
    rw [follows.columns]
    simp [levels, unindents]
  -- behind the end of a line, the blocks and the source can be closed
  have close : ∀ {front' : List Token}, columnsOf front' = columnsOf front →
      lastKind front' = some .newline → Fitting source front' (levels ++ [last]) := by
    intro front' columns newline
    rw [follows.columns, ← List.append_nil m.indents] at columns
    obtain ⟨fitting, _⟩ := fitting_unindents columns (.inl newline) (.inr follows.pos)
    exact fitting_append.mpr
      ⟨fitting, .of_line (.inr (.inr rfl)) (.inr ⟨follows.pos, rfl⟩), trivial⟩
  by_cases ended : m.afterNewline = true
  · have tokens : m.finish.filterMap token? = levels ++ [last] := by
      rw [Margin.finish, if_pos ended, List.nil_append, tokens_append, tokens_unindents]
      rfl
    have newline := follows.ended.mp ended
    obtain ⟨line, last?, kind⟩ := Option.map_eq_some_iff.mp newline
    obtain ⟨body, rfl⟩ := List.getLast?_eq_some_iff.mp last?
    have columns : columnsOf (body ++ [line]) = columnsOf body := by
      rw [Token.columnsOf_concat]
      unfold Token.columnsBehind
      rw [kind]
    rw [tokens]
    exact ⟨close rfl newline, body, line, levels, last, by simp, kind, kinds, rfl,
      counted.trans (by rw [columns])⟩
  · let line : Token := .mkAt .newline m.pos []
    have tokens : m.finish.filterMap token? = line :: (levels ++ [last]) := by
      rw [Margin.finish, if_neg ended, List.append_assoc, tokens_append, tokens_append,
        tokens_unindents]
      rfl
    have fits : Fits source front line := .of_line (.inl rfl) (.inr ⟨follows.pos, rfl⟩)
    rw [tokens]
    exact ⟨⟨fits, close (Token.columnsOf_concat _ _) (Token.lastKind_concat _ _)⟩,
      front, line, levels, last, rfl, rfl, kinds, rfl, counted⟩

/-- Every token of a source fits behind those in front of it, and the last ones
close the source. -/
theorem Scans.fitting {m : Margin} {rest : List Char} {ls : List Lexeme} (scans : Scans m rest ls)
    {source before : List Char} {front : List Token} (split : source = before ++ rest)
    (follows : m.Follows source before front) :
    Fitting source front (ls.filterMap token?) ∧
      ∃ body line levels last, front ++ ls.filterMap token? = body ++ line :: (levels ++ [last]) ∧
        Closing body line levels last := by
  induction scans generalizing before front with
  | @finish m spaces white =>
      have ends := follows.skip white
      rw [← split] at ends
      exact ends.finish
  | @step m m' spaces text rest c layout ls piece white solid indentation cut next ih =>
      have calls := Margin.calls_of_indentation indentation
      have here : source = before ++ spaces ++ c :: (text ++ rest) := by simp [split]
      obtain ⟨layoutFits, awaits⟩ := (follows.skip white).calls calls here
      obtain ⟨pieceFits, behind⟩ := awaits.piece cut
      obtain ⟨restFits, ends⟩ := ih (by simp [split]) behind
      rw [tokens_append, tokens_append]
      refine ⟨?_, by simpa using ends⟩
      exact fitting_append.mpr
        ⟨fitting_append.mpr ⟨layoutFits, pieceFits⟩, by simpa using restFits⟩

end Lexeme

/-! ## Reading the row -/

open Token in
/-- The layout tokens of a source follow its lines and blocks. -/
structure Token.Leveled (source : List Char) (ts : List Token) : Prop where
  /-- Blocks are closed after they are opened. -/
  nested : ∀ front, front <+: ts → closed front ≤ opened front
  balanced : opened ts = closed ts
  /-- The end of a line, the ends of the open blocks, and the only end. -/
  ends : ∃ body line levels last, ts = body ++ line :: (levels ++ [last]) ∧
    Closing body line levels last ∧ ∀ t ∈ body, t.kind ≠ .eof
  indent : ∀ front t back, ts = front ++ t :: back → t.kind = .indent →
    front = [] ∨ lastKind front = some .newline
  unindent : ∀ front t back, ts = front ++ t :: back → t.kind = .unindent →
    lastKind front = some .newline ∨ lastKind front = some .unindent
  /-- Inside brackets, only the tokens that close the source are no code. -/
  outside : ∀ front t back, ts = front ++ t :: back → t.kind.isInline = false →
    bracketsOf front = 0 ∨ t.pos = Position.origin.advance source ∧ t.text = ""
  growing : ∀ front, front <+: ts → (columnsOf front).Pairwise (· > ·)
  /-- The first token of a line, unless the line begins with a backslash, stands
  in the column of the innermost block. -/
  aligned : ∀ front t back, ts = front ++ t :: back → t.kind.isInline = true →
    ∀ above line, source = above ++ line →
      lineOf front = some (Position.origin.advance above) → ¬ Joined line →
        (columnsOf front).head? = some t.pos.column

/-- The layout tokens of a source follow its lines and blocks. -/
theorem TokenStream.leveled_of_ofChars {source : List Char} {stream : TokenStream}
    (scanned : TokenStream.ofChars source = .ok stream) : Token.Leveled source stream.tokens := by
  obtain ⟨ls, success, rfl⟩ := Outcome.map_eq_ok.mp scanned
  have scans := Lexeme.scans_of_scanFrom success
  obtain ⟨fitting, body, line, levels, last, split, closing⟩ :=
    scans.fitting (List.nil_append source).symm (Lexeme.Margin.follows_initial source)
  have ordered := scans.ordered
  rw [List.nil_append] at split
  show Token.Leveled source (ls.filterMap Lexeme.token?)
  generalize ls.filterMap Lexeme.token? = ts at fitting split ordered
  have even : ∀ front, front <+: ts → Token.Even front := by
    rintro front ⟨back, rfl⟩
    exact (Token.fitting_append.mp fitting).1.even Token.even_nil
  have start : body <+: ts := ⟨_, split.symm⟩
  refine ⟨fun front start => ?_, ?_, ⟨body, line, levels, last, split, closing, fun t member => ?_⟩,
    ?_, ?_, ?_, fun front start => (even front start).growing, ?_⟩
  · obtain ⟨_, counted, open'⟩ := even front start
    omega
  · rw [split]
    exact closing.balanced (even body start)
  · rw [split, List.pairwise_append] at ordered
    exact (ordered.2.2 t member line (by simp)).real
  · rintro front t back rfl kind
    exact (fitting.fits.opens kind).1
  · rintro front t back rfl kind
    exact (fitting.fits.closes kind).1
  · rintro front t back rfl other
    exact fitting.fits.outside other
  · rintro front t back rfl inline
    exact fitting.fits.aligned inline

/-- Two blocks, a call over two lines, a comment line, a joined line and brackets
that the end of the source leaves open. -/
theorem TokenStream.leveled_of_blocks :
    ∃ stream, TokenStream.ofChars "if a:\n  f(\n1)\n# c\n  if b:\n    \\\nc\n  (".toList =
      .ok stream ∧
      Token.Leveled "if a:\n  f(\n1)\n# c\n  if b:\n    \\\nc\n  (".toList stream.tokens := by
  obtain ⟨stream, scanned⟩ : ∃ stream,
      TokenStream.ofChars "if a:\n  f(\n1)\n# c\n  if b:\n    \\\nc\n  (".toList = .ok stream :=
    Outcome.exists_eq_ok (by cbv)
  exact ⟨stream, scanned, TokenStream.leveled_of_ofChars scanned⟩

end Starlark
