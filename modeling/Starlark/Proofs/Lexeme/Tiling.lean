import Starlark.Proofs.Lexeme.Order
import Starlark.Text.Utf8

/-!
# Lexemes tile their source

A source is laid out as a row of tiles: the lexemes, and between them the
characters that belong to no lexeme. A tile fits where it lies when a lexeme
starts at the place that the text before it leads to and stops behind its own
text, and when a gap is something that may stand between lexemes: white space,
a backslash that joins two lines, a line end inside brackets, or what follows a
comment on its line.

Scanning lays such a row (`Scans.laid`). That lexemes do not overlap, that each
is the part of the source at its place, and that nothing else of the source is
passed over, is then read off the row.
-/

set_option autoImplicit false

namespace Starlark

open Text.Utf8 (size)

/-- Moving over text counts its bytes. -/
theorem Position.offset_advance (p : Position) (text : List Char) :
    (p.advance text).offset = p.offset + size text := by
  induction text generalizing p with
  | nil => simp
  | cons c text ih =>
      have step : (p.next c).offset = p.offset + c.utf8Size := by
        unfold Position.next
        split <;> rfl
      rw [Position.advance_cons, ih, step, Text.Utf8.size_cons, Nat.add_assoc]

theorem Position.offset_origin_advance (text : List Char) :
    (Position.origin.advance text).offset = size text := by
  rw [Position.offset_advance]
  exact Nat.zero_add _

namespace Lexeme

/-! ## Lexemes and their places -/

/-- The text of a lexeme. -/
def chars : Lexeme → List Char
  | .token t => t.text.toList
  | .lineComment c | .suffixComment c => c.text.toList

/-- Where a lexeme starts. -/
def start : Lexeme → Position
  | .token t => t.pos
  | .lineComment c | .suffixComment c => c.start

/-- Where a lexeme stops; a comment stops behind its text. -/
def stop : Lexeme → Position
  | .token t => t.stop
  | .lineComment c | .suffixComment c => c.start.add c.text

/-- Whether a lexeme is a comment. -/
def isComment : Lexeme → Bool
  | .token t => t.kind = .comment
  | .lineComment _ | .suffixComment _ => true

/-- The number of open brackets behind a lexeme. -/
def depthBehind (depth : Nat) : Lexeme → Nat
  | .token ⟨.symbol sign, _, _, _⟩ =>
    if sign.opens then depth + 1 else if sign.closes then depth - 1 else depth
  | _ => depth

/-- The number of brackets that some lexemes leave open. -/
def depthOf (ls : List Lexeme) : Nat := ls.foldl depthBehind 0

/-! ## Tiles -/

/-- A part of a source. -/
inductive Tile where
  | lexeme (l : Lexeme)
  /-- Text that belongs to no lexeme. -/
  | gap (text : List Char)

namespace Tile

/-- The text of a tile. -/
def text : Tile → List Char
  | lexeme l => l.chars
  | gap text => text

/-- The lexeme that a tile is, if it is one. -/
def lexeme? : Tile → Option Lexeme
  | lexeme l => some l
  | gap _ => none

/-- The text of a row of tiles. -/
def textOf (tiles : List Tile) : List Char := tiles.flatMap text

/-- The lexemes of a row of tiles. -/
def lexemesOf (tiles : List Tile) : List Lexeme := tiles.filterMap lexeme?

@[simp] theorem textOf_nil : textOf [] = [] := rfl

@[simp] theorem textOf_cons (t : Tile) (tiles : List Tile) :
    textOf (t :: tiles) = t.text ++ textOf tiles := rfl

@[simp] theorem textOf_append (tiles others : List Tile) :
    textOf (tiles ++ others) = textOf tiles ++ textOf others := List.flatMap_append

@[simp] theorem lexemesOf_nil : lexemesOf [] = [] := rfl

@[simp] theorem lexemesOf_gap (text : List Char) (tiles : List Tile) :
    lexemesOf (gap text :: tiles) = lexemesOf tiles := rfl

@[simp] theorem lexemesOf_lexeme (l : Lexeme) (tiles : List Tile) :
    lexemesOf (lexeme l :: tiles) = l :: lexemesOf tiles := rfl

@[simp] theorem lexemesOf_append (tiles others : List Tile) :
    lexemesOf (tiles ++ others) = lexemesOf tiles ++ lexemesOf others := List.filterMap_append

/-- What may stand between lexemes, behind the tiles `front`. -/
inductive IsGap (front : List Tile) (behind : List Char) : List Char → Prop
  | space {c : Char} (white : isSpace c = true) : IsGap front behind [c]
  | join : IsGap front behind ['\\', '\n']
  | joinReturn : IsGap front behind ['\\', '\r', '\n']
  | line (inside : 0 < depthOf (lexemesOf front)) : IsGap front behind ['\n']
  /-- The white space between a comment and the end of its line. -/
  | trail {l : Lexeme} {text : List Char} (last : front.getLast? = some (lexeme l))
      (comment : l.isComment = true) (white : ∀ d ∈ text, Text.isBlank d = true ∧ d ≠ '\n')
      (ends : behind = [] ∨ ∃ more, behind = '\n' :: more) : IsGap front behind text

/-- Whether a tile can lie behind the tiles `front` and in front of a text. -/
def Fits (front : List Tile) (behind : List Char) : Tile → Prop
  | lexeme l => l.start = Position.origin.advance (textOf front) ∧ l.stop = l.start.advance l.chars
  | gap text => IsGap front behind text

/-- Tiles that all fit where they lie. -/
def Laid (behind : List Char) : List Tile → List Tile → Prop
  | _, [] => True
  | front, t :: tiles => t.Fits front (textOf tiles ++ behind) ∧ Laid behind (front ++ [t]) tiles

theorem laid_append {behind : List Char} {front tiles others : List Tile} :
    Laid behind front (tiles ++ others) ↔
      Laid (textOf others ++ behind) front tiles ∧ Laid behind (front ++ tiles) others := by
  induction tiles generalizing front with
  | nil => simp [Laid]
  | cons t tiles ih => simp [Laid, ih, and_assoc]

/-- Spaces lie anywhere. -/
theorem laid_spaces {spaces : List Char} (white : spaces.all isSpace = true)
    (behind : List Char) (front : List Tile) :
    Laid behind front (spaces.map fun c => gap [c]) := by
  induction spaces generalizing front with
  | nil => exact trivial
  | cons c spaces ih =>
      rw [List.all_cons, Bool.and_eq_true] at white
      exact ⟨.space white.1, ih white.2 _⟩

theorem textOf_spaces (spaces : List Char) : textOf (spaces.map fun c => gap [c]) = spaces := by
  induction spaces with
  | nil => rfl
  | cons c spaces ih => rw [List.map_cons, textOf_cons, ih]; rfl

theorem lexemesOf_spaces (spaces : List Char) :
    lexemesOf (spaces.map fun c => gap [c]) = [] := by
  induction spaces with
  | nil => rfl
  | cons c spaces ih => exact ih

end Tile

/-! ## Laying the tiles -/

open Tile (textOf lexemesOf Laid laid_append)

theorem depthOf_append (ls ls' : List Lexeme) :
    depthOf (ls ++ ls') = ls'.foldl depthBehind (depthOf ls) := List.foldl_append

theorem depthBehind_mkAt (depth : Nat) {kind : Token.Kind} (plain : ∀ sign, kind ≠ .symbol sign)
    (pos : Position) (text : List Char) :
    depthBehind depth (.token (.mkAt kind pos text)) = depth := by
  cases kind with
  | symbol sign => exact absurd rfl (plain sign)
  | _ => rfl

theorem depthBehind_operator (depth : Nat) (pos : Position) (text : List Char) :
    depthBehind depth (.token (.mkAt (Margin.operatorKind text) pos text)) =
      Margin.depthAfter depth text := by
  unfold Margin.depthAfter
  obtain kind | ⟨sign, kind⟩ := Margin.operatorKind_cases text <;> rw [kind] <;> rfl

theorem mkAt_stop (kind : Token.Kind) (pos : Position) (text : List Char) :
    (Lexeme.token (.mkAt kind pos text)).stop =
      (Lexeme.token (.mkAt kind pos text)).start.advance
        (Lexeme.token (.mkAt kind pos text)).chars := by
  simp [stop, start, chars, Token.mkAt]

/-- A margin stands behind the tiles that were laid so far. -/
structure Margin.Behind (m : Margin) (front : List Tile) : Prop where
  pos : m.pos = Position.origin.advance (textOf front)
  depth : m.depth = depthOf (lexemesOf front)

namespace Margin

variable {m m' : Margin} {front : List Tile}

theorem behind_initial : initial.Behind [] := ⟨rfl, rfl⟩

theorem Behind.skip (behind : m.Behind front) (spaces : List Char) :
    (m.skip spaces).Behind (front ++ spaces.map fun c => .gap [c]) :=
  ⟨by rw [Tile.textOf_append, Tile.textOf_spaces, Position.advance_append, ← behind.pos]; rfl,
    by rw [Tile.lexemesOf_append, Tile.lexemesOf_spaces, List.append_nil]; exact behind.depth⟩

/-- Layout tokens lie anywhere: they have no text, and open no bracket. -/
theorem Behind.layout (behind : m.Behind front) {layout : List Lexeme}
    (empty : ∀ l ∈ layout, ∃ kind, l = m.layoutToken kind ∧ ∀ sign, kind ≠ .symbol sign)
    (text : List Char) :
    Laid text front (layout.map .lexeme) ∧ m.Behind (front ++ layout.map .lexeme) := by
  induction layout generalizing front with
  | nil => simpa [Laid] using behind
  | cons l layout ih =>
      obtain ⟨kind, rfl, plain⟩ := empty l (by simp)
      have next : m.Behind (front ++ [.lexeme (m.layoutToken kind)]) := by
        constructor
        · simpa [Tile.text, chars, layoutToken, Token.mkAt] using behind.pos
        · rw [behind.depth, Tile.lexemesOf_append, Tile.lexemesOf_lexeme, depthOf_append]
          exact (depthBehind_mkAt _ plain _ _).symm
      obtain ⟨laid, last⟩ := ih next fun l hl => empty l (by simp [hl])
      exact ⟨⟨⟨behind.pos, mkAt_stop _ _ _⟩, laid⟩, by simpa using last⟩

/-- Layout tokens have no text. -/
theorem textOf_layout {layout : List Lexeme}
    (empty : ∀ l ∈ layout, ∃ kind, l = m.layoutToken kind ∧ ∀ sign, kind ≠ .symbol sign) :
    textOf (layout.map .lexeme) = [] := by
  induction layout with
  | nil => rfl
  | cons l layout ih =>
      obtain ⟨kind, rfl, _⟩ := empty l (by simp)
      rw [List.map_cons, Tile.textOf_cons, ih fun l hl => empty l (by simp [hl])]
      rfl

theorem lexemesOf_layout (layout : List Lexeme) : lexemesOf (layout.map .lexeme) = layout := by
  induction layout with
  | nil => rfl
  | cons l layout ih => rw [List.map_cons, Tile.lexemesOf_lexeme, ih]

theorem indentation_empty {c : Char} {layout : List Lexeme}
    (success : m.indentation c = .ok (layout, m')) :
    ∀ l ∈ layout, ∃ kind, l = m.layoutToken kind ∧ ∀ sign, kind ≠ .symbol sign := by
  intro l member
  obtain rfl | rfl := (indentation_eq_ok success).2.2.2 l member
  · exact ⟨.indent, rfl, by simp⟩
  · exact ⟨.unindent, rfl, by simp⟩

/-- Only layout tokens are made at the end of a source. -/
theorem finish_empty :
    ∀ l ∈ m.finish, ∃ kind, l = m.layoutToken kind ∧ ∀ sign, kind ≠ .symbol sign := by
  intro l member
  simp only [finish, List.mem_append, List.mem_map, List.mem_singleton] at member
  obtain (newline | ⟨_, _, rfl⟩) | rfl := member
  · split at newline
    · cases newline
    · rw [List.mem_singleton] at newline
      exact ⟨.newline, newline, by simp⟩
  · exact ⟨.unindent, rfl, by simp⟩
  · exact ⟨.eof, rfl, by simp⟩

/-- Tiles with the text of a piece lead behind the piece. -/
theorem Behind.after (behind : m.Behind front) {piece : Piece} {text rest : List Char}
    {tiles : List Tile} (itsText : textOf tiles = text)
    (depth : (lexemesOf tiles).foldl depthBehind m.depth =
      if piece = .operator then depthAfter m.depth text else m.depth) :
    (m.after piece text rest).Behind (front ++ tiles) := by
  constructor
  · rw [after_pos, behind.pos, Tile.textOf_append, Position.advance_append, itsText]
  · rw [after_depth, Tile.lexemesOf_append, depthOf_append, ← behind.depth, depth]

/-- The tile of a piece that is a token. -/
theorem Behind.token (behind : m.Behind front) {piece : Piece} {text rest : List Char}
    {kind : Token.Kind}
    (depth : depthBehind m.depth (.token (.mkAt kind m.pos text)) =
      if piece = .operator then depthAfter m.depth text else m.depth) :
    textOf [.lexeme (.token (.mkAt kind m.pos text))] = text ∧
      Laid rest front [.lexeme (.token (.mkAt kind m.pos text))] ∧
      (m.after piece text rest).Behind (front ++ [.lexeme (.token (.mkAt kind m.pos text))]) := by
  have itsText : textOf [.lexeme (.token (.mkAt kind m.pos text))] = text := by
    simp [Tile.text, chars, Token.mkAt]
  exact ⟨itsText, ⟨⟨behind.pos, mkAt_stop _ _ _⟩, trivial⟩, behind.after itsText depth⟩

/-- The tile of a piece that is no lexeme. -/
theorem Behind.gap (behind : m.Behind front) {piece : Piece} {text rest : List Char}
    (other : piece ≠ .operator) (isGap : Tile.IsGap front rest text) :
    textOf [.gap text] = text ∧ Laid rest front [.gap text] ∧
      (m.after piece text rest).Behind (front ++ [.gap text]) := by
  have itsText : textOf [.gap text] = text := List.append_nil _
  exact ⟨itsText, ⟨isGap, trivial⟩, behind.after itsText (by rw [if_neg other]; rfl)⟩

theorem trimEnd_append (text : List Char) :
    Text.trimEnd text ++ (text.reverse.takeWhile Text.isBlank).reverse = text := by
  rw [Text.trimEnd, ← List.reverse_append, List.takeWhile_append_dropWhile, List.reverse_reverse]

/-- The tiles of a comment: its text, and the white space behind it. -/
theorem Behind.comment (behind : m.Behind front) {c : Char} {text rest : List Char}
    (cut : pieceAt c (text ++ rest) = .ok (.comment, text.length)) {l : Lexeme}
    (isComment : l.isComment = true) (start : l.start = m.pos)
    (stop : l.stop = l.start.advance l.chars) (shown : l.chars = Text.trimEnd (c :: text)) :
    ∃ tiles, textOf tiles = c :: text ∧ lexemesOf tiles = [l] ∧ Laid rest front tiles ∧
      (m.after .comment (c :: text) rest).Behind (front ++ tiles) := by
  let trail := ((c :: text).reverse.takeWhile Text.isBlank).reverse
  obtain ⟨rfl, _⟩ := pieceAt_eq_comment cut
  have line := newline_not_mem_of_comment cut
  have white : ∀ d ∈ trail, Text.isBlank d = true ∧ d ≠ '\n' := by
    intro d member
    have inside : d ∈ ('#' :: text).reverse.takeWhile Text.isBlank := List.mem_reverse.mp member
    refine ⟨List.mem_takeWhile_imp inside, ?_⟩
    rintro rfl
    exact line (List.mem_reverse.mp ((List.takeWhile_sublist _).subset inside))
  have itsText : textOf [.lexeme l, .gap trail] = '#' :: text := by
    rw [Tile.textOf_cons, Tile.textOf_cons, Tile.textOf_nil, List.append_nil]
    show l.chars ++ trail = _
    rw [shown, trimEnd_append]
  refine ⟨[.lexeme l, .gap trail], itsText, rfl, ⟨⟨start.trans behind.pos, stop⟩, ?_, trivial⟩, ?_⟩
  · exact .trail (by simp) isComment white (rest_of_comment cut)
  · refine behind.after itsText ?_
    rw [if_neg (by simp)]
    show depthBehind m.depth l = m.depth
    cases l with
    | token t =>
        obtain ⟨kind, _, _, _⟩ := t
        obtain rfl : kind = .comment := by simpa [Lexeme.isComment] using isComment
        rfl
    | lineComment c => rfl
    | suffixComment c => rfl

/-- What a piece that ends a line looks like. -/
theorem pieceAt_line {c : Char} {rest : List Char} {piece : Piece} {more : Nat}
    (cut : pieceAt c rest = .ok (piece, more)) :
    (piece = .newline → c = '\n' ∧ more = 0) ∧
      (piece = .continuation → c = '\\' ∧ lineBreakWidth? rest = some more) := by
  unfold pieceAt at cut
  split at cut
  · cases cut
    simp_all
  split at cut
  · split at cut <;> cases cut
    simp_all
  -- no other piece is one of the two
  have other : piece ≠ .newline ∧ piece ≠ .continuation := by
    split at cut
    · cases cut
      simp
    split at cut
    · obtain ⟨_, _, same⟩ := Outcome.map_eq_ok.mp cut
      cases same
      simp
    split at cut
    · cases cut
      simp
    split at cut
    · split at cut
      · split at cut
        · obtain ⟨_, _, same⟩ := Outcome.map_eq_ok.mp cut
          cases same
          simp
        · cases cut
          simp
      · cases cut
        simp
    · split at cut <;> cases cut
      simp
  exact ⟨fun same => absurd same other.1, fun same => absurd same other.2⟩

/-- A line break is one of two texts. -/
theorem lineBreakWidth?_append {text rest : List Char}
    (found : lineBreakWidth? (text ++ rest) = some text.length) :
    text = ['\n'] ∨ text = ['\r', '\n'] := by
  unfold lineBreakWidth? at found
  split at found
  · rename_i starts
    obtain ⟨c, rfl⟩ := List.length_eq_one_iff.mp (Option.some.inj found).symm
    simp_all
  · rename_i starts
    obtain ⟨c, d, rfl⟩ := List.length_eq_two.mp (Option.some.inj found).symm
    simp_all
  · cases found

/-- The tiles of one piece of the source. -/
theorem Behind.piece (behind : m.Behind front) {piece : Piece} {c : Char} {text rest : List Char}
    (cut : pieceAt c (text ++ rest) = .ok (piece, text.length)) :
    ∃ tiles, textOf tiles = c :: text ∧
      lexemesOf tiles = (m.lexeme? piece (c :: text) rest).toList ∧
      Laid rest front tiles ∧ (m.after piece (c :: text) rest).Behind (front ++ tiles) := by
  have token : ∀ {kind : Token.Kind}, m.lexeme? piece (c :: text) rest =
        some (.token (.mkAt kind m.pos (c :: text))) →
      depthBehind m.depth (.token (.mkAt kind m.pos (c :: text))) =
        (if piece = .operator then depthAfter m.depth (c :: text) else m.depth) →
      ∃ tiles, textOf tiles = c :: text ∧
        lexemesOf tiles = (m.lexeme? piece (c :: text) rest).toList ∧
        Laid rest front tiles ∧ (m.after piece (c :: text) rest).Behind (front ++ tiles) := by
    intro kind found depth
    obtain ⟨itsText, laid, after⟩ := @Behind.token m front behind piece _ rest kind depth
    exact ⟨_, itsText, by rw [found]; rfl, laid, after⟩
  have gap : m.lexeme? piece (c :: text) rest = none → piece ≠ .operator →
      Tile.IsGap front rest (c :: text) →
      ∃ tiles, textOf tiles = c :: text ∧
        lexemesOf tiles = (m.lexeme? piece (c :: text) rest).toList ∧
        Laid rest front tiles ∧ (m.after piece (c :: text) rest).Behind (front ++ tiles) := by
    intro found other isGap
    obtain ⟨itsText, laid, after⟩ := behind.gap other isGap
    exact ⟨_, itsText, by rw [found]; rfl, laid, after⟩
  cases piece with
  | newline =>
      obtain ⟨rfl, width⟩ := (pieceAt_line cut).1 rfl
      obtain rfl := List.eq_nil_of_length_eq_zero width
      by_cases outside : m.depth = 0
      · exact token (if_pos outside) (depthBehind_mkAt _ (by simp) _ _)
      · refine gap (if_neg outside) (by simp) (.line ?_)
        rw [← behind.depth]
        exact Nat.pos_of_ne_zero outside
  | continuation =>
      obtain ⟨rfl, width⟩ := (pieceAt_line cut).2 rfl
      obtain rfl | rfl := lineBreakWidth?_append width
      · exact gap rfl (by simp) .join
      · exact gap rfl (by simp) .joinReturn
  | comment =>
      unfold lexeme?
      simp only
      split
      · exact behind.comment cut rfl rfl rfl (by simp [chars])
      · split
        · exact behind.comment cut rfl rfl (mkAt_stop _ _ _) (by simp [chars, Token.mkAt])
        · exact behind.comment cut rfl rfl rfl (by simp [chars])
  | string => exact token rfl (depthBehind_mkAt _ (by simp) _ _)
  | number => exact token rfl (depthBehind_mkAt _ (by simp) _ _)
  | word =>
      refine token rfl (depthBehind_mkAt _ (fun sign => ?_) _ _)
      unfold wordKind
      split
      · split <;> simp
      · simp
      · simp
  | operator => exact token rfl (depthBehind_operator _ _ _)

end Margin

/-- Scanning lays a row of tiles. -/
theorem Scans.laid {m : Margin} {source : List Char} {ls : List Lexeme} (scans : Scans m source ls)
    {front : List Tile} (behind : m.Behind front) :
    ∃ tiles, textOf tiles = source ∧ lexemesOf tiles = ls ∧ Laid [] front tiles := by
  induction scans generalizing front with
  | @finish m spaces white =>
      have start := behind.skip spaces
      have empty := (m.skip spaces).finish_empty
      refine ⟨spaces.map (fun c => .gap [c]) ++ (m.skip spaces).finish.map .lexeme, ?_, ?_, ?_⟩
      · rw [Tile.textOf_append, Tile.textOf_spaces, Margin.textOf_layout empty, List.append_nil]
      · rw [Tile.lexemesOf_append, Tile.lexemesOf_spaces, Margin.lexemesOf_layout, List.nil_append]
      · exact laid_append.mpr ⟨Tile.laid_spaces white _ _, (start.layout empty _).1⟩
  | @step m m' spaces text rest c layout ls piece white solid indentation cut next ih =>
      have empty := Margin.indentation_empty indentation
      obtain ⟨samePos, sameDepth, _⟩ := Margin.indentation_eq_ok indentation
      have start := (behind.skip spaces).layout empty
      have opened : m'.Behind _ :=
        ⟨samePos.trans (start []).2.pos, sameDepth.trans (start []).2.depth⟩
      obtain ⟨tiles, itsText, itsLexemes, laid, after⟩ := opened.piece cut
      obtain ⟨others, otherText, otherLexemes, otherLaid⟩ := ih after
      refine ⟨spaces.map (fun c => .gap [c]) ++ (layout.map .lexeme ++ (tiles ++ others)),
        ?_, ?_, ?_⟩
      · simp only [Tile.textOf_append, Tile.textOf_spaces, Margin.textOf_layout empty, itsText,
          otherText, List.nil_append, List.cons_append]
      · simp only [Tile.lexemesOf_append, Tile.lexemesOf_spaces, Margin.lexemesOf_layout,
          itsLexemes, otherLexemes, List.nil_append, List.append_assoc]
      · refine laid_append.mpr ⟨Tile.laid_spaces white _ _, laid_append.mpr ⟨(start _).1, ?_⟩⟩
        refine laid_append.mpr ⟨?_, by simpa using otherLaid⟩
        rw [otherText, List.append_nil]
        exact laid

/-! ## Reading the row -/

namespace Tile

variable {behind : List Char} {front tiles : List Tile}

/-- The tile with a given character. -/
theorem exists_of_textOf {before after : List Char} {c : Char}
    (same : textOf tiles = before ++ c :: after) :
    ∃ pre t post inner outer, tiles = pre ++ t :: post ∧ before = textOf pre ++ inner ∧
      t.text = inner ++ c :: outer ∧ after = outer ++ textOf post := by
  induction tiles generalizing before with
  | nil => simp at same
  | cons t tiles ih =>
      rw [textOf_cons, List.append_eq_append_iff] at same
      obtain ⟨skipped, rfl, more⟩ | ⟨reached, itsText, more⟩ := same
      · obtain ⟨pre, t', post, inner, outer, rfl, rfl, shown, rfl⟩ := ih more
        exact ⟨t :: pre, t', post, inner, outer, rfl, by simp, shown, rfl⟩
      · cases reached with
        | nil =>
            obtain ⟨pre, t', post, inner, outer, rfl, empty, shown, rfl⟩ := @ih [] more.symm
            refine ⟨t :: pre, t', post, inner, outer, rfl, ?_, shown, rfl⟩
            rw [textOf_cons, List.append_assoc, ← empty, itsText, List.append_nil, List.append_nil]
        | cons d outer =>
            obtain ⟨rfl, rfl⟩ := List.cons.inj more
            exact ⟨[], t, tiles, before, outer, rfl, rfl, itsText, rfl⟩

theorem Laid.fits {pre post : List Tile} {t : Tile} (laid : Laid behind front (pre ++ t :: post)) :
    t.Fits (front ++ pre) (textOf post ++ behind) := (laid_append.mp laid).2.1

/-- A lexeme is one of the tiles. -/
theorem mem_lexemesOf {l : Lexeme} (member : l ∈ lexemesOf tiles) :
    ∃ pre post, tiles = pre ++ lexeme l :: post := by
  obtain ⟨t, inside, same⟩ := List.mem_filterMap.mp member
  obtain ⟨pre, post, rfl⟩ := List.append_of_mem inside
  cases t with
  | lexeme l' =>
      cases same
      exact ⟨pre, post, rfl⟩
  | gap text => cases same

/-- A lexeme starts behind the tiles before it and stops behind its text. -/
theorem Laid.lexeme {pre post : List Tile} {l : Lexeme}
    (laid : Laid behind front (pre ++ lexeme l :: post)) :
    l.start.offset = size (textOf (front ++ pre)) ∧
      l.stop.offset = size (textOf (front ++ pre)) + size l.chars := by
  obtain ⟨start, stop⟩ := laid.fits
  have here : l.start.offset = size (textOf (front ++ pre)) := by
    rw [start, Position.offset_origin_advance]
  exact ⟨here, by rw [stop, Position.offset_advance, here]⟩

theorem Laid.bounds (laid : Laid behind front tiles) {l : Lexeme} (member : l ∈ lexemesOf tiles) :
    size (textOf front) ≤ l.start.offset ∧ l.start.offset ≤ l.stop.offset ∧
      l.stop.offset ≤ size (textOf (front ++ tiles)) := by
  obtain ⟨pre, post, rfl⟩ := mem_lexemesOf member
  obtain ⟨start, stop⟩ := laid.lexeme
  rw [start, stop]
  simp only [textOf_append, textOf_cons, Text.Utf8.size_append, text]
  omega

/-- Lexemes that are laid one behind the other do not overlap. -/
theorem Laid.pairwise (laid : Laid behind front tiles) :
    (lexemesOf tiles).Pairwise fun l r => l.stop.offset ≤ r.start.offset := by
  induction tiles generalizing front with
  | nil => exact .nil
  | cons t tiles ih =>
      obtain ⟨fits, rest⟩ := laid
      cases t with
      | gap text => exact ih rest
      | lexeme l =>
          refine List.pairwise_cons.mpr ⟨fun r member => ?_, ih rest⟩
          have stop := (@Laid.lexeme behind front [] tiles l ⟨fits, rest⟩).2
          refine Nat.le_trans (Nat.le_of_eq ?_) (rest.bounds member).1
          simpa [text] using stop

end Tile

/-- A lexeme covers the byte at an offset. -/
def Covers (l : Lexeme) (offset : Nat) : Prop := l.start.offset ≤ offset ∧ offset < l.stop.offset

/-- The characters of a source that may belong to none of its lexemes. The
character stands between two texts. -/
inductive Uncovered (ls : List Lexeme) (before : List Char) (c : Char) (after : List Char) : Prop
  | space (white : isSpace c = true)
  /-- In a backslash and the line end behind it, which no lexeme reaches into. -/
  | join {front mark back : List Char} (split : before ++ c :: after = front ++ mark ++ back)
      (joins : mark = ['\\', '\n'] ∨ mark = ['\\', '\r', '\n'])
      (inside : size front ≤ size before ∧ size before < size (front ++ mark))
      (free : ∀ l ∈ ls, l.stop.offset ≤ size front ∨ size (front ++ mark) ≤ l.start.offset)
  /-- A line end while the lexemes before it leave a bracket open. -/
  | line (newline : c = '\n')
      (inside : 0 < depthOf (ls.filter fun l => l.stop.offset ≤ size before))
  /-- Between a comment and the end of its line, where all is white space. -/
  | trail {l : Lexeme} {front gap : List Char} (member : l ∈ ls) (comment : l.isComment = true)
      (split : before = front ++ gap) (stop : l.stop = Position.origin.advance front)
      (newline : '\n' ∉ gap ++ [c])
      (white : ∀ d ∈ gap ++ c :: after.takeWhile (· != '\n'), Text.isBlank d = true)

theorem nil_of_singleton {c d : Char} {inner outer : List Char} (same : [d] = inner ++ c :: outer) :
    inner = [] ∧ d = c := by
  cases inner with
  | nil => simp_all
  | cons e inner => simp at same

/-- White space behind a comment, up to the end of the line, may belong to no lexeme. -/
theorem Uncovered.ofTrail {ls : List Lexeme} {l : Lexeme} {front inner outer rest : List Char}
    {c : Char} (member : l ∈ ls) (comment : l.isComment = true)
    (stop : l.stop = Position.origin.advance front)
    (white : ∀ d ∈ inner ++ c :: outer, Text.isBlank d = true ∧ d ≠ '\n')
    (ends : rest = [] ∨ ∃ more, rest = '\n' :: more) :
    Uncovered ls (front ++ inner) c (outer ++ rest) := by
  have stops : rest.takeWhile (· != '\n') = [] := by
    obtain rfl | ⟨more, rfl⟩ := ends <;> rfl
  have line : (outer ++ rest).takeWhile (· != '\n') = outer := by
    rw [List.takeWhile_append_of_pos, stops, List.append_nil]
    intro d inside
    simpa using (white d (by simp [inside])).2
  refine .trail member comment rfl stop (fun inside => ?_) ?_
  · refine (white '\n' ?_).2 rfl
    rw [List.append_cons]
    exact List.mem_append_left _ inside
  · rw [line]
    exact fun d inside => (white d inside).1

/-- A character that no lexeme covers lies in a gap. -/
theorem Tile.Laid.uncovered {tiles : List Tile} (laid : Laid [] [] tiles) {before after : List Char}
    {c : Char} (same : textOf tiles = before ++ c :: after) :
    (∃ l ∈ lexemesOf tiles, l.Covers (size before)) ∨
      Uncovered (lexemesOf tiles) before c after := by
  obtain ⟨pre, t, post, inner, outer, rfl, rfl, shown, rfl⟩ := exists_of_textOf same
  have positive : 0 < c.utf8Size := c.utf8Size_pos
  cases t with
  | lexeme l =>
      refine .inl ⟨l, by simp, ?_⟩
      obtain ⟨start, stop⟩ := laid.lexeme
      simp only [text] at shown
      simp only [Covers, start, stop, shown, List.nil_append, Text.Utf8.size_append,
        Text.Utf8.size_cons]
      omega
  | gap text =>
      refine .inr ?_
      simp only [Tile.text] at shown
      have whole : textOf pre ++ inner ++ c :: (outer ++ textOf post) =
          textOf pre ++ text ++ textOf post := by simp [shown]
      have reach : size (textOf pre) ≤ size (textOf pre ++ inner) ∧
          size (textOf pre ++ inner) < size (textOf pre ++ text) := by
        simp only [shown, Text.Utf8.size_append, Text.Utf8.size_cons]
        omega
      -- the lexemes on either side of the gap
      obtain ⟨left, right⟩ := laid_append.mp laid
      have ends : ∀ l ∈ lexemesOf pre, l.stop.offset ≤ size (textOf pre) :=
        fun l member => (left.bounds member).2.2
      have starts : ∀ l ∈ lexemesOf post, size (textOf pre ++ text) ≤ l.start.offset := by
        intro l member
        simpa [Tile.text] using (right.2.bounds member).1
      have free : ∀ l ∈ lexemesOf pre ++ lexemesOf post,
          l.stop.offset ≤ size (textOf pre) ∨ size (textOf pre ++ text) ≤ l.start.offset := by
        intro l member
        exact (List.mem_append.mp member).imp (ends l) (starts l)
      rw [lexemesOf_append, lexemesOf_gap]
      cases (laid.fits : IsGap pre (textOf post ++ []) text) with
      | space white =>
          obtain ⟨rfl, rfl⟩ := nil_of_singleton shown
          exact .space white
      | join => exact .join whole (.inl rfl) reach free
      | joinReturn => exact .join whole (.inr rfl) reach free
      | line inside =>
          obtain ⟨rfl, rfl⟩ := nil_of_singleton shown
          refine .line rfl ?_
          have before : (lexemesOf pre ++ lexemesOf post).filter
              (fun l => l.stop.offset ≤ size (textOf pre ++ [])) = lexemesOf pre := by
            rw [List.filter_append, List.filter_eq_self.mpr, List.filter_eq_nil_iff.mpr,
              List.append_nil]
            · intro l member
              have later := starts l member
              have further := (right.2.bounds member).2.1
              simp only [Text.Utf8.size_append, Text.Utf8.size_cons] at later
              simp only [List.append_nil, decide_eq_true_eq]
              omega
            · intro l member
              simpa using ends l member
          rw [before]
          exact inside
      | @trail l _ last comment white line =>
          obtain ⟨pre, rfl⟩ := List.getLast?_eq_some_iff.mp last
          obtain ⟨start, stop⟩ := (laid_append.mp left).2.1
          rw [shown] at white
          rw [List.append_nil] at line
          refine .ofTrail (by simp) comment ?_ white line
          rw [stop, start, textOf_append, Position.advance_append]
          simp [Tile.text, Position.advance_append]

/-- Some lexemes tile a source. -/
structure Tiles (source : List Char) (ls : List Lexeme) : Prop where
  /-- They stand in order and do not overlap. -/
  ordered : ls.Pairwise fun l r => l.stop.offset ≤ r.start.offset
  /-- Each is the part of the source at its place. -/
  placed : ∀ l ∈ ls, ∃ before after, source = before ++ l.chars ++ after ∧
    l.start = Position.origin.advance before ∧ l.stop = l.start.advance l.chars
  /-- No character is passed over, other than those that separate lexemes. -/
  covered : ∀ before c after, source = before ++ c :: after →
    (∃ l ∈ ls, l.Covers (size before)) ∨ Uncovered ls before c after

/-- The lexemes of a laid row tile its text. -/
theorem Tile.Laid.tiles {tiles : List Tile} (laid : Laid [] [] tiles) :
    Tiles (textOf tiles) (lexemesOf tiles) := by
  refine ⟨laid.pairwise, fun l member => ?_, fun before c after => laid.uncovered⟩
  obtain ⟨pre, post, rfl⟩ := mem_lexemesOf member
  refine ⟨textOf pre, textOf post, ?_, laid.fits⟩
  simp [Tile.text]

end Lexeme

/-- The tokens and comments of a source tile it. -/
theorem TokenStream.tiles_of_ofChars {source : List Char} {stream : TokenStream}
    (scanned : TokenStream.ofChars source = .ok stream) :
    ∃ ls, stream = .ofLexemes ls ∧ Lexeme.Tiles source ls := by
  obtain ⟨ls, success, rfl⟩ := Outcome.map_eq_ok.mp scanned
  obtain ⟨tiles, rfl, rfl, laid⟩ :=
    (Lexeme.scans_of_scanFrom success).laid Lexeme.Margin.behind_initial
  exact ⟨_, rfl, laid.tiles⟩

/-- A call over two lines, a joined line and a comment with white space behind it. -/
theorem TokenStream.tiles_of_call :
    ∃ stream, TokenStream.ofChars "f(\n é) \\\n # c \n".toList = .ok stream ∧
      ∃ ls, stream = .ofLexemes ls ∧ Lexeme.Tiles "f(\n é) \\\n # c \n".toList ls := by
  obtain ⟨stream, scanned⟩ :
      ∃ stream, TokenStream.ofChars "f(\n é) \\\n # c \n".toList = .ok stream :=
    Outcome.exists_eq_ok (by cbv)
  exact ⟨stream, scanned, TokenStream.tiles_of_ofChars scanned⟩

end Starlark
