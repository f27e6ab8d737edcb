import Starlark.Proofs.Literal
import Starlark.Proofs.Nesting

/-!
# Reading a sheet back

The text of a tidy sheet on which every line end is inside brackets or behind a
backslash is cut into the words that were written, and into nothing else
(`Lexeme.scan_scraps`). Blanks, joined lines and line ends inside brackets leave
no token; what is tidy about the sheet is that each word ends where it was
written to end.
-/

set_option autoImplicit false

namespace Starlark

/-! ## The last character of a word -/

namespace Lexeme

/-- Whether a character is neither a blank nor a line end. -/
def isInk (c : Char) : Bool := c != ' ' && c != '\n'

/-- Where blanks and line ends are excluded, there is ink. -/
theorem isInk_of {p : Char → Bool} (blank : p ' ' = false) (line : p '\n' = false) {c : Char}
    (holds : p c = true) : isInk c = true := by
  by_contra faint
  have other : c = ' ' ∨ c = '\n' := by
    by_contra none
    simp [isInk, not_or.mp none] at faint
  rcases other with rfl | rfl
  · rw [blank] at holds
    cases holds
  · rw [line] at holds
    cases holds

/-- A string ends in the quote that it begins with. -/
theorem getLast?_of_stringExtent {quote : Char} {text : List Char}
    (reaches : stringExtent quote text = .ok text.length) : text.getLast? = some quote := by
  obtain ⟨triple, body, framed, _⟩ := framed_of_stringExtent reaches
  cases framed with
  | single => simp
  | triple => simp [List.getLast?_cons]

/-- A number has no blank in it. -/
theorem isInk_of_numberExtent {text : List Char} (whole : numberExtent text = text.length) :
    ∀ d ∈ text, isInk d = true := by
  have digit {c : Char} (number : isNumberChar c = true) : isInk c = true :=
    isInk_of rfl rfl number
  fun_induction numberExtent text with
  | case1 => exact List.forall_mem_nil _
  | case2 c number => exact List.forall_mem_singleton.mpr (digit number)
  | case3 => cases whole
  | case4 c d rest sign ih =>
      have inner : numberExtent rest = rest.length := by simpa using whole
      simp only [Bool.and_eq_true, Bool.or_eq_true, beq_iff_eq] at sign
      refine List.forall_mem_cons.mpr ⟨?_, List.forall_mem_cons.mpr ⟨?_, ih inner⟩⟩
      · rcases sign.1 with rfl | rfl <;> rfl
      · rcases sign.2 with rfl | rfl <;> rfl
  | case5 c d rest _ number ih =>
      have inner : numberExtent (d :: rest) = (d :: rest).length := by simpa using whole
      exact List.forall_mem_cons.mpr ⟨digit number, ih inner⟩
  | case6 => cases whole

/-- A piece of code that is no string has no blank in it. -/
theorem Cuts.forall_isInk {c : Char} {text : List Char} {piece : Piece}
    (cuts : Cuts c text piece text.length) (other : piece ≠ .string) :
    ∀ d ∈ c :: text, isInk d = true := by
  have solid := cuts.isSpace
  have signs : piece = .operator → c :: text ∈ operators := by
    rintro rfl
    exact cuts.mem_operators
  generalize width : text.length = n at cuts
  cases cuts with
  | string | raw => exact absurd rfl other
  | number starts =>
      refine List.forall_mem_cons.mpr ⟨?_, isInk_of_numberExtent width.symm⟩
      have plain := isMark_of_startsNumber starts
      simp only [isMark, Lexeme.isSpace, Bool.or_eq_false_iff, beq_eq_false_iff_ne] at plain solid
      simp [Lexeme.isInk, plain.1.1.1, solid.1.1]
  | word letter =>
      refine List.forall_mem_cons.mpr ⟨isInk_of rfl rfl letter, fun d member => ?_⟩
      have all : text.takeWhile isWordChar = text :=
        (List.takeWhile_prefix isWordChar).eq_of_length width.symm
      rw [← all] at member
      exact isInk_of rfl rfl (List.mem_takeWhile_imp member)
  | operator =>
      have seen : ∀ signs ∈ operators, signs.all Lexeme.isInk = true := by decide
      exact List.all_eq_true.mp (seen _ (signs rfl))

/-- A piece of code ends in a character that is seen. -/
theorem Cuts.isInk {c : Char} {text : List Char} {piece : Piece}
    (cuts : Cuts c text piece text.length) : (c :: text).getLast?.all isInk = true := by
  have quote {d : Char} (quoted : isQuote d = true) : Lexeme.isInk d = true :=
    isInk_of rfl rfl quoted
  by_cases string : piece = .string
  · subst string
    generalize width : text.length = n at cuts
    cases cuts with
    | string quoted extent =>
        subst width
        rw [List.getLast?_cons, getLast?_of_stringExtent extent]
        exact quote quoted
    | @raw q more n raw same quoted extent =>
        subst same
        obtain rfl : more.length = n := by simpa using width
        rw [List.getLast?_cons_cons, List.getLast?_cons, getLast?_of_stringExtent extent]
        exact quote quoted
  · rw [List.getLast?_eq_getLast_of_ne_nil (List.cons_ne_nil c text), Option.all_some]
    exact cuts.forall_isInk string _ (List.getLast_mem _)

end Lexeme

/-- A sound word ends in ink. -/
theorem Word.Sound.firm {w : Word} (sound : w.Sound) : Firm w.text := by
  obtain ⟨c, text, same, cuts, _⟩ := sound
  have ink := cuts.isInk
  rw [same]
  obtain ⟨d, last⟩ : ∃ d, (c :: text).getLast? = some d := ⟨_, List.getLast?_cons⟩
  obtain ⟨front, whole⟩ := List.getLast?_eq_some_iff.mp last
  rw [last] at ink
  simp only [Option.all_some, Lexeme.isInk, Bool.and_eq_true, bne_iff_ne] at ink
  exact ⟨front, d, whole, ink⟩

/-! ## Pieces between words -/

namespace Lexeme

/-- The characters that the printer puts between words. -/
def isGap (d : Char) : Bool := d == ' ' || d == '\n' || d == '\\'

/-- A word ends in front of everything that the printer puts between words. -/
theorem ends_of_isGap {c : Char} {text : List Char} {piece : Piece}
    (cuts : Cuts c text piece text.length) {d : Char} (gap : isGap d = true) :
    ends piece (c :: text) d = true := by
  have none : operators.all (fun signs => signs.all fun d => !isGap d) = true := by rfl
  have cases : (d = ' ' ∨ d = '\n') ∨ d = '\\' := by simpa [isGap] using gap
  cases piece with
  | operator =>
      have clear : endsOperator (c :: text) d = true := by
        refine List.all_eq_true.mpr fun signs known => ?_
        rw [Bool.not_eq_true', ← Bool.not_eq_true, List.isPrefixOf_iff_prefix]
        intro front
        have free := List.all_eq_true.mp (List.all_eq_true.mp none signs known) d
          (front.subset (by simp))
        rw [gap] at free
        cases free
      rcases cases with (rfl | rfl) | rfl <;> simp [ends, clear]
  | word | number | string => rcases cases with (rfl | rfl) | rfl <;> rfl
  | newline | continuation | comment => rfl

section Steps

variable {m : Margin} {rest : List Char} {ls : List Lexeme}

theorem all_isSpace_replicate (gap : Nat) :
    (List.replicate gap ' ').all isSpace = true := by
  simp [isSpace]

theorem indentation_of_lineStart (within : m.lineStart = false) (c : Char) :
    m.indentation c = .ok ([], m) := by
  rw [Margin.indentation, within]
  rfl

/-- A word is scanned as one token, if it is read as what it is in front of the rest. -/
theorem Scans.word {w : Word} (sound : w.Sound) (kind : Word.kindOf w.piece w.text rest = w.kind)
    (within : m.lineStart = false) (gap : Nat)
    (next : rest.head?.all (ends w.piece w.text) = true)
    (scans : Scans ((m.skip (List.replicate gap ' ')).after w.piece w.text rest) rest ls) :
    Scans m (List.replicate gap ' ' ++ (w.text ++ rest))
      (.token (.mkAt w.kind (m.skip (List.replicate gap ' ')).pos w.text) :: ls) := by
  obtain ⟨c, text, same, cuts, _⟩ := sound
  rw [same] at next scans ⊢
  have code : w.piece.isCode = true := by
    unfold Word.piece
    split <;> rfl
  have token := lexeme?_of_isCode (m := m.skip (List.replicate gap ' ')) code (c :: text) rest
  have step := Scans.step (all_isSpace_replicate gap) cuts.isSpace
    (indentation_of_lineStart (m := m.skip (List.replicate gap ' ')) within c)
    (cuts.append next).pieceAt scans
  rw [token, ← same, kind] at step
  simpa [same] using step

/-- A line end inside brackets leaves no token. -/
theorem Scans.line (within : m.lineStart = false) (inside : 0 < m.depth) (gap : Nat)
    (scans : Scans ((m.skip (List.replicate gap ' ')).after .newline ['\n'] rest) rest ls) :
    Scans m (List.replicate gap ' ' ++ '\n' :: rest) ls := by
  have cut : pieceAt '\n' ([] ++ rest) = .ok (.newline, ([] : List Char).length) := rfl
  have step := Scans.step (all_isSpace_replicate gap) (by rfl)
    (indentation_of_lineStart (m := m.skip (List.replicate gap ' ')) within '\n') cut scans
  have none : (m.skip (List.replicate gap ' ')).lexeme? .newline ['\n'] rest = none :=
    if_neg (Nat.ne_of_gt inside)
  simpa [none] using step

/-- Joined lines leave no token. -/
theorem Scans.join (within : m.lineStart = false) (gap : Nat)
    (scans : Scans ((m.skip (List.replicate gap ' ')).after .continuation ['\\', '\n'] rest)
      rest ls) :
    Scans m (List.replicate gap ' ' ++ '\\' :: '\n' :: rest) ls := by
  have cut : pieceAt '\\' (['\n'] ++ rest) = .ok (.continuation, ['\n'].length) := rfl
  exact Scans.step (all_isSpace_replicate gap) (by rfl)
    (indentation_of_lineStart (m := m.skip (List.replicate gap ' ')) within '\\') cut scans

end Steps

/-- A word opens and closes the brackets that it is. -/
theorem Margin.after_word_depth (m : Margin) {w : Word} {rest : List Char}
    (kind : Word.kindOf w.piece w.text rest = w.kind) :
    (m.after w.piece w.text rest).depth = w.level m.depth := by
  rw [Margin.after_depth]
  split
  · rename_i operator
    rw [operator] at kind
    rw [Word.level, ← kind]
    rfl
  · rename_i other
    unfold Word.level
    split
    · rename_i sign same
      simp [Word.piece, same] at other
    · rfl

theorem Margin.after_word_lineStart (m : Margin) (w : Word) (rest : List Char) :
    (m.after w.piece w.text rest).lineStart = m.lineStart := by
  rw [Margin.after_lineStart, if_neg]
  unfold Word.piece
  split <;> nofun

/-- What stands behind the last scrap lets a word end. -/
def EndsScraps (xs : List Scrap) (rest : List Char) : Prop :=
  ∀ x, xs.getLast? = some x → ∀ w, x.mark = .word w → rest.head?.all (ends w.piece w.text) = true

theorem EndsScraps.tail {x : Scrap} {xs : List Scrap} {rest : List Char}
    (next : EndsScraps (x :: xs) rest) : EndsScraps xs rest := by
  intro y same
  refine next y ?_
  rw [List.getLast?_cons, same]
  rfl

/-- A word ends in front of the next scrap. -/
theorem head?_all_ends {w : Word} (sound : w.Sound) {gap d e : Nat} {xs : List Scrap}
    (nested : Nested d xs e) {rest : List Char}
    (chain : (⟨gap, .word w⟩ :: xs).IsChain (Scrap.Follows false))
    (sounds : ∀ x ∈ xs, ∀ w, x.mark = .word w → w.Sound)
    (next : EndsScraps (⟨gap, .word w⟩ :: xs) rest) :
    (Scrap.textOf xs ++ rest).head?.all (ends w.piece w.text) = true := by
  have gaps {d : Char} (between : isGap d = true) : ends w.piece w.text d = true := by
    obtain ⟨c, text, same, cuts, _⟩ := sound
    rw [same]
    exact ends_of_isGap cuts between
  cases xs with
  | nil => exact next _ rfl w rfl
  | cons y ys =>
      obtain ⟨space, mark⟩ := y
      cases space with
      | succ n => exact gaps rfl
      | zero =>
          cases mark with
          | line | join => exact gaps rfl
          | remark c => cases nested
          | word v =>
              have follows : ∀ d, v.text.head? = some d → w.admits false d = true :=
                (List.isChain_cons_cons.mp chain).1 rfl
              obtain ⟨c, text, same, _⟩ := sounds _ (List.mem_cons_self ..) v rfl
              have admits := follows c (by rw [same]; rfl)
              simp only [Word.admits, Bool.false_and, Bool.or_false] at admits
              simpa [Scrap.text, Mark.text, same] using admits

/-- The text of scraps is scanned as their words. -/
theorem Scans.scraps {d e : Nat} {xs : List Scrap} (nested : Nested d xs e) {m : Margin}
    (depth : m.depth = d) (within : m.lineStart = false) {rest : List Char}
    (chain : xs.IsChain (Scrap.Follows false))
    (sounds : ∀ x ∈ xs, ∀ w, x.mark = .word w → w.Sound) (next : EndsScraps xs rest) :
    ∃ m' : Margin, ∃ ts : List Token, ts.map Token.word = Scrap.wordsOf xs ∧ m'.depth = e ∧
      m'.lineStart = false ∧ m'.indents = m.indents ∧
        ∀ ls, Scans m' rest ls → Scans m (Scrap.textOf xs ++ rest) (ts.map Lexeme.token ++ ls) := by
  induction nested generalizing m with
  | nil => exact ⟨m, [], rfl, depth, within, rfl, fun _ scans => scans⟩
  | @word d e gap w xs stable more ih =>
      obtain ⟨sound, sounds⟩ := List.forall_mem_cons.mp sounds
      have stops := head?_all_ends (sound w rfl) more chain sounds next
      let m₁ := (m.skip (List.replicate gap ' ')).after w.piece w.text (Scrap.textOf xs ++ rest)
      have deep : m₁.depth = w.level d := by
        rw [← depth]
        exact Margin.after_word_depth _ (stable _)
      have still : m₁.lineStart = false := by
        rw [← within]
        exact Margin.after_word_lineStart _ w _
      obtain ⟨m', ts, words, ends, line, indents, scans⟩ :=
        ih deep still chain.tail sounds next.tail
      refine ⟨m', .mkAt w.kind (m.skip (List.replicate gap ' ')).pos w.text :: ts, ?_, ends, line,
        ?_, fun ls behind => ?_⟩
      · rw [List.map_cons, words]
        simp [Token.word, Token.mkAt, Scrap.wordsOf]
      · rw [indents]
        exact Margin.after_indents ..
      · have step := Scans.word (sound w rfl) (stable _) within gap stops (scans ls behind)
        simpa [Scrap.text, Mark.text] using step
  | @line d e gap xs inside more ih =>
      let m₁ := (m.skip (List.replicate gap ' ')).after .newline ['\n'] (Scrap.textOf xs ++ rest)
      have deep : m₁.depth = d := by
        rw [← depth]
        exact Margin.after_depth ..
      have still : m₁.lineStart = false := by
        have start : m₁.lineStart = decide (m.depth = 0) := Margin.after_lineStart ..
        rw [start, depth, decide_eq_false (Nat.ne_of_gt inside)]
      obtain ⟨m', ts, words, ends, line, indents, scans⟩ := ih deep still chain.tail
        (List.forall_mem_cons.mp sounds).2 next.tail
      refine ⟨m', ts, words, ends, line, ?_, fun ls behind => ?_⟩
      · rw [indents]
        exact Margin.after_indents ..
      · have step := Scans.line within (depth ▸ inside) gap (scans ls behind)
        simpa [Scrap.text, Mark.text] using step
  | @join d e gap xs more ih =>
      let m₁ := (m.skip (List.replicate gap ' ')).after .continuation ['\\', '\n']
        (Scrap.textOf xs ++ rest)
      have deep : m₁.depth = d := by
        rw [← depth]
        exact Margin.after_depth ..
      have still : m₁.lineStart = false := by
        rw [← within]
        exact Margin.after_lineStart ..
      obtain ⟨m', ts, words, ends, line, indents, scans⟩ := ih deep still chain.tail
        (List.forall_mem_cons.mp sounds).2 next.tail
      refine ⟨m', ts, words, ends, line, ?_, fun ls behind => ?_⟩
      · rw [indents]
        exact Margin.after_indents ..
      · have step := Scans.join within gap (scans ls behind)
        simpa [Scrap.text, Mark.text] using step

/-- At the front of a source, a line without indentation calls for no layout token. -/
theorem Scans.ofInitial {c : Char} (solid : isSpace c = false) {rest : List Char} {ls : List Lexeme}
    (scans : Scans { Margin.initial with lineStart := false } (c :: rest) ls) :
    Scans .initial (c :: rest) ls := by
  have start (d : Char) : Margin.initial.indentation d =
      .ok ([], { Margin.initial with lineStart := false }) := by
    unfold Margin.indentation
    split_ifs <;> first | rfl | contradiction
  generalize source : c :: rest = all at scans
  generalize front : ({ Margin.initial with lineStart := false } : Margin) = m at scans
  cases scans with
  | finish white =>
      rw [← source, List.all_cons, solid] at white
      cases white
  | @step _ _ spaces _ _ d _ _ _ white solid' indentation cut next =>
      cases spaces with
      | nil =>
          subst front
          refine Scans.step white solid' ?_ cut next
          rw [indentation_of_lineStart rfl] at indentation
          rw [← indentation]
          exact start d
      | cons space spaces =>
          obtain ⟨rfl, _⟩ := List.cons.inj source
          rw [List.all_cons, solid] at white
          cases white

/-- A line end behind the last bracket ends the source. -/
theorem Scans.lastLine {m : Margin} (depth : m.depth = 0) (within : m.lineStart = false)
    (indents : m.indents = []) (gap : Nat) :
    ∃ line stop : Token, line.kind = .newline ∧ stop.kind = .eof ∧
      Scans m (List.replicate gap ' ' ++ ['\n']) [.token line, .token stop] := by
  let m₁ := m.skip (List.replicate gap ' ')
  let m₂ := m₁.after .newline ['\n'] []
  have token : m₁.lexeme? .newline ['\n'] [] = some (.token (.mkAt .newline m₁.pos ['\n'])) :=
    if_pos depth
  have none : m₂.indents = [] := by
    rw [← indents]
    exact Margin.after_indents ..
  have last : m₂.afterNewline = true := by
    show (m₁.after .newline ['\n'] []).afterNewline = true
    rw [Margin.after, token]
    rfl
  have cut : pieceAt '\n' ([] ++ []) = .ok (.newline, ([] : List Char).length) := rfl
  have scans := Scans.step (all_isSpace_replicate gap) (by rfl)
    (indentation_of_lineStart (m := m₁) within '\n') cut (.finish rfl)
  have finish : (m₂.skip []).finish = [m₂.layoutToken .eof] := by
    simp [Margin.finish, Margin.skip, last, none, Margin.layoutToken]
  rw [token, finish] at scans
  exact ⟨_, _, rfl, rfl, scans⟩

/-- The text of scraps on a line of its own is scanned as their words and a line end. Of the first
word it is asked only that it is read as what it is in front of the others. -/
theorem scan_scraps {xs : List Scrap} {w : Word} (gap : Nat)
    (kind : Word.kindOf w.piece w.text
      (Scrap.textOf xs ++ (List.replicate gap ' ' ++ ['\n'])) = w.kind)
    (nested : Nested (w.level 0) xs 0)
    (chain : (⟨0, .word w⟩ :: xs).IsChain (Scrap.Follows false))
    (sounds : ∀ x ∈ (⟨0, .word w⟩ :: xs : List Scrap), ∀ w, x.mark = .word w → w.Sound) :
    ∃ ts : List Token, ∃ line stop : Token,
      ts.map Token.word = Scrap.wordsOf (⟨0, .word w⟩ :: xs) ∧
      line.kind = .newline ∧ stop.kind = .eof ∧
        scan (Scrap.textOf (⟨0, .word w⟩ :: xs) ++ (List.replicate gap ' ' ++ ['\n'])) =
          .ok ((ts ++ [line, stop]).map Lexeme.token) := by
  have next : EndsScraps (⟨0, .word w⟩ :: xs) (List.replicate gap ' ' ++ ['\n']) := by
    intro x last v same
    obtain ⟨c, text, whole, cuts, _⟩ := sounds x (List.mem_of_getLast? last) v same
    rw [whole]
    cases gap <;> exact ends_of_isGap cuts rfl
  obtain ⟨sound, sounds⟩ := List.forall_mem_cons.mp sounds
  have sound := sound w rfl
  have stops := head?_all_ends sound nested chain sounds next
  let m : Margin := { Margin.initial with lineStart := false }
  obtain ⟨m', ts, words, depth, within, indents, scans⟩ := Scans.scraps nested
    (Margin.after_word_depth m kind) (Margin.after_word_lineStart m w _) chain.tail sounds next.tail
  obtain ⟨line, stop, isLine, isStop, final⟩ := Scans.lastLine depth within
    (indents.trans (Margin.after_indents ..)) gap
  have whole : Scans m _ _ := Scans.word sound kind rfl 0 stops (scans _ final)
  refine ⟨.mkAt w.kind (m.skip []).pos w.text :: ts, line, stop, ?_, isLine, isStop, ?_⟩
  · rw [List.map_cons, words]
    simp [Token.word, Token.mkAt, Scrap.wordsOf]
  obtain ⟨c, text, same, cuts, _⟩ := sound
  have first : Scrap.textOf (⟨0, .word w⟩ :: xs) = c :: (text ++ Scrap.textOf xs) := by
    simp [Scrap.text, Mark.text, same]
  rw [List.replicate_zero, List.nil_append, same, List.cons_append, ← List.append_assoc] at whole
  rw [first, List.cons_append, scan, (whole.ofInitial cuts.isSpace).scanFrom, List.map_append]
  simp [same]

end Lexeme

end Starlark
