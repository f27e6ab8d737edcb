import Starlark.Proofs.Sheet

/-!
# Seams

What stands side by side on a sheet. Two words without a blank between them are
words that a reader cuts apart again, and behind a comment a line ends before
anything else is written (`Sheet.Tidy`).

Printing keeps sheets tidy as long as each step finds the end of the sheet in a
state that allows it. `Edge` lists these states, and `Fits` is the triple of a
script between two of them. The rules for the parts of scripts stand here; what
the scripts of trees do is derived from them.
-/

set_option autoImplicit false

namespace Starlark

/-! ## Tidy sheets -/

/-- Whether a character may stand directly behind a word. Where `dots` is set, a
dot may stand behind a number. -/
def Word.admits (dots : Bool) (v : Word) (d : Char) : Bool :=
  Lexeme.ends v.piece v.text d || (dots && v.kind = .number && d == '.')

/-- Which scraps may stand behind each other. -/
def Scrap.Follows (dots : Bool) (x y : Scrap) : Prop :=
  match x.mark, y.mark with
  | .word v, .word w => y.gap = 0 → ∀ d, w.text.head? = some d → v.admits dots d = true
  | .remark _, .word _ | .remark _, .join => False
  | _, _ => True

/-- A sheet on which the scraps may stand as they do. -/
structure Sheet.Tidy (dots : Bool) (s : Sheet) : Prop where
  chain : s.scraps.IsChain (Scrap.Follows dots)
  sound : ∀ x ∈ s.scraps, ∀ w, x.mark = .word w → w.Sound

/-- What is known of the end of a sheet. -/
inductive Edge where
  /-- The last line is empty and nothing waits. -/
  | fresh
  /-- A word may follow that begins with one of the characters. -/
  | takes (p : Char → Bool)
  /-- The same, after a line break that may be due. -/
  | begins (p : Char → Bool)
  /-- A line break is due. -/
  | due
  /-- A line break is due, or else the last line is empty and nothing waits. -/
  | settled
  /-- Nothing is known. -/
  | any

/-- A word may follow that begins with one of the characters. -/
def Sheet.Takes (dots : Bool) (p : Char → Bool) (s : Sheet) : Prop :=
  s.due = false ∧ ∀ x, s.scraps.getLast? = some x →
    match x.mark with
    | .word v => s.gap = 0 → ∀ d, p d = true → v.admits dots d = true
    | .remark _ => False
    | _ => True

/-- The last line is empty and nothing waits. -/
def Sheet.Fresh (s : Sheet) : Prop := s.due = false ∧ s.pending = [] ∧ s.isFresh = true

/-- A sheet whose end is as the edge says. -/
def Edge.Holds (dots : Bool) : Edge → Sheet → Prop
  | fresh, s => s.Fresh
  | takes p, s => s.Takes dots p
  | begins p, s => s.due = true ∨ s.Takes dots p
  | due, s => s.due = true
  | settled, s => s.due = true ∨ s.Fresh
  | any, _ => True

/-- The characters that every edge allows when it allows any word. -/
def everyChar : Char → Bool := fun _ => true

namespace Sheet

variable {dots : Bool} {s : Sheet} {p q : Char → Bool}

theorem Fresh.takes (fresh : s.Fresh) : s.Takes dots p := by
  refine ⟨fresh.1, fun x last => ?_⟩
  have ends : x.mark.endsLine = true := by simpa [isFresh, last] using fresh.2.2
  cases mark : x.mark with
  | word | remark => simp [mark, Mark.endsLine] at ends
  | line | join => trivial

theorem Takes.mono (takes : s.Takes dots p) (less : ∀ d, q d = true → p d = true) :
    s.Takes dots q := by
  refine ⟨takes.1, fun x last => ?_⟩
  have here := takes.2 x last
  cases mark : x.mark with
  | word v =>
      rw [mark] at here
      exact fun close d allowed => here close d (less d allowed)
  | remark => rwa [mark] at here
  | line | join => trivial

/-! ### Steps -/

theorem Tidy.put {m : Mark} (tidy : s.Tidy dots)
    (follows : ∀ x, s.scraps.getLast? = some x → x.Follows dots ⟨s.gap, m⟩)
    (sound : ∀ w, m = .word w → w.Sound) : (s.put m).Tidy dots := by
  refine ⟨?_, List.forall_mem_append.mpr ⟨tidy.sound, List.forall_mem_singleton.mpr sound⟩⟩
  refine List.isChain_append.mpr ⟨tidy.chain, List.isChain_singleton _, ?_⟩
  intro x last y first
  cases first
  exact follows x last

theorem Tidy.put_line (tidy : s.Tidy dots) : (s.put .line).Tidy dots := by
  refine tidy.put (fun x _ => ?_) (fun _ same => nomatch same)
  unfold Scrap.Follows
  cases x.mark <;> trivial

theorem Tidy.put_remark (tidy : s.Tidy dots) (c : Comment) : (s.put (.remark c)).Tidy dots := by
  refine tidy.put (fun x _ => ?_) (fun _ same => nomatch same)
  unfold Scrap.Follows
  cases x.mark <;> trivial

theorem Tidy.put_join (tidy : s.Tidy dots) (takes : s.Takes dots p) :
    (s.put .join).Tidy dots := by
  refine tidy.put (fun x last => ?_) (fun _ same => nomatch same)
  have here := takes.2 x last
  unfold Scrap.Follows
  cases mark : x.mark with
  | remark => rw [mark] at here; exact here
  | word | line | join => trivial

/-- A sheet stays tidy when a word is put down that may stand there. -/
theorem Tidy.put_word {w : Word} (tidy : s.Tidy dots) (takes : s.Takes dots p) (sound : w.Sound)
    (first : w.text.head?.all p = true) : (s.put (.word w)).Tidy dots := by
  refine tidy.put (fun x last => ?_) (fun _ same => by cases same; exact sound)
  have here := takes.2 x last
  unfold Scrap.Follows
  cases mark : x.mark with
  | word v =>
      rw [mark] at here
      exact fun close d head => here close d (by rw [head] at first; exact first)
  | remark => rw [mark] at here; exact here
  | line | join => trivial

/-- Only the scraps count. -/
theorem Tidy.of_scraps {t : Sheet} (tidy : s.Tidy dots) (same : t.scraps = s.scraps) :
    t.Tidy dots := ⟨same ▸ tidy.chain, same ▸ tidy.sound⟩

theorem Tidy.lineBreak (tidy : s.Tidy dots) : s.lineBreak.Tidy dots :=
  (tidy.of_scraps (t := s.trim) rfl).put_line.of_scraps rfl

/-- What holds while the comments that wait are written holds at the end. -/
theorem flush_induction {P : Sheet → Prop} (nothing : s.pending = [] → P s)
    (first : ∀ c, P ((({ s with pending := [] } : Sheet).pad 2).put (.remark c)))
    (more : ∀ t c, P t → P (t.lineBreak.put (.remark c))) : P s.flush := by
  unfold flush
  split
  next waits => exact nothing waits
  next c rest _ => exact List.foldlRecOn rest _ (first c) fun t holds d _ => more t d holds

theorem Tidy.flush (tidy : s.Tidy dots) : s.flush.Tidy dots := by
  refine flush_induction (fun _ => tidy) (fun c => ?_) (fun t c tidy => tidy.lineBreak.put_remark c)
  exact Tidy.put_remark (s := ({ s with pending := [] } : Sheet).pad 2) (tidy.of_scraps rfl) c

theorem Tidy.newline (tidy : s.Tidy dots) : s.newline.Tidy dots :=
  (tidy.of_scraps (t := { s with due := false }) rfl).flush.lineBreak

theorem flush_pending (s : Sheet) : s.flush.pending = [] :=
  flush_induction (P := fun t => t.pending = []) id (fun _ => rfl) fun _ _ none => none

theorem flush_due (s : Sheet) : s.flush.due = s.due :=
  flush_induction (P := fun t => t.due = s.due) (fun _ => rfl) (fun _ => rfl) fun _ _ same => same

/-- A line break leaves an empty line, and nothing waits. -/
theorem fresh_newline (s : Sheet) : s.newline.Fresh := by
  refine ⟨?_, ?_, ?_⟩
  · exact flush_due { s with due := false }
  · exact flush_pending { s with due := false }
  · simp [newline, lineBreak, isFresh, put, pad, Mark.endsLine]

end Sheet

/-! ## Triples -/

/-- A script that leads from one edge to another and keeps sheets tidy. -/
def Fits (dots : Bool) (e : Edge) (script : Script) (e' : Edge) : Prop :=
  ∀ s : Sheet, s.Tidy dots → e.Holds dots s →
    (script.write s).Tidy dots ∧ e'.Holds dots (script.write s)

/-- An edge says at least as much as another. -/
def Edge.Implies (dots : Bool) (e e' : Edge) : Prop :=
  ∀ s : Sheet, e.Holds dots s → e'.Holds dots s

namespace Fits

variable {dots : Bool} {e e' e'' : Edge} {script next body : Script} {p q : Char → Bool}

theorem seq (first : Fits dots e script e') (second : Fits dots e' next e'') :
    Fits dots e (script ++ next) e'' := by
  intro s tidy holds
  obtain ⟨tidy, holds⟩ := first s tidy holds
  exact second _ tidy holds

theorem done : Fits dots e .done e := fun _ tidy holds => ⟨tidy, holds⟩

theorem before (implies : e.Implies dots e') (fits : Fits dots e' script e'') :
    Fits dots e script e'' :=
  fun s tidy holds => fits s tidy (implies s holds)

theorem after (fits : Fits dots e script e') (implies : e'.Implies dots e'') :
    Fits dots e script e'' := by
  intro s tidy holds
  obtain ⟨tidy, holds⟩ := fits s tidy holds
  exact ⟨tidy, implies _ holds⟩

/-- A step after which nothing is known of the end. -/
theorem forget (fits : Fits dots e script e') : Fits dots e script .any :=
  fits.after fun _ _ => trivial

theorem onlyIf {b : Bool} (fits : b = true → Fits dots e script e')
    (skips : b = false → e.Implies dots e') : Fits dots e (.onlyIf b script) e' := by
  cases b with
  | true => exact fits rfl
  | false => exact done.after (skips rfl)

theorem word {w : Word} (sound : w.Sound) (first : w.text.head?.all p = true) :
    Fits dots (.takes p) (.word w) (.takes (w.admits dots)) := by
  intro s tidy takes
  refine ⟨tidy.put_word takes sound first, takes.1, fun x last => ?_⟩
  have same : x = ⟨s.gap, .word w⟩ := by simpa [Script.write, Sheet.put] using last.symm
  rw [same]
  exact fun _ d allowed => allowed

theorem blank : Fits dots (.takes p) .blank (.takes everyChar) := by
  intro s tidy takes
  refine ⟨tidy.of_scraps rfl, takes.1, fun x last => ?_⟩
  have here := takes.2 x last
  cases mark : x.mark with
  | word => exact fun none => absurd none (Nat.succ_ne_zero _)
  | remark => rw [mark] at here; exact here
  | line | join => trivial

theorem note {token : String} : Fits dots e (.note token) e := fun _ tidy holds => ⟨tidy, holds⟩

theorem queue {cs : List Comment} : Fits dots (.takes p) (.queue cs) (.takes p) :=
  fun _ tidy takes => ⟨tidy.of_scraps rfl, takes⟩

theorem newline : Fits dots e .newline .fresh :=
  fun s tidy _ => ⟨tidy.newline, s.fresh_newline⟩

/-- Ending a line that is due leads to a fresh line. -/
theorem breakIfDue (fresh : Edge.fresh.Implies dots e')
    (calm : ∀ s, e.Holds dots s → s.due = false → e'.Holds dots s) :
    Fits dots e .breakIfDue e' := by
  intro s tidy holds
  show (s.breakIfDue).Tidy dots ∧ e'.Holds dots s.breakIfDue
  unfold Sheet.breakIfDue
  split
  next => exact ⟨tidy.newline, fresh _ s.fresh_newline⟩
  next free => exact ⟨tidy, calm s holds (by simpa using free)⟩

theorem breakInside : Fits dots (.takes p) .breakInside (.takes everyChar) := by
  intro s tidy takes
  show (s.breakInside).Tidy dots ∧ Edge.Holds dots (.takes everyChar) s.breakInside
  unfold Sheet.breakInside
  split
  · have joined : ((s.pad 1).put .join).Tidy dots := by
      refine Sheet.Tidy.put_join (s := s.pad 1) (p := everyChar) (tidy.of_scraps rfl) ?_
      exact (blank s tidy takes).2
    refine ⟨joined.of_scraps rfl, takes.1, fun x last => ?_⟩
    obtain rfl : x = ⟨s.gap + 1, .join⟩ := by simpa [Sheet.put, Sheet.pad] using last.symm
    trivial
  · exact ⟨tidy.newline, s.fresh_newline.takes⟩

theorem remarks_cons {c : Comment} {cs : List Comment} :
    Fits dots e (.remarks (c :: cs)) .fresh := by
  intro s tidy _
  refine List.foldlRecOn cs (motive := fun t : Sheet => t.Tidy dots ∧ t.Fresh) _
    ⟨(tidy.put_remark c).newline, Sheet.fresh_newline _⟩ fun t holds d _ => ?_
  exact ⟨(holds.1.put_remark d).newline, Sheet.fresh_newline _⟩

/-- Comments above a node leave the words behind them free. -/
theorem leading {cs : List Comment} : Fits dots (.takes p) (.leading cs) (.takes p) := by
  intro s tidy takes
  show (s.leading cs).Tidy dots ∧ Edge.Holds dots (.takes p) (s.leading cs)
  unfold Sheet.leading
  cases cs with
  | nil => exact ⟨tidy, takes⟩
  | cons c cs =>
      have start :
          ((if s.trim.isFresh then s.trim else s.trim.put .line).pad s.margin).Tidy dots := by
        split
        · exact tidy.of_scraps rfl
        · exact (Sheet.Tidy.put_line (s := s.trim) (tidy.of_scraps rfl)).of_scraps rfl
      obtain ⟨tidy, fresh⟩ := @remarks_cons dots .any c cs _ start trivial
      exact ⟨tidy, Sheet.Fresh.takes fresh⟩

theorem closing {cs : List Comment} : Fits dots e (.closing cs) .any := by
  intro s tidy _
  refine ⟨?_, trivial⟩
  exact List.foldlRecOn cs (motive := fun t : Sheet => t.Tidy dots) _ tidy fun t tidy d _ =>
    tidy.newline.put_remark d

theorem room : Fits dots e .room .any := by
  intro s tidy _
  refine ⟨?_, trivial⟩
  show (if s.pending.isEmpty then s else (s.put .line).pad (s.margin - 2)).Tidy dots
  split
  · exact tidy
  · exact tidy.put_line.of_scraps rfl

end Fits

theorem Edge.holds_of_margin {dots : Bool} {e : Edge} {s : Sheet} {margin : Nat} :
    e.Holds dots { s with margin := margin } ↔ e.Holds dots s := by
  cases e <;> exact Iff.rfl

theorem Edge.holds_of_depth {dots : Bool} {e : Edge} {s : Sheet} {depth : Nat} :
    e.Holds dots { s with depth := depth } ↔ e.Holds dots s := by
  cases e <;> exact Iff.rfl

namespace Fits

variable {dots : Bool} {e e' : Edge} {body : Script}

theorem marginAt (margin : Sheet → Nat) (fits : Fits dots e body e') (s : Sheet)
    (tidy : s.Tidy dots) (holds : e.Holds dots s) :
    (s.marginAt (margin s) body.write).Tidy dots ∧
      e'.Holds dots (s.marginAt (margin s) body.write) := by
  obtain ⟨inner, after⟩ := fits { s with margin := margin s } (tidy.of_scraps rfl)
    (Edge.holds_of_margin.mpr holds)
  exact ⟨inner.of_scraps rfl, Edge.holds_of_margin.mpr after⟩

theorem hang {breaks : Bool} {extra : Nat} (fits : Fits dots e body e') :
    Fits dots e (.hang breaks extra body) e' :=
  fits.marginAt fun s => if breaks then s.column + extra else s.margin

theorem indented (fits : Fits dots e body e') : Fits dots e (.indented body) e' :=
  fits.marginAt fun s => s.margin + indentWidth

theorem enclosed (fits : Fits dots e body e') : Fits dots e (.enclosed body) e' := by
  intro s tidy holds
  obtain ⟨inner, after⟩ := fits { s with depth := s.depth + 1 } (tidy.of_scraps rfl)
    (Edge.holds_of_depth.mpr holds)
  exact ⟨inner.of_scraps rfl, Edge.holds_of_depth.mpr after⟩

end Fits

end Starlark
