import Starlark.Proofs.Rescan
import Starlark.Proofs.Seam.Node

/-!
# Clean lines

A text is clean when none of its lines ends in a blank, when it begins with no
empty line, and when no two empty lines follow each other (`CleanLines`).

A page ends its lines in five ways, and only some of them take blanks back or
look at what stands above. So whether a line may end depends on how the text
ends, on the blanks behind it, and on whether a line break is due. `Stance` lists
the cases that printing tells apart, and `Moves` is the triple of a script
between two of them. The rules for the parts of scripts stand here.
-/

set_option autoImplicit false

namespace Starlark

/-! ## Texts -/

/-- A text on one line that ends in no blank. -/
structure OneLine (text : List Char) : Prop where
  firm : Firm text
  line : '\n' ∉ text

/-- A word other than a string stands on one line. -/
theorem Word.Sound.oneLine {w : Word} (sound : w.Sound) (other : w.piece ≠ .string) :
    OneLine w.text := by
  refine ⟨sound.firm, fun line => ?_⟩
  obtain ⟨c, text, same, cuts, _⟩ := sound
  rw [same] at line
  have ink := cuts.forall_isInk other '\n' line
  cases ink

/-- Lines that end in no blank. The first is not empty, and no two that follow
each other are. -/
structure CleanLines (text : List Char) : Prop where
  start : ¬ ['\n'] <+: text
  blank : ¬ [' ', '\n'] <:+: text
  empty : ¬ ['\n', '\n', '\n'] <:+: text

/-- How a text ends: in `k` line ends behind a character that is seen. An empty
text counts as one that ends in an empty line. -/
def EndsWith (k : Nat) (text : List Char) : Prop :=
  text = [] ∧ k = 2 ∨
    ∃ front c, text = front ++ c :: List.replicate k '\n' ∧ c ≠ ' ' ∧ c ≠ '\n'

namespace CleanLines

variable {text : List Char}

theorem nil : CleanLines [] := ⟨by decide, by decide, by decide⟩

/-- A character that ends no line may stand anywhere. -/
theorem concat (clean : CleanLines text) {c : Char} (seen : c ≠ '\n') :
    CleanLines (text ++ [c]) where
  start front := by
    rcases List.prefix_concat_iff.mp front with same | front
    · cases text with
      | nil => exact seen (by simpa using same.symm)
      | cons d text => simp at same
    · exact clean.start front
  blank inside := by
    rcases List.infix_concat_iff.mp inside with last | inside
    · obtain ⟨front, same⟩ := last
      have ends := congrArg List.getLast? same
      simp at ends
      exact seen ends.symm
    · exact clean.blank inside
  empty inside := by
    rcases List.infix_concat_iff.mp inside with last | inside
    · obtain ⟨front, same⟩ := last
      have ends := congrArg List.getLast? same
      simp at ends
      exact seen ends.symm
    · exact clean.empty inside

theorem append (clean : CleanLines text) {more : List Char} (line : '\n' ∉ more) :
    CleanLines (text ++ more) := by
  induction more generalizing text with
  | nil => rwa [List.append_nil]
  | cons c more ih =>
      obtain ⟨seen, rest⟩ := not_or.mp (mt List.mem_cons.mpr line)
      rw [List.append_cons]
      exact ih (clean.concat (Ne.symm seen)) rest

/-- A line may end behind a character that is seen, and once more behind that. -/
theorem line {k : Nat} (clean : CleanLines text) (ends : EndsWith k text) (less : k < 2) :
    CleanLines (text ++ ['\n']) ∧ EndsWith (k + 1) (text ++ ['\n']) := by
  obtain ⟨_, rfl⟩ | ⟨front, c, rfl, blank, seen⟩ := ends
  · exact absurd less (Nat.lt_irrefl 2)
  have back : (front ++ c :: List.replicate k '\n' ++ ['\n']).reverse =
      '\n' :: (List.replicate k '\n' ++ c :: front.reverse) := by simp
  have few : k = 0 ∨ k = 1 := by omega
  refine ⟨⟨fun start => ?_, fun inside => ?_, fun inside => ?_⟩, .inr ⟨front, c, ?_, blank, seen⟩⟩
  · rcases List.prefix_concat_iff.mp start with same | start
    · have length := congrArg List.length same
      simp only [List.length_append, List.length_cons, List.length_nil] at length
      omega
    · exact clean.start start
  · rcases List.infix_concat_iff.mp inside with last | inside
    · rw [← List.reverse_prefix, back] at last
      rcases few with rfl | rfl
      · simp [blank.symm] at last
      · simp at last
    · exact clean.blank inside
  · rcases List.infix_concat_iff.mp inside with last | inside
    · rw [← List.reverse_prefix, back] at last
      rcases few with rfl | rfl <;> simp [seen.symm] at last
    · exact clean.empty inside
  · rw [List.replicate_succ', List.append_assoc, List.cons_append]

end CleanLines

/-! ## Scraps -/

/-- A comment that is printed on one line. -/
def Comment.OneLine (c : Comment) : Prop := Starlark.OneLine (Mark.remarkText c)

/-- A mark that writes a text on one line. -/
def Mark.OneLine : Mark → Prop
  | word w => Starlark.OneLine w.text
  | remark c => c.OneLine
  | line | join => False

theorem Comments.forall_mem_toList {p : Comment → Prop} {comments : Comments} :
    (∀ c ∈ comments.toList, p c) ↔ (∀ c ∈ comments.before, p c) ∧ (∀ c ∈ comments.suffix, p c) ∧
      ∀ c ∈ comments.after, p c := by
  rw [toList, List.forall_mem_append, List.forall_mem_append, and_assoc]

namespace Mark.OneLine

theorem text : ∀ {m : Mark}, m.OneLine → Starlark.OneLine m.text
  | .word _, fits | .remark _, fits => fits

theorem endsLine : ∀ {m : Mark}, m.OneLine → m.endsLine = false
  | .word _, _ | .remark _, _ => rfl

end Mark.OneLine

/-- Scraps that are clean lines and end in `k` line ends. -/
inductive Scrap.Lined : List Scrap → Nat → Prop
  | nil : Lined [] 2
  | text {xs : List Scrap} {k gap : Nat} {m : Mark} (above : Lined xs k) (fits : m.OneLine) :
      Lined (xs ++ [⟨gap, m⟩]) 0
  | join {xs : List Scrap} {k gap : Nat} (above : Lined xs k) : Lined (xs ++ [⟨gap, .join⟩]) 1
  | line {xs : List Scrap} {k : Nat} (above : Lined xs k) (less : k < 2) :
      Lined (xs ++ [⟨0, .line⟩]) (k + 1)

namespace Scrap.Lined

variable {xs : List Scrap} {k : Nat}

/-- What has been written ends the last line or does not. -/
theorem isFresh_iff (lined : Lined xs k) :
    xs.getLast?.all (fun x => x.mark.endsLine) = true ↔ 0 < k := by
  cases lined with
  | nil => simp
  | text _ fits => simp [fits.endsLine]
  | join => simp [Mark.endsLine]
  | line => simp [Mark.endsLine]

/-- The text of such scraps is clean. -/
theorem clean (lined : Lined xs k) : CleanLines (textOf xs) ∧ EndsWith k (textOf xs) := by
  induction lined with
  | nil => exact ⟨.nil, .inl ⟨rfl, rfl⟩⟩
  | @text xs _ gap m _ fits ih =>
      obtain ⟨front, c, same, blank, seen⟩ := fits.text.firm
      rw [textOf_append, textOf_cons, textOf_nil, List.append_nil, Scrap.text, ← List.append_assoc]
      refine ⟨(ih.1.append ?_).append fits.text.line,
        .inr ⟨textOf xs ++ List.replicate gap ' ' ++ front, c, ?_, blank, seen⟩⟩
      · simp
      · simp [same]
  | @join xs _ gap _ ih =>
      have joined : CleanLines (textOf xs ++ (List.replicate gap ' ' ++ ['\\'])) :=
        ih.1.append (by simp)
      have ends : EndsWith 0 (textOf xs ++ (List.replicate gap ' ' ++ ['\\'])) :=
        .inr ⟨textOf xs ++ List.replicate gap ' ', '\\', by simp, by decide, by decide⟩
      simpa [Scrap.text, Mark.text] using joined.line ends (by decide)
  | line _ less ih => simpa [Scrap.text, Mark.text] using ih.1.line ih.2 less

end Scrap.Lined

/-! ## Stances -/

/-- How a sheet ends, as far as lines go. -/
inductive Stance where
  /-- Something may be written. -/
  | ready
  /-- The line may end. -/
  | free
  /-- Something stands on the last line. -/
  | begun
  /-- Something stands on the last line, without a blank behind it. -/
  | shut
  /-- Something stands on the last line, and a line break is due. -/
  | ended
  /-- A line has just ended. -/
  | fresh
  /-- The same, unless nothing has been written. -/
  | settled

/-- Whether a stance says nothing of the margin. -/
def Stance.isLoose : Stance → Bool
  | fresh | settled => false
  | _ => true

open Scrap (Lined)

/-- A sheet that ends as the stance says. -/
def Stance.At : Stance → Sheet → Prop
  | ready, s => ∃ k, Lined s.scraps k ∧ (s.due = true → k < 2)
  | free, s => ∃ k, Lined s.scraps k ∧ k < 2
  | begun, s => Lined s.scraps 0
  | shut, s => Lined s.scraps 0 ∧ s.gap = 0
  | ended, s => Lined s.scraps 0 ∧ s.due = true
  | fresh, s => Lined s.scraps 1 ∧ s.due = false ∧ s.gap = s.margin
  | settled, s => (s.scraps = [] ∨ Lined s.scraps 1) ∧ s.due = false ∧ s.gap = s.margin

/-- The same, where the comments that wait are each on one line. -/
structure Stance.Holds (e : Stance) (s : Sheet) : Prop where
  stands : e.At s
  waiting : ∀ c ∈ s.pending, c.OneLine

/-- A stance says at least as much as another. -/
def Stance.Implies (e e' : Stance) : Prop := ∀ s : Sheet, e.At s → e'.At s

namespace Stance

theorem Implies.refl (e : Stance) : e.Implies e := fun _ stands => stands

theorem free_ready : free.Implies ready := fun _ ⟨k, lined, less⟩ => ⟨k, lined, fun _ => less⟩

theorem begun_free : begun.Implies free := fun _ lined => ⟨0, lined, by decide⟩

theorem begun_ready : begun.Implies ready := fun s lined => free_ready s (begun_free s lined)

theorem shut_begun : shut.Implies begun := fun _ stands => stands.1

theorem shut_ready : shut.Implies ready := fun s stands => begun_ready s stands.1

theorem ended_begun : ended.Implies begun := fun _ stands => stands.1

theorem fresh_free : fresh.Implies free := fun _ stands => ⟨1, stands.1, by decide⟩

theorem fresh_ready : fresh.Implies ready := fun s stands => free_ready s (fresh_free s stands)

theorem fresh_settled : fresh.Implies settled := fun _ stands => ⟨.inr stands.1, stands.2⟩

theorem settled_ready : settled.Implies ready := by
  rintro s ⟨nothing | lined, due, _⟩
  · refine ⟨2, nothing ▸ .nil, fun owed => ?_⟩
    rw [due] at owed
    cases owed
  · exact ⟨1, lined, fun _ => by decide⟩

end Stance

/-! ## Steps -/

namespace Sheet

variable {s : Sheet} {k : Nat}

/-- The comments that wait are written behind what stands on the line. -/
theorem lined_flush (lined : Lined s.scraps k) (waiting : ∀ c ∈ s.pending, c.OneLine) :
    ∃ j ≤ k, Lined s.flush.scraps j := by
  unfold flush
  split
  next => exact ⟨k, le_rfl, lined⟩
  next c rest waits =>
    rw [waits] at waiting
    obtain ⟨first, others⟩ := List.forall_mem_cons.mp waiting
    refine ⟨0, Nat.zero_le k, ?_⟩
    refine List.foldlRecOn rest (motive := fun t : Sheet => Lined t.scraps 0) _
      (lined.text (m := .remark c) first) fun t above d member => ?_
    exact (above.line (by decide)).text (m := .remark d) (others d member)

theorem lined_newline (lined : Lined s.scraps k) (less : k < 2)
    (waiting : ∀ c ∈ s.pending, c.OneLine) : ∃ j ≤ k, Lined s.newline.scraps (j + 1) := by
  obtain ⟨j, le, above⟩ := lined_flush (s := { s with due := false }) lined waiting
  exact ⟨j, le, above.line (by omega)⟩

theorem gap_newline (s : Sheet) : s.newline.gap = s.newline.margin := Nat.zero_add _

/-- Behind something that stands on the last line, the line ends. -/
theorem fresh_of_lined (lined : Lined s.scraps 0) (waiting : ∀ c ∈ s.pending, c.OneLine) :
    Stance.fresh.Holds s.newline := by
  obtain ⟨j, le, above⟩ := lined_newline lined (by decide) waiting
  obtain rfl : j = 0 := Nat.le_zero.mp le
  have fresh := s.fresh_newline
  exact ⟨⟨above, fresh.1, s.gap_newline⟩, by rw [fresh.2.1]; nofun⟩

theorem ready_of_lined (lined : Lined s.scraps k) (less : k < 2)
    (waiting : ∀ c ∈ s.pending, c.OneLine) : Stance.ready.Holds s.newline := by
  obtain ⟨j, _, above⟩ := lined_newline lined less waiting
  have fresh := s.fresh_newline
  exact ⟨⟨_, above, fun due => by rw [fresh.1] at due; cases due⟩, by rw [fresh.2.1]; nofun⟩

end Sheet

/-! ## Triples -/

/-- A script that moves from one stance to another and writes nothing that has a
line end in it. -/
structure Moves (e : Stance) (script : Script) (e' : Stance) : Prop where
  words : ∀ w ∈ script.words, OneLine w.text
  comments : ∀ c ∈ script.comments, c.OneLine
  holds : ∀ s : Sheet, e.Holds s → e'.Holds (script.write s)

namespace Moves

variable {e e' e'' : Stance} {script next body : Script} {cs : List Comment}

theorem seq (first : Moves e script e') (second : Moves e' next e'') :
    Moves e (script ++ next) e'' where
  words := List.forall_mem_append.mpr ⟨first.words, second.words⟩
  comments := List.forall_mem_append.mpr ⟨first.comments, second.comments⟩
  holds s holds := second.holds _ (first.holds s holds)

theorem done : Moves e .done e := ⟨nofun, nofun, fun _ holds => holds⟩

theorem before (implies : e.Implies e') (moves : Moves e' script e'') : Moves e script e'' :=
  { moves with holds := fun s holds => moves.holds s ⟨implies s holds.stands, holds.waiting⟩ }

theorem after (moves : Moves e script e') (implies : e'.Implies e'') : Moves e script e'' :=
  { moves with
    holds := fun s holds =>
      have next := moves.holds s holds
      ⟨implies _ next.stands, next.waiting⟩ }

theorem onlyIf {b : Bool} (moves : Moves e script e') (skips : e.Implies e') :
    Moves e (.onlyIf b script) e' := by
  cases b with
  | true => exact moves
  | false => exact done.after skips

theorem word {w : Word} (line : OneLine w.text) : Moves .ready (.word w) .shut where
  words := List.forall_mem_singleton.mpr line
  comments := nofun
  holds := by
    rintro s ⟨⟨k, lined, _⟩, waiting⟩
    exact ⟨⟨lined.text (m := .word w) line, rfl⟩, waiting⟩

theorem key (k : Keyword) : Moves .ready (.key k) .shut :=
  word ((Word.sound_keyword k).oneLine nofun)

theorem mark (x : Symbol) : Moves .ready (.mark x) .shut :=
  word ((Word.sound_symbol x).oneLine nofun)

/-- A symbol behind something. -/
theorem sign (x : Symbol) : Moves .begun (.mark x) .begun :=
  ((mark x).before Stance.begun_ready).after Stance.shut_begun

theorem blank : Moves .begun .blank .begun :=
  ⟨nofun, nofun, fun _ holds => ⟨holds.stands, holds.waiting⟩⟩

theorem note {token : String} : Moves e (.note token) e := ⟨nofun, nofun, fun _ holds => holds⟩

theorem queue (lines : ∀ c ∈ cs, c.OneLine) : Moves e (.queue cs) e where
  words := nofun
  comments := lines
  holds s holds := by
    refine ⟨?_, List.forall_mem_append.mpr ⟨holds.waiting, lines⟩⟩
    cases e <;> exact holds.stands

theorem newline : Moves .begun .newline .fresh :=
  ⟨nofun, nofun, fun _ holds => Sheet.fresh_of_lined holds.stands holds.waiting⟩

theorem newline_free : Moves .free .newline .ready where
  words := nofun
  comments := nofun
  holds := by
    rintro s ⟨⟨k, lined, less⟩, waiting⟩
    exact Sheet.ready_of_lined lined less waiting

theorem softBreak : Moves .begun .softBreak .ended :=
  ⟨nofun, nofun, fun _ holds => ⟨⟨holds.stands, rfl⟩, holds.waiting⟩⟩

/-- Ending the line if that is due leaves no empty line too many. -/
theorem breakIfDue : Moves .ready .breakIfDue .ready where
  words := nofun
  comments := nofun
  holds := by
    rintro s ⟨⟨k, lined, less⟩, waiting⟩
    show Stance.ready.Holds (if s.due then s.newline else s)
    split
    next due => exact Sheet.ready_of_lined lined (less due) waiting
    next => exact ⟨⟨k, lined, less⟩, waiting⟩

theorem breakIfDue_ended : Moves .ended .breakIfDue .fresh where
  words := nofun
  comments := nofun
  holds := by
    rintro s ⟨⟨lined, due⟩, waiting⟩
    show Stance.fresh.Holds (if s.due then s.newline else s)
    rw [if_pos due]
    exact Sheet.fresh_of_lined lined waiting

theorem breakIfDue_settled : Moves .settled .breakIfDue .settled where
  words := nofun
  comments := nofun
  holds s holds := by
    show Stance.settled.Holds (if s.due then s.newline else s)
    rw [holds.stands.2.1]
    exact holds

/-- A line that breaks inside an expression ends in no blank, even behind a backslash. -/
theorem breakInside : Moves .begun .breakInside .free where
  words := nofun
  comments := nofun
  holds := by
    rintro s ⟨lined, waiting⟩
    show Stance.free.Holds
      (if s.depth = 0 then ((s.pad 1).put .join).pad s.margin else s.newline)
    split
    · exact ⟨⟨1, Lined.join lined, by decide⟩, waiting⟩
    · have fresh := Sheet.fresh_of_lined lined waiting
      exact ⟨Stance.fresh_free _ fresh.stands, fresh.waiting⟩

/-- A comment and the end of its line. -/
theorem holds_remark {s : Sheet} {c : Comment} (holds : Stance.ready.Holds s) (line : c.OneLine) :
    Stance.fresh.Holds (s.put (.remark c)).newline := by
  obtain ⟨⟨k, lined, _⟩, waiting⟩ := holds
  exact Sheet.fresh_of_lined (lined.text (m := .remark c) line) waiting

theorem remarks_nil : Moves e (.remarks []) e := ⟨nofun, nofun, fun _ holds => holds⟩

/-- Comments on lines that they end leave a line that has just ended. -/
theorem remarks_cons {c : Comment} (lines : ∀ d ∈ c :: cs, d.OneLine) :
    Moves .ready (.remarks (c :: cs)) .fresh where
  words := nofun
  comments := lines
  holds s holds := by
    obtain ⟨first, others⟩ := List.forall_mem_cons.mp lines
    refine List.foldlRecOn cs (motive := Stance.fresh.Holds) _ (holds_remark holds first)
      fun t above d member => ?_
    exact holds_remark ⟨Stance.fresh_ready t above.stands, above.waiting⟩ (others d member)

theorem remarks (lines : ∀ c ∈ cs, c.OneLine) (calm : e.Implies .ready)
    (fresh : Stance.fresh.Implies e) : Moves e (.remarks cs) e := by
  cases cs with
  | nil => exact remarks_nil
  | cons c cs => exact ((remarks_cons lines).before calm).after fresh

/-- Comments above a node keep the lines clean, each being on one line. -/
theorem leading (lines : ∀ c ∈ cs, c.OneLine) : Moves .ready (.leading cs) .ready where
  words := nofun
  comments := lines
  holds := by
    rintro s ⟨⟨k, lined, less⟩, waiting⟩
    show Stance.ready.Holds (s.leading cs)
    unfold Sheet.leading
    cases cs with
    | nil => exact ⟨⟨k, lined, less⟩, waiting⟩
    | cons c cs =>
        have start : Stance.ready.Holds
            ((if s.trim.isFresh then s.trim else s.trim.put .line).pad s.margin) := by
          have fresh := lined.isFresh_iff
          split
          next => exact ⟨⟨k, lined, less⟩, waiting⟩
          next open' =>
            obtain rfl : k = 0 := Nat.eq_zero_of_not_pos (mt fresh.mpr open')
            exact ⟨⟨1, lined.line (by decide), fun _ => by decide⟩, waiting⟩
        have next := (remarks_cons lines).holds _ start
        exact ⟨Stance.fresh_ready _ next.stands, next.waiting⟩

theorem closing (lines : ∀ c ∈ cs, c.OneLine) : Moves .begun (.closing cs) .begun where
  words := nofun
  comments := lines
  holds s holds := by
    refine List.foldlRecOn cs (motive := Stance.begun.Holds) _ holds fun t above d member => ?_
    have next := Sheet.fresh_of_lined above.stands above.waiting
    exact ⟨next.stands.1.text (m := .remark d) (lines d member), next.waiting⟩

/-- A comment below a statement. -/
theorem holds_under {s : Sheet} {c : Comment} (holds : Stance.ready.Holds s) (line : c.OneLine) :
    Stance.ended.Holds (s.breakIfDue.put (.remark c)).softBreak := by
  obtain ⟨⟨k, lined, _⟩, waiting⟩ := breakIfDue.holds s holds
  exact ⟨⟨lined.text (m := .remark c) line, rfl⟩, waiting⟩

/-- Comments below a statement leave a line break due. -/
theorem under_of_ne_nil (some : cs ≠ []) (lines : ∀ c ∈ cs, c.OneLine) :
    Moves .ready (.under cs) .ended where
  words := nofun
  comments := lines
  holds s holds := by
    obtain ⟨c, rest, rfl⟩ := List.exists_cons_of_ne_nil some
    obtain ⟨first, others⟩ := List.forall_mem_cons.mp lines
    refine List.foldlRecOn rest (motive := Stance.ended.Holds) _ (holds_under holds first)
      fun t above d member => ?_
    exact holds_under ⟨Stance.begun_ready t above.stands.1, above.waiting⟩ (others d member)

theorem under (lines : ∀ c ∈ cs, c.OneLine) : Moves .ended (.under cs) .ended := by
  by_cases none : cs = []
  · subst none
    exact ⟨nofun, nofun, fun _ holds => holds⟩
  · exact (under_of_ne_nil none lines).before fun s stands => Stance.begun_ready s stands.1

/-- Making room for comments behind a bracket leaves no blank in front of the line end. -/
theorem room : Moves .shut .room .free where
  words := nofun
  comments := nofun
  holds := by
    rintro s ⟨⟨lined, gap⟩, waiting⟩
    show Stance.free.Holds (if s.pending.isEmpty then s else (s.put .line).pad (s.margin - 2))
    split
    · exact ⟨⟨0, lined, by decide⟩, waiting⟩
    · -- the one line end that takes no blank back
      refine ⟨⟨1, ?_, by decide⟩, waiting⟩
      show Lined (s.scraps ++ [⟨s.gap, .line⟩]) 1
      rw [gap]
      exact lined.line (by decide)

theorem apart {x y : Node} : Moves .fresh (.apart x y) .ready where
  words := nofun
  comments := nofun
  holds s holds := by
    show Stance.ready.Holds (if s.keepsTogether x y then s else s.newline)
    split
    · exact ⟨Stance.fresh_ready s holds.stands, holds.waiting⟩
    · exact Sheet.ready_of_lined holds.stands.1 (by decide) holds.waiting

/-- What is loose does not see a margin that is put back. -/
theorem holds_marginAt (moves : Moves e body e') (loose : e.isLoose = true)
    (loose' : e'.isLoose = true) {s : Sheet} (margin : Nat) (holds : e.Holds s) :
    e'.Holds (s.marginAt margin body.write) := by
  have inner : e.Holds { s with margin := margin } := by
    refine ⟨?_, holds.waiting⟩
    cases e <;> first | exact holds.stands | cases loose
  have next := moves.holds _ inner
  refine ⟨?_, next.waiting⟩
  cases e' <;> first | exact next.stands | cases loose'

theorem hang {breaks : Bool} {extra : Nat} (moves : Moves e body e') (loose : e.isLoose = true)
    (loose' : e'.isLoose = true) : Moves e (.hang breaks extra body) e' :=
  ⟨moves.words, moves.comments, fun _ holds => moves.holds_marginAt loose loose' _ holds⟩

theorem indented (moves : Moves e body e') (loose : e.isLoose = true)
    (loose' : e'.isLoose = true) : Moves e (.indented body) e' :=
  ⟨moves.words, moves.comments, fun _ holds => moves.holds_marginAt loose loose' _ holds⟩

theorem enclosed (moves : Moves e body e') : Moves e (.enclosed body) e' where
  words := moves.words
  comments := moves.comments
  holds s holds := by
    have inner : e.Holds { s with depth := s.depth + 1 } := by
      refine ⟨?_, holds.waiting⟩
      cases e <;> exact holds.stands
    have next := moves.holds _ inner
    refine ⟨?_, next.waiting⟩
    cases e' <;> exact next.stands

/-! ## Expressions -/

/-- A keyword and a blank. -/
theorem keyBlank (k : Keyword) : Moves .ready (.key k ++ .blank) .ready :=
  (((key k).after Stance.shut_begun).seq blank).after Stance.begun_ready

/-- A keyword between blanks. -/
theorem blankKeyBlank (k : Keyword) : Moves .begun (.blank ++ .key k ++ .blank) .ready :=
  ((((blank.after Stance.begun_ready).seq (key k)).after Stance.shut_begun).seq blank).after
    Stance.begun_ready

theorem colonBlank : Moves .begun (.mark .colon ++ .blank) .ready :=
  ((sign .colon).seq blank).after Stance.begun_ready

/-- A node around its form moves as the form does, its comments being on one line each. -/
theorem framed {comments : Comments} {parens isBlock : Bool}
    (lines : ∀ c ∈ comments.toList, c.OneLine) (moves : Moves .ready body .begun) :
    Moves .ready (.framed comments parens isBlock body) .begun := by
  obtain ⟨before, suffix, _⟩ := Comments.forall_mem_toList.mp lines
  refine ((breakIfDue.seq (.leading before)).seq ?_).seq
    ((Moves.queue suffix).onlyIf (.refl .begun))
  cases parens with
  | true =>
      exact (((mark _).after Stance.shut_ready).seq
        (moves.after Stance.begun_ready).enclosed).seq ((mark _).after Stance.shut_begun)
  | false => exact moves

/-- An operator is written word by word on one line. -/
theorem operator {op : String} (line : OneLine op.toList) : Moves .ready (.operator op) .begun := by
  have pair (j k : Keyword) : Moves .ready (.key j ++ .blank ++ .key k) .begun :=
    ((((key j).after Stance.shut_begun).seq blank).after Stance.begun_ready).seq
      ((key k).after Stance.shut_begun)
  unfold Script.operator
  split
  · exact pair .not .in
  split
  · exact pair .is .not
  exact (word (w := .sign op) line).after Stance.shut_begun

theorem operation {x y : Script} {op : String} {breaks : Bool} {extra : Nat}
    (left : Moves .ready x .begun) (line : OneLine op.toList) (right : Moves .ready y .begun) :
    Moves .ready (.operation x op breaks y extra) .begun := by
  have between : Moves .begun (if breaks then .breakInside else .blank) .ready := by
    cases breaks with
    | true => exact breakInside.after Stance.free_ready
    | false => exact blank.after Stance.begun_ready
  exact ((((left.seq blank).seq ((operator line).before Stance.begun_ready)).seq between).seq
    right).hang rfl rfl

/-! ## Sequences -/

open Script (Part)

variable {x : Part} {parts : List Part}

theorem onOneLine (each : ∀ y ∈ x :: parts, Moves .ready y.script .begun) :
    Moves .ready (.onOneLine (x :: parts)) .begun := by
  induction parts generalizing x with
  | nil => exact each x (List.mem_singleton_self x)
  | cons y rest ih =>
      obtain ⟨first, others⟩ := List.forall_mem_cons.mp each
      exact (first.seq (((sign .comma).seq blank).after Stance.begun_ready)).seq (ih others)

/-- Parts on lines of their own are clean lines if each part is. -/
theorem onLines {enclosure : Enclosure} (each : ∀ y ∈ x :: parts, Moves .ready y.script .begun) :
    Moves .free (.onLines enclosure (x :: parts)) .begun := by
  induction parts generalizing x with
  | nil =>
      exact ((newline_free.seq (each x (List.mem_singleton_self x))).seq
        ((sign .comma).onlyIf (.refl .begun))).seq done
  | cons y rest ih =>
      obtain ⟨first, others⟩ := List.forall_mem_cons.mp each
      exact ((newline_free.seq first).seq ((sign .comma).onlyIf (.refl .begun))).seq
        ((ih others).before Stance.begun_free)

/-- What stands between brackets. -/
theorem inside {enclosure : Enclosure} {layout : Layout}
    (each : ∀ y ∈ parts, Moves .ready y.script .begun) (lines : ∀ c ∈ cs, c.OneLine) :
    Moves .shut (.inside enclosure parts cs layout) .ready := by
  have comma' : Moves .begun
      (.onlyIf (parts.length = 1 && enclosure = .tuple) (.mark .comma)) .ready :=
    ((sign .comma).onlyIf (.refl .begun)).after Stance.begun_ready
  unfold Script.inside
  split
  · cases parts with
    | nil => exact done.seq (comma'.before Stance.shut_begun)
    | cons x parts => exact ((onOneLine each).before Stance.shut_ready).seq comma'
  · refine Moves.seq ?_ (newline.after Stance.fresh_ready)
    refine Moves.indented ?_ rfl rfl
    cases parts with
    | nil => exact (done.seq done).seq ((closing lines).before Stance.shut_begun)
    | cons x parts => exact (room.seq (onLines each)).seq (closing lines)

/-- A sequence in brackets is clean lines if each of its parts is. -/
theorem sequence {enclosure : Enclosure} {layout : Layout} (bracketed : enclosure ≠ .none)
    (each : ∀ y ∈ parts, Moves .ready y.script .begun) (lines : ∀ c ∈ cs, c.OneLine) :
    Moves .ready (.sequence enclosure parts cs layout) .begun := by
  have between (o c : Symbol) : Moves .ready
      (.mark o ++ .enclosed (.inside enclosure parts cs layout) ++ .mark c) .begun :=
    ((mark o).seq (inside each lines).enclosed).seq ((mark c).after Stance.shut_begun)
  cases enclosure with
  | call | tuple | paren => exact between .lparen .rparen
  | list => exact between .lbrack .rbrack
  | braces => exact between .lbrace .rbrace
  | none => exact absurd rfl bracketed

/-- A sequence without brackets has to go on one line. -/
theorem tuple {layout : Layout} (each : ∀ y ∈ parts, Moves .ready y.script .begun)
    (some : parts ≠ []) (fits : Script.fits .none parts cs layout = true) :
    Moves .ready (.sequence .none parts cs layout) .begun := by
  refine (done.seq (Moves.enclosed ?_)).seq done
  unfold Script.inside
  rw [if_pos fits]
  cases parts with
  | nil => exact absurd rfl some
  | cons x parts => exact (onOneLine each).seq ((sign .comma).onlyIf (.refl .begun))

/-- So are the clauses of a comprehension. -/
theorem clauses {multiLine : Bool} (each : ∀ y ∈ parts, Moves .ready y.script .begun) :
    Moves .begun (.clauses multiLine parts) .begun := by
  have between : Moves .begun (if multiLine then .breakInside else .blank) .ready := by
    cases multiLine with
    | true => exact breakInside.after Stance.free_ready
    | false => exact blank.after Stance.begun_ready
  induction parts with
  | nil => exact done
  | cons x rest ih =>
      obtain ⟨first, others⟩ := List.forall_mem_cons.mp each
      exact (between.seq first).seq (ih others)

/-- A comprehension is clean lines if its element and its clauses are. -/
theorem comprehension {curly multiLine : Bool} (moves : Moves .ready body .begun)
    (each : ∀ y ∈ parts, Moves .ready y.script .begun) (lines : ∀ c ∈ cs, c.OneLine) :
    Moves .ready (.comprehension curly body parts cs multiLine) .begun := by
  refine Moves.enclosed ?_
  refine Moves.seq (Moves.seq (mark _) ?_) ((mark _).after Stance.shut_begun)
  split
  · refine Moves.seq ?_ (newline.after Stance.fresh_ready)
    have opened : Moves .shut .newline .ready :=
      (newline.before Stance.shut_begun).after Stance.fresh_ready
    exact (((opened.seq moves).seq (clauses each)).seq (closing lines)).indented rfl rfl
  · exact ((moves.before Stance.shut_ready).seq (clauses each)).after Stance.begun_ready

theorem lambdaParams (each : ∀ y ∈ parts, Moves .ready y.script .begun) :
    Moves .begun (.lambdaParams parts) .begun := by
  cases parts with
  | nil => exact done
  | cons x parts => exact (blank.after Stance.begun_ready).seq (onOneLine each)

/-! ## Statements -/

open Script (Line)

/-- Statements are clean lines, with a line break due behind the last of them. -/
theorem statements {lines : List Line} (some : lines ≠ [])
    (each : ∀ l ∈ lines, Moves .ready l.whole .ended) :
    Moves .ready (.statements lines) .ended := by
  fun_induction Script.statements lines with
  | case1 => exact absurd rfl some
  | case2 s => exact each s (List.mem_singleton_self s)
  | case3 s t rest ih =>
      obtain ⟨first, others⟩ := List.forall_mem_cons.mp each
      exact ((first.seq (newline.before Stance.ended_begun)).seq apart).seq
        (ih (List.cons_ne_nil t rest) others)

theorem block {lines : List Line} (some : lines ≠ [])
    (each : ∀ l ∈ lines, Moves .ready l.whole .ended) : Moves .begun (.block lines) .ended :=
  ((newline.after Stance.fresh_ready).seq (statements some each)).indented rfl rfl

theorem headed {lines : List Line} (suffix : ∀ c ∈ cs, c.OneLine) (some : lines ≠ [])
    (each : ∀ l ∈ lines, Moves .ready l.whole .ended) : Moves .ready (.headed cs lines) .ended :=
  (((mark .colon).after Stance.shut_begun).seq (queue suffix)).seq (block some each)

theorem branch {k : Keyword} {cond : Script} {lines : List Line} (test : Moves .ready cond .begun)
    (suffix : ∀ c ∈ cs, c.OneLine) (some : lines ≠ [])
    (each : ∀ l ∈ lines, Moves .ready l.whole .ended) :
    Moves .ready (.branch k cond cs lines) .ended :=
  ((breakIfDue.seq (keyBlank k)).seq (test.after Stance.begun_ready)).seq
    (headed suffix some each)

theorem elseLine {gap : Bool} (lines : ∀ c ∈ cs, c.OneLine) :
    Moves .ended (.elseLine gap cs) .ready := by
  have gapped : Moves .fresh (.onlyIf gap .newline) .ready :=
    (newline_free.before Stance.fresh_free).onlyIf Stance.fresh_ready
  exact (breakIfDue_ended.seq gapped).seq (remarks lines (.refl .ready) Stance.fresh_ready)

end Moves

end Starlark
