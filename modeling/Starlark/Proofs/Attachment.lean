import Starlark.Proofs.Slots

/-!
# Where comments are attached

Comments are handed out to the slots of a file one after another: each slot takes
those in front of the queue that it accepts. Seen from the comments this is a rule
of its own (`File.attaches_takeComments`). A line comment goes above the first slot,
in preorder, that starts at or behind it. A suffix comment goes to the last slot, in
postorder, that takes comments behind its end and stops at or before it. Only the
comments on the line of a `def`, behind its colon, are not told by this rule.

The queue is in order, so a slot that accepts a comment accepts those before it in
the queue, and no comment is held back by another (`exists_shares`). The `def`s do
not have this property, but they accept only comments that the rule leaves out.
-/

set_option autoImplicit false

namespace Starlark

/-- The slot with more comments, behind those already there. -/
def Slot.add (s : Slot) (before suffix : List Comment) : Slot :=
  { s with comments :=
    ⟨s.comments.before ++ before, s.comments.suffix ++ suffix, s.comments.after⟩ }

/-! ## Handing out comments -/

/-- Hands the front of a queue to a slot, as far as it accepts it. -/
def Slot.takeFront (accepts : Slot → Comment → Bool) (put : Slot → List Comment → Slot) :
    Slot.Filler (List Comment) := fun slot queue =>
  ((put slot (queue.takeWhile (accepts slot))).comments, queue.dropWhile (accepts slot))

/-- Gives a slot with a number its comments. -/
def Slot.Filler.numbered {σ : Type} (fill : Slot.Filler σ) (x : Nat × Slot) :
    StateM σ (Nat × Slot) :=
  return (x.1, ← fill.refill x.2)

/-- Of the comments that are told by a rule, those in front that a slot accepts are those it wants,
when it wants with a comment also those before it. -/
theorem filter_takeWhile {accepts wants told : Comment → Bool} {queue : List Comment}
    (closed : queue.Pairwise fun a b => wants b = true → wants a = true)
    (sound : ∀ c, wants c = true → accepts c = true)
    (complete : ∀ c, told c = true → accepts c = true → wants c = true) :
    (queue.takeWhile accepts).filter told = queue.filter (fun c => told c && wants c) ∧
      (queue.dropWhile accepts).filter told = queue.filter (fun c => told c && !wants c) := by
  induction queue with
  | nil => exact ⟨rfl, rfl⟩
  | cons c queue ih =>
      obtain ⟨before, closed⟩ := List.pairwise_cons.mp closed
      obtain ⟨taken, left⟩ := ih closed
      by_cases accepted : accepts c = true
      · rw [List.takeWhile_cons_of_pos accepted, List.dropWhile_cons_of_pos accepted]
        simp only [List.filter_cons, taken, left]
        by_cases isTold : told c = true
        · simp [isTold, complete c isTold accepted]
        · simp [isTold]
      · have here : wants c = false := by
          simpa using mt (sound c) accepted
        have unwanted : ∀ b ∈ c :: queue, wants b = false := by
          refine List.forall_mem_cons.mpr ⟨here, fun b member => ?_⟩
          simpa [here] using before b member
        rw [List.takeWhile_cons_of_neg accepted, List.dropWhile_cons_of_neg accepted]
        constructor
        · exact (List.filter_eq_nil_iff.mpr fun b member => by simp [unwanted b member]).symm
        · exact List.filter_congr fun b member => by simp [unwanted b member]

/-- The number of the first of some slots that wants a comment. -/
def firstWanting (wants : Slot → Comment → Bool) (xs : List (Nat × Slot)) (c : Comment) :
    Option Nat :=
  (xs.find? fun x => wants x.2 c).map Prod.fst

/-- A queue is handed out to slots: those that are told go to the first slot that wants them. -/
structure Shares (accepts wants : Slot → Comment → Bool) (put : Slot → List Comment → Slot)
    (told : Comment → Bool) (xs : List (Nat × Slot)) (queue : List Comment)
    (given : Nat → List Comment) (left : List Comment) : Prop where
  sweeps : Sweeps (Slot.takeFront accepts put).numbered
    (fun x => (x.1, { x.2 with comments := (put x.2 (given x.1)).comments })) xs queue left
  all : xs.flatMap (fun x => given x.1) ++ left = queue
  accepted : ∀ x ∈ xs, ∀ c ∈ given x.1, accepts x.2 c = true
  placed : ∀ x ∈ xs, (given x.1).filter told =
    queue.filter fun c => told c && firstWanting wants xs c == some x.1
  unplaced : left.filter told = queue.filter fun c => told c && firstWanting wants xs c == none

namespace Shares

variable {accepts wants : Slot → Comment → Bool} {put : Slot → List Comment → Slot}
  {told : Comment → Bool} {xs : List (Nat × Slot)} {queue : List Comment}
  {given : Nat → List Comment} {left : List Comment}

theorem sublist_given (shares : Shares accepts wants put told xs queue given left)
    {x : Nat × Slot} (member : x ∈ xs) : (given x.1).Sublist queue := by
  rw [← shares.all, List.flatMap_def]
  refine List.Sublist.trans ?_ (List.sublist_append_left _ left)
  exact List.sublist_flatten_of_mem (List.mem_map_of_mem member)

theorem sublist_left (shares : Shares accepts wants put told xs queue given left) :
    left.Sublist queue := by
  rw [← shares.all]
  exact List.sublist_append_right _ left

end Shares

theorem firstWanting_cons (wants : Slot → Comment → Bool) (x : Nat × Slot)
    (xs : List (Nat × Slot)) (c : Comment) :
    firstWanting wants (x :: xs) c =
      if wants x.2 c = true then some x.1 else firstWanting wants xs c := by
  rw [firstWanting, List.find?_cons]
  cases wants x.2 c <;> rfl

theorem firstWanting_ne (wants : Slot → Comment → Bool) {xs : List (Nat × Slot)} {i : Nat}
    (absent : i ∉ xs.map Prod.fst) (c : Comment) : firstWanting wants xs c ≠ some i := by
  intro found
  obtain ⟨y, first, rfl⟩ := Option.map_eq_some_iff.mp found
  exact absent (List.mem_map_of_mem (List.mem_of_find?_eq_some first))

/-- Slots that want with a comment also those before it, and that of the told comments accept only
those they want, get the told comments by the rule. -/
theorem exists_shares (accepts wants : Slot → Comment → Bool)
    (put : Slot → List Comment → Slot) (told : Comment → Bool) {xs : List (Nat × Slot)}
    {queue : List Comment} (distinct : (xs.map Prod.fst).Nodup)
    (closed : ∀ x ∈ xs, queue.Pairwise fun a b => wants x.2 b = true → wants x.2 a = true)
    (sound : ∀ x ∈ xs, ∀ c, wants x.2 c = true → accepts x.2 c = true)
    (complete : ∀ x ∈ xs, ∀ c, told c = true → accepts x.2 c = true → wants x.2 c = true) :
    ∃ given left, Shares accepts wants put told xs queue given left := by
  induction xs generalizing queue with
  | nil =>
      refine ⟨fun _ => [], queue, .nil queue, rfl, nofun, nofun, ?_⟩
      simp [firstWanting]
  | cons x xs ih =>
      rw [List.map_cons, List.nodup_cons] at distinct
      obtain ⟨closed, closeds⟩ := List.forall_mem_cons.mp closed
      obtain ⟨sound, sounds⟩ := List.forall_mem_cons.mp sound
      obtain ⟨complete, completes⟩ := List.forall_mem_cons.mp complete
      obtain ⟨taken, passed⟩ := filter_takeWhile closed sound complete
      have rest : (queue.dropWhile (accepts x.2)).Sublist queue := List.dropWhile_sublist _
      obtain ⟨given, left, shares⟩ := ih distinct.2
        (fun y member => (closeds y member).sublist rest) sounds completes
      have others : ∀ y ∈ xs, y.1 ≠ x.1 := fun y member same =>
        distinct.1 (same ▸ List.mem_map_of_mem member)
      -- what passes the first slot is handed out to the others
      have later (p : Comment → Bool) :
          (queue.dropWhile (accepts x.2)).filter (fun c => told c && p c) =
            queue.filter (fun c => told c && (!wants x.2 c && p c)) := by
        have split (cs : List Comment) :
            cs.filter (fun c => told c && p c) = (cs.filter told).filter p := by
          simp [List.filter_filter, Bool.and_comm]
        rw [split, passed, List.filter_filter]
        exact List.filter_congr fun c _ => by cases told c <;> cases p c <;> simp
      refine ⟨fun i => if i = x.1 then queue.takeWhile (accepts x.2) else given i, left, ?_⟩
      refine ⟨.cons ?_ (shares.sweeps.congr fun y member => ?_), ?_, ?_, ?_, ?_⟩
      · rw [if_pos rfl]
        rfl
      · rw [if_neg (others y member)]
      · rw [List.flatMap_cons, if_pos rfl, List.append_assoc,
          List.flatMap_congr fun y member => if_neg (others y member), shares.all,
          List.takeWhile_append_dropWhile]
      · refine List.forall_mem_cons.mpr ⟨fun c member => ?_, fun y member => ?_⟩
        · rw [if_pos rfl] at member
          exact List.mem_takeWhile_imp member
        · rw [if_neg (others y member)]
          exact shares.accepted y member
      · refine List.forall_mem_cons.mpr ⟨?_, fun y member => ?_⟩
        · rw [if_pos rfl, taken]
          refine List.filter_congr fun c _ => ?_
          rw [firstWanting_cons]
          have other := firstWanting_ne wants distinct.1 c
          cases wants x.2 c <;> simp [other]
        · rw [if_neg (others y member), shares.placed y member, later]
          refine List.filter_congr fun c _ => ?_
          rw [firstWanting_cons]
          cases wants x.2 c <;> simp [(others y member).symm]
      · rw [shares.unplaced, later]
        refine List.filter_congr fun c _ => ?_
        rw [firstWanting_cons]
        cases wants x.2 c <;> simp

/-! ## The two queues -/

theorem Slot.takeLine_eq : Slot.takeLine =
    Slot.takeFront (fun slot c => c.start.offset ≤ slot.start.offset) (·.add · []) := by
  funext slot queue
  simp only [takeLine, takeFront, add, List.span_eq_takeWhile_dropWhile, List.append_nil]
  rfl

theorem Slot.takeSuffix_eq : Slot.takeSuffix =
    Slot.takeFront Slot.takesSuffix fun slot mine => slot.add [] mine.reverse := by
  funext slot queue
  simp only [takeSuffix, takeFront, add, List.span_eq_takeWhile_dropWhile, List.append_nil]
  rfl

section Passes

variable {σ : Type} {fill : Slot.Filler σ} {vs : List Node} {row : Grove (Nat × Slot)}
  {out : Nat × Slot → Nat × Slot} {s t : σ}

/-- Filling the slots of some nodes is told by what happens to their row. -/
theorem slotsOf_fillList_of_sweeps (same : row.map Prod.snd = slotsOf vs)
    (sweeps : Sweeps fill.numbered out row.preorder s t) :
    slotsOf (fillList fill vs s).1 = (row.map out).map Prod.snd ∧ (fillList fill vs s).2 = t := by
  have seen : Grove.map Prod.snd <$> row.fill fill.numbered = (row.map Prod.snd).fill fill.refill :=
    Grove.map_fill (fun x => by simp [Slot.Filler.numbered]) row
  rw [same, ← slotsOf_fill fill fun v _ => v.slots_fill fill] at seen
  have here : (Grove.map Prod.snd (row.fill fill.numbered s).1, (row.fill fill.numbered s).2) =
      (slotsOf (fillList fill vs s).1, (fillList fill vs s).2) := congrFun seen s
  rw [Grove.fill_of_sweeps sweeps] at here
  exact ⟨(Prod.mk.inj here).1.symm, (Prod.mk.inj here).2.symm⟩

/-- The same for the pass from the end, which goes through the labels as the slots stop. -/
theorem slotsOf_fillListBack_of_sweeps (same : row.map Prod.snd = slotsOf vs)
    (sweeps : Sweeps fill.numbered out row.stops.reverse s t) :
    slotsOf (fillListBack fill vs s).1 = (row.map out).map Prod.snd ∧
      (fillListBack fill vs s).2 = t := by
  have seen : Grove.map Prod.snd <$> row.fillBack fill.numbered =
      (row.map Prod.snd).fillBack fill.refill :=
    Grove.map_fillBack (fun x => by simp [Slot.Filler.numbered]) row
  rw [same, ← slotsOf_fillBack fill fun v _ => v.slots_fillBack fill] at seen
  have here : (Grove.map Prod.snd (row.fillBack fill.numbered s).1,
      (row.fillBack fill.numbered s).2) =
      (slotsOf (fillListBack fill vs s).1, (fillListBack fill vs s).2) := congrFun seen s
  rw [Grove.fillBack_of_sweeps sweeps] at here
  exact ⟨(Prod.mk.inj here).1.symm, (Prod.mk.inj here).2.symm⟩

end Passes

/-! ## Files -/

namespace Slot

/-- Whether the slot takes comments behind its end, and the comment stands there. -/
def endsBefore (s : Slot) (c : Comment) : Bool := s.takesEnd && s.stop.offset ≤ c.start.offset

/-- Whether the slot is that of a `def`, and the comment stands on the line of its colon, behind
it. -/
def heads (s : Slot) (c : Comment) : Bool :=
  match s.takes with
  | .behindColon colon => colon.line = c.start.line && colon.offset < c.start.offset
  | _ => false

theorem takesSuffix_eq (s : Slot) (c : Comment) :
    s.takesSuffix c = (s.endsBefore c || s.heads c) := by
  unfold takesSuffix endsBefore heads takesEnd
  cases s.takes <;> simp

end Slot

namespace File

/-- The file with comments attached to its statements. Those that no slot takes are kept on the
file. -/
def takeComments (f : File) (line suffix : List Comment) : File :=
  let (statements, line, suffix) := attach f.statements line suffix
  let before := f.comments.before ++ suffix
  let after := f.comments.after ++ line
  { f with statements := statements, comments := ⟨before, f.comments.suffix, after⟩ }

/-- A file is read by attaching the comments of the source to its statements. -/
theorem ofStream_eq_takeComments (path : String) (options : Options) (stream : TokenStream) :
    ofStream path options stream = do
      let statements ← Reader.statements options.types stream.tokens
      let file : File := ⟨path, options.dialect, statements, .none⟩
      return file.takeComments stream.lineComments stream.suffixComments := rfl

/-- The slots of a file, nested as they are. -/
def grove (f : File) : Grove Slot := slotsOf f.statements

/-- The slots of a file in preorder. -/
def slots (f : File) : List Slot := f.grove.preorder

/-- The slots of a file in postorder, each with its place in preorder. -/
def slotsByEnd (f : File) : List (Nat × Slot) := (f.grove.number 0).postorder

/-- The place of the first slot in preorder that starts at or behind a comment. -/
def slotBehind? (f : File) (c : Comment) : Option Nat :=
  f.slots.findIdx? fun s => c.start.offset ≤ s.start.offset

/-- The place of the last slot in postorder that takes comments behind its end and stops at or
before a comment. -/
def slotBefore? (f : File) (c : Comment) : Option Nat :=
  firstWanting Slot.endsBefore f.slotsByEnd.reverse c

/-- Whether a comment stands behind the colon of a `def`, on its line. -/
def isHeader (f : File) (c : Comment) : Bool := f.slots.any (·.heads c)

/-- How comments are attached to a file. Each slot gets line comments, and suffix comments as
`given` says; suffix comments `left` over are kept on the file. -/
structure Attaches (f : File) (line suffix : List Comment) (given : Nat → List Comment)
    (left : List Comment) (g : File) : Prop where
  /-- Nothing but comments changes. -/
  plain : g.statements.map Node.plain = f.statements.map Node.plain
  path : g.path = f.path
  dialect : g.dialect = f.dialect
  /-- Comments are added behind those already there, line comments by the rule. -/
  slots : g.slots = f.slots.mapIdx fun i s =>
    s.add (line.filter fun c => f.slotBehind? c == some i) (given i)
  comments : g.comments = ⟨f.comments.before ++ left, f.comments.suffix,
    f.comments.after ++ line.filter fun c => f.slotBehind? c == none⟩
  /-- All suffix comments are given once, in order. -/
  all : ((List.range f.slots.length).flatMap given ++ left).Perm suffix
  inOrder : (∀ i < f.slots.length, (given i).Sublist suffix) ∧ left.Sublist suffix
  accepted : ∀ i s, f.slots[i]? = some s → ∀ c ∈ given i, s.takesSuffix c = true
  /-- Those that stand behind no header are given by the rule. -/
  placed : ∀ i < f.slots.length, (given i).filter (fun c => !f.isHeader c) =
    suffix.filter fun c => !f.isHeader c && f.slotBefore? c == some i
  unplaced : left.filter (fun c => !f.isHeader c) =
    suffix.filter fun c => !f.isHeader c && f.slotBefore? c == none

/-! ## Attaching comments -/

/-- The slots of a file with their places in preorder. -/
def row (f : File) : Grove (Nat × Slot) := f.grove.number 0

theorem preorder_row (f : File) : f.row.preorder = f.slots.zipIdx.map Prod.swap :=
  f.grove.preorder_number 0

theorem places_row (f : File) : f.row.preorder.map Prod.fst = List.range f.slots.length := by
  rw [preorder_row, List.map_map]
  exact (List.zipIdx_map_snd 0 f.slots).trans List.range_eq_range'.symm

/-- Among the slots of a file in the order in which they start, the first that wants a comment is
found by its number. -/
theorem firstWanting_row (f : File) (wants : Slot → Comment → Bool) (c : Comment) :
    firstWanting wants f.row.preorder c = f.slots.findIdx? (wants · c) := by
  have shifted : ∀ (slots : List Slot) (n : Nat),
      firstWanting wants ((slots.zipIdx n).map Prod.swap) c =
        (slots.findIdx? (wants · c)).map (· + n) := by
    intro slots
    induction slots with
    | nil => exact fun n => rfl
    | cons s slots ih =>
        intro n
        rw [List.zipIdx_cons, List.map_cons, firstWanting_cons, ih, List.findIdx?_cons]
        by_cases wanted : wants s c = true
        · simp [wanted]
        · simp [wanted, Function.comp_def, Nat.add_assoc, Nat.add_comm n]
  rw [preorder_row, shifted]
  simp

/-- The line comments of the slot at a place. -/
def linesAt (f : File) (line : List Comment) (i : Nat) : List Comment :=
  line.filter fun c => f.slotBehind? c == some i

/-- The slot with its line comments. -/
def withLines (f : File) (line : List Comment) (x : Nat × Slot) : Nat × Slot :=
  (x.1, x.2.add (f.linesAt line x.1) [])

/-- Line comments go to the first slot behind them. -/
theorem sweeps_takeLine (f : File) {line : List Comment}
    (ordered : line.Pairwise fun a b => a.start.offset ≤ b.start.offset) :
    Sweeps (Slot.Filler.numbered Slot.takeLine) (f.withLines line) f.row.preorder line
      (line.filter fun c => f.slotBehind? c == none) := by
  have distinct : (f.row.preorder.map Prod.fst).Nodup := by
    rw [places_row]
    exact List.nodup_range
  have closed (x : Nat × Slot) : line.Pairwise fun a b =>
      decide (b.start.offset ≤ x.2.start.offset) = true →
        decide (a.start.offset ≤ x.2.start.offset) = true := by
    refine ordered.imp fun {a b} before behind => ?_
    rw [decide_eq_true_eq] at behind ⊢
    exact before.trans behind
  obtain ⟨given, left, shares⟩ := exists_shares
    (fun slot c => c.start.offset ≤ slot.start.offset)
    (fun slot c => c.start.offset ≤ slot.start.offset)
    (·.add · []) (fun _ => true) distinct (fun x _ => closed x) (fun _ _ _ wants => wants)
    (fun _ _ _ _ wants => wants)
  have mine : ∀ x ∈ f.row.preorder, given x.1 = f.linesAt line x.1 := by
    intro x member
    simpa [firstWanting_row, linesAt, slotBehind?] using shares.placed x member
  have rest : left = line.filter fun c => f.slotBehind? c == none := by
    simpa [firstWanting_row, slotBehind?] using shares.unplaced
  rw [Slot.takeLine_eq, ← rest]
  refine shares.sweeps.congr fun x member => ?_
  rw [mine x member]
  rfl

/-- The line comments change neither where slots stop nor what they take. -/
theorem firstWanting_map (out : Nat × Slot → Nat × Slot) (wants : Slot → Comment → Bool)
    (number : ∀ x, (out x).1 = x.1) (same : ∀ x c, wants (out x).2 c = wants x.2 c)
    (xs : List (Nat × Slot)) (c : Comment) :
    firstWanting wants (xs.map out) c = firstWanting wants xs c := by
  induction xs with
  | nil => rfl
  | cons x xs ih => rw [List.map_cons, firstWanting_cons, firstWanting_cons, ih, number, same]

/-- From the end, the first slot that stops before a comment is the last one to do so. -/
theorem firstWanting_stops (f : File) (c : Comment) :
    firstWanting Slot.endsBefore f.row.stops.reverse c = f.slotBefore? c := by
  have topped : f.row.Topped (Slot.takesEnd ∘ Prod.snd) := by
    rw [← Grove.topped_map, row, Grove.map_snd_number]
    exact slotsOf_topped fun v _ => v.slots_topped
  have ends (xs : List (Nat × Slot)) : firstWanting Slot.endsBefore xs.reverse c =
      ((xs.filter (Slot.takesEnd ∘ Prod.snd)).reverse.find? fun x => x.2.endsBefore c).map
        Prod.fst := by
    rw [← List.filter_reverse, List.find?_filter, firstWanting]
    congr 2
    funext x
    simp [Slot.endsBefore]
  rw [slotBefore?, ends, ends, Grove.filter_stops topped]
  rfl

/-- The slots in the order in which suffix comments are handed out, last first. -/
def queueing (f : File) (line : List Comment) : List (Nat × Slot) :=
  (f.row.map (f.withLines line)).stops.reverse

theorem queueing_eq (f : File) (line : List Comment) :
    f.queueing line = f.row.stops.reverse.map (f.withLines line) := by
  rw [queueing, Grove.stops_map, List.map_reverse]

/-- The second pass meets the slots of the file, with the comments that the first has put there. -/
theorem mem_queueing {f : File} {line : List Comment} {x : Nat × Slot} :
    x ∈ f.queueing line ↔ ∃ i s, f.slots[i]? = some s ∧ f.withLines line (i, s) = x := by
  simp only [queueing_eq, List.mem_map, List.mem_reverse, f.row.stops_perm.mem_iff, preorder_row,
    Prod.exists, Prod.swap_prod_mk, Prod.mk.injEq, List.mem_zipIdx_iff_getElem?]
  constructor
  · rintro ⟨i, s, ⟨s, i, found, rfl, rfl⟩, same⟩
    exact ⟨i, s, found, same⟩
  · rintro ⟨i, s, found, same⟩
    exact ⟨i, s, ⟨s, i, found, rfl, rfl⟩, same⟩

theorem places_queueing (f : File) (line : List Comment) :
    ((f.queueing line).map Prod.fst).Perm (List.range f.slots.length) := by
  have perm : (f.row.stops.reverse.map Prod.fst).Perm (f.row.preorder.map Prod.fst) :=
    ((List.reverse_perm _).trans f.row.stops_perm).map _
  rw [places_row] at perm
  rw [queueing_eq, List.map_map]
  exact perm

/-- Suffix comments are handed out, last first, once the slots have their line comments. -/
abbrev SharesSuffixes (f : File) (line suffix : List Comment) (given : Nat → List Comment)
    (left : List Comment) : Prop :=
  Shares Slot.takesSuffix Slot.endsBefore (fun slot mine => slot.add [] mine.reverse)
    (fun c => !f.isHeader c) (f.queueing line) suffix.reverse given left

/-- Suffix comments in source order are shared out among the slots that take them. -/
theorem exists_sharesSuffixes (f : File) (line : List Comment) {suffix : List Comment}
    (ordered : suffix.Pairwise fun a b => a.start.offset ≤ b.start.offset) :
    ∃ given left, f.SharesSuffixes line suffix given left := by
  apply exists_shares
  · exact (f.places_queueing line).nodup_iff.mpr List.nodup_range
  · intro x _
    refine List.pairwise_reverse.mpr (ordered.imp fun {a b} before ends => ?_)
    simp only [Slot.endsBefore, Bool.and_eq_true, decide_eq_true_eq] at ends ⊢
    exact ⟨ends.1, ends.2.trans before⟩
  · intro x _ c ends
    rw [Slot.takesSuffix_eq, ends, Bool.true_or]
  · intro x member c told takes
    rw [Slot.takesSuffix_eq, Bool.or_eq_true] at takes
    refine takes.resolve_right fun heads => ?_
    obtain ⟨i, s, found, rfl⟩ := mem_queueing.mp member
    have header : f.isHeader c = true :=
      List.any_eq_true.mpr ⟨s, List.mem_of_getElem? found, heads⟩
    simp [header] at told

theorem firstWanting_queueing (f : File) (line : List Comment) (c : Comment) :
    firstWanting Slot.endsBefore (f.queueing line) c = f.slotBefore? c := by
  rw [queueing_eq, ← firstWanting_stops]
  exact firstWanting_map (f.withLines line) Slot.endsBefore (fun _ => rfl) (fun _ _ => rfl) _ c

/-- Comments that are handed out to all slots, last first, are handed out in order to the slots
in preorder. -/
theorem flatMap_given_perm (f : File) (line : List Comment) {suffix left : List Comment}
    {given : Nat → List Comment}
    (all : (f.queueing line).flatMap (fun x => given x.1) ++ left = suffix.reverse) :
    ((List.range f.slots.length).flatMap (fun i => (given i).reverse) ++ left.reverse).Perm
      suffix := by
  have places := (f.places_queueing line).symm.flatMap_right given
  rw [List.flatMap_map] at places
  have reversed : ((List.range f.slots.length).flatMap fun i => (given i).reverse).Perm
      ((List.range f.slots.length).flatMap given) :=
    List.Perm.flatMap_left _ fun i _ => List.reverse_perm (given i)
  have each := (reversed.trans places).append (List.reverse_perm left)
  rw [all] at each
  exact each.trans (List.reverse_perm suffix)

/-- Both passes together: each slot gets its line comments and its share of the suffix comments, and
the file keeps the rest. -/
theorem slots_takeComments (f : File) {line suffix : List Comment} {given : Nat → List Comment}
    {left : List Comment} (lines : line.Pairwise fun a b => a.start.offset ≤ b.start.offset)
    (shares : f.SharesSuffixes line suffix given left) :
    (f.takeComments line suffix).slots =
        f.slots.mapIdx (fun i s => s.add (f.linesAt line i) (given i).reverse) ∧
      (f.takeComments line suffix).comments = ⟨f.comments.before ++ left.reverse,
        f.comments.suffix, f.comments.after ++ line.filter fun c => f.slotBehind? c == none⟩ := by
  obtain ⟨first, unplaced⟩ := slotsOf_fillList_of_sweeps (f.grove.map_snd_number 0)
    (f.sweeps_takeLine lines)
  have sweeps := shares.sweeps
  rw [← Slot.takeSuffix_eq] at sweeps
  obtain ⟨second, rest⟩ := slotsOf_fillListBack_of_sweeps first.symm sweeps
  constructor
  · have after := congrArg Grove.preorder second
    rw [Grove.preorder_map, Grove.preorder_map, Grove.preorder_map] at after
    refine after.trans ?_
    change ((f.row.preorder.map _).map _).map _ = _
    rw [preorder_row, List.map_map, List.map_map, List.map_map, List.mapIdx_eq_zipIdx_map]
    refine List.map_congr_left fun x _ => ?_
    simp [Slot.add, withLines]
  · rw [← rest, ← unplaced]
    rfl

/-- Line and suffix comments that stand in order are attached by the rule. -/
theorem attaches_takeComments (f : File) {line suffix : List Comment}
    (lines : line.Pairwise fun a b => a.start.offset ≤ b.start.offset)
    (suffixes : suffix.Pairwise fun a b => a.start.offset ≤ b.start.offset) :
    ∃ given left, f.Attaches line suffix given left (f.takeComments line suffix) := by
  obtain ⟨given, left, shares⟩ := f.exists_sharesSuffixes line suffixes
  obtain ⟨slots, comments⟩ := f.slots_takeComments lines shares
  have queued (i : Nat) (inside : i < f.slots.length) :
      ∃ s, f.withLines line (i, s) ∈ f.queueing line :=
    ⟨f.slots[i], mem_queueing.mpr ⟨i, f.slots[i], List.getElem?_eq_getElem inside, rfl⟩⟩
  refine ⟨fun i => (given i).reverse, left.reverse, {
    plain := plain_attach f.statements line suffix
    path := rfl
    dialect := rfl
    slots := slots
    comments := comments
    all := f.flatMap_given_perm line shares.all
    inOrder := ⟨fun i inside => ?given, List.reverse_reverse suffix ▸ shares.sublist_left.reverse⟩
    accepted := fun i s found c member => ?accepted
    placed := fun i inside => ?placed
    unplaced := ?unplaced }⟩
  case given =>
    obtain ⟨s, member⟩ := queued i inside
    have part : (given i).Sublist suffix.reverse := shares.sublist_given member
    exact List.reverse_reverse suffix ▸ part.reverse
  case accepted =>
    exact shares.accepted (f.withLines line (i, s)) (mem_queueing.mpr ⟨i, s, found, rfl⟩) c
      (List.mem_reverse.mp member)
  case placed =>
    obtain ⟨s, member⟩ := queued i inside
    have placed := shares.placed _ member
    simp only [firstWanting_queueing, List.filter_reverse] at placed
    rw [List.filter_reverse]
    exact List.reverse_eq_iff.mpr placed
  case unplaced =>
    have unplaced := shares.unplaced
    simp only [firstWanting_queueing, List.filter_reverse] at unplaced
    rw [List.filter_reverse]
    exact List.reverse_eq_iff.mpr unplaced

/-- A function with comments in its header, inside nested brackets and in both arms of an `if`. -/
def branchedFunction : List Char :=
  ("def f(x,  # a\n    y):  # b\n  if g([\n      # c\n      x,  # d\n  ]):\n" ++
    "    pass  # e\n  else:  # f\n    return x  # g\n").toList

/-- The comments of the function that stand on lines of their own. -/
def functionLines : List Comment := [⟨⟨4, 7, 42⟩, "# c"⟩]

/-- The comments of the function behind code. -/
def functionSuffixes : List Comment :=
  [⟨⟨1, 11, 10⟩, "# a"⟩, ⟨⟨2, 10, 23⟩, "# b"⟩, ⟨⟨5, 11, 56⟩, "# d"⟩, ⟨⟨7, 11, 76⟩, "# e"⟩,
    ⟨⟨8, 10, 89⟩, "# f"⟩, ⟨⟨9, 15, 107⟩, "# g"⟩]

/-- The comments of a function are attached by the rule. -/
theorem attaches_takeComments_of_function :
    ∃ tokens vs, TokenStream.ofChars branchedFunction =
        .ok ⟨tokens, functionLines, functionSuffixes⟩ ∧
      Reader.statements false tokens = .ok vs ∧
      ∃ given left, File.Attaches ⟨"a.bzl", .bzl, vs, .none⟩ functionLines functionSuffixes given
        left (File.takeComments ⟨"a.bzl", .bzl, vs, .none⟩ functionLines functionSuffixes) := by
  obtain ⟨f, read⟩ : ∃ f, File.ofChars "a.bzl" ⟨.bzl, false⟩ branchedFunction = .ok f :=
    Outcome.exists_eq_ok (by cbv)
  obtain ⟨⟨tokens, line, suffix⟩, scanned, built⟩ := Outcome.bind_eq_ok.mp read
  obtain ⟨vs, statements, _⟩ := Outcome.bind_eq_ok.mp built
  have comments : (TokenStream.ofChars branchedFunction).map
      (fun stream => (stream.lineComments, stream.suffixComments)) =
        .ok (functionLines, functionSuffixes) := by cbv
  rw [scanned] at comments
  obtain ⟨rfl, rfl⟩ := Prod.mk.inj (Except.ok.inj comments)
  exact ⟨tokens, vs, scanned, statements, attaches_takeComments _ (by decide) (by decide)⟩

end File

end Starlark
