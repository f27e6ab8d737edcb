import Starlark.Proofs.Outcome

/-!
# Rows of trees

A row of trees with labels, in which each tree is followed by the trees behind it.
The parts of a tree come in two rows: some before its label is passed on the way
from left to right, and some, its body, behind it.

A row is gone through in three orders: labels before parts (`preorder`), labels
behind all parts (`postorder`), and labels between parts and body (`stops`). The
last two are the same for labels of trees without a body (`filter_stops`).

Going through a row with a function that keeps a state is told by going through the
list of its labels: where that gives each label what a function of the label says,
the row is mapped by this function (`fill_of_sweeps`, `fillBack_of_sweeps`).
-/

set_option autoImplicit false

namespace Starlark

/-- A row of trees. -/
inductive Grove (α : Type) where
  | nil
  /-- A tree, and the row behind it. -/
  | node (label : α) (parts body rest : Grove α)

namespace Grove

variable {α β : Type}

/-- One row behind another. -/
def append : Grove α → Grove α → Grove α
  | nil, h => h
  | node a parts body rest, h => node a parts body (rest.append h)

instance : Append (Grove α) := ⟨append⟩

@[simp] theorem nil_append (g : Grove α) : nil ++ g = g := rfl

@[simp] theorem node_append (a : α) (parts body rest g : Grove α) :
    node a parts body rest ++ g = node a parts body (rest ++ g) := rfl

@[simp] theorem append_nil (g : Grove α) : g ++ nil = g := by
  induction g with
  | nil => rfl
  | node a parts body rest _ _ ih => rw [node_append, ih]

theorem append_assoc (g h k : Grove α) : g ++ h ++ k = g ++ (h ++ k) := by
  induction g with
  | nil => rfl
  | node a parts body rest _ _ ih => rw [node_append, node_append, node_append, ih]

/-- A tree without parts. -/
def leaf (a : α) : Grove α := node a nil nil nil

def map (f : α → β) : Grove α → Grove β
  | nil => nil
  | node a parts body rest => node (f a) (parts.map f) (body.map f) (rest.map f)

/-! ## Orders -/

/-- The labels, each before those below it. -/
def preorder : Grove α → List α
  | nil => []
  | node a parts body rest => a :: (parts.preorder ++ body.preorder ++ rest.preorder)

/-- The labels, each behind those below it. -/
def postorder : Grove α → List α
  | nil => []
  | node a parts body rest => parts.postorder ++ body.postorder ++ a :: rest.postorder

/-- The labels, each between those of the parts and those of the body. -/
def stops : Grove α → List α
  | nil => []
  | node a parts body rest => parts.stops ++ a :: (body.stops ++ rest.stops)

theorem preorder_map (f : α → β) (g : Grove α) : (g.map f).preorder = g.preorder.map f := by
  induction g with
  | nil => rfl
  | node a parts body rest first second third => simp [map, preorder, first, second, third]

theorem stops_map (f : α → β) (g : Grove α) : (g.map f).stops = g.stops.map f := by
  induction g with
  | nil => rfl
  | node a parts body rest first second third => simp [map, stops, first, second, third]

/-- All orders list the same labels. -/
theorem stops_perm (g : Grove α) : g.stops.Perm g.preorder := by
  induction g with
  | nil => exact .refl _
  | node a parts body rest first second third =>
      rw [stops, preorder]
      refine List.perm_middle.trans (.cons a ?_)
      rw [List.append_assoc]
      exact first.append (second.append third)

/-- Only labels without the property stand above a body. -/
def Topped (p : α → Bool) : Grove α → Prop
  | nil => True
  | node a parts body rest =>
    (p a = true → body = nil) ∧ parts.Topped p ∧ body.Topped p ∧ rest.Topped p

theorem topped_append {p : α → Bool} {g h : Grove α} :
    (g ++ h).Topped p ↔ g.Topped p ∧ h.Topped p := by
  induction g with
  | nil => exact ⟨fun topped => ⟨trivial, topped⟩, And.right⟩
  | node a parts body rest _ _ ih => simp only [node_append, Topped, ih, and_assoc]

theorem topped_leaf {p : α → Bool} (a : α) : (leaf a).Topped p :=
  ⟨fun _ => rfl, trivial, trivial, trivial⟩

theorem topped_map {p : β → Bool} {f : α → β} {g : Grove α} :
    (g.map f).Topped p ↔ g.Topped (p ∘ f) := by
  have bare (body : Grove α) : body.map f = nil ↔ body = nil := by cases body <;> simp [map]
  induction g with
  | nil => rfl
  | node a parts body rest first second third =>
      simp only [map, Topped, Function.comp_apply, bare, first, second, third]

/-- Labels that stand above no body come in the same order. -/
theorem filter_stops {p : α → Bool} {g : Grove α} (topped : g.Topped p) :
    g.stops.filter p = g.postorder.filter p := by
  induction g with
  | nil => rfl
  | node a parts body rest first second third =>
      obtain ⟨bare, inParts, inBody, behind⟩ := topped
      simp only [stops, postorder, List.filter_append, List.filter_cons, first inParts,
        second inBody, third behind]
      by_cases holds : p a = true
      · rw [bare holds]
        simp [holds, postorder]
      · simp [holds]

/-! ## Numbers -/

/-- The labels with their places in preorder, from `n` on. -/
def number : Nat → Grove α → Grove (Nat × α)
  | _, nil => nil
  | n, node a parts body rest =>
    let n' := n + 1 + parts.preorder.length
    node (n, a) (parts.number (n + 1)) (body.number n') (rest.number (n' + body.preorder.length))

theorem map_snd_number (n : Nat) (g : Grove α) : (g.number n).map Prod.snd = g := by
  induction g generalizing n with
  | nil => rfl
  | node a parts body rest first second third => simp [number, map, first, second, third]

theorem preorder_number (n : Nat) (g : Grove α) :
    (g.number n).preorder = (g.preorder.zipIdx n).map Prod.swap := by
  induction g generalizing n with
  | nil => rfl
  | node a parts body rest first second third =>
      simp only [number, preorder, first, second, third, List.zipIdx_cons, List.zipIdx_append,
        List.map_cons, List.map_append, List.length_append]
      simp [Nat.add_assoc]

/-! ## Going through a row -/

variable {σ : Type} {f : α → StateM σ β}

/-- Puts new labels into a row, each before those below it. -/
def fill (f : α → StateM σ β) : Grove α → StateM σ (Grove β)
  | nil => return nil
  | node a parts body rest => do
    let a ← f a
    let parts ← parts.fill f
    let body ← body.fill f
    let rest ← rest.fill f
    return node a parts body rest

/-- Puts new labels into a row from its end, each between those of its body and those of its
parts. -/
def fillBack (f : α → StateM σ β) : Grove α → StateM σ (Grove β)
  | nil => return nil
  | node a parts body rest => do
    let rest ← rest.fillBack f
    let body ← body.fillBack f
    let a ← f a
    let parts ← parts.fillBack f
    return node a parts body rest

theorem fill_append (f : α → StateM σ β) (g h : Grove α) :
    (g ++ h).fill f = do
      let g ← g.fill f
      let h ← h.fill f
      return g ++ h := by
  induction g with
  | nil => simp only [nil_append, fill, pure_bind, bind_pure]
  | node a parts body rest _ _ ih => simp only [node_append, fill, ih, bind_assoc, pure_bind]

theorem fillBack_append (f : α → StateM σ β) (g h : Grove α) :
    (g ++ h).fillBack f = do
      let h ← h.fillBack f
      let g ← g.fillBack f
      return g ++ h := by
  induction g with
  | nil => simp only [nil_append, fillBack, pure_bind, bind_pure]
  | node a parts body rest _ _ ih => simp only [node_append, fillBack, ih, bind_assoc, pure_bind]

theorem fillBack_leaf (f : α → StateM σ β) (a : α) : (leaf a).fillBack f = (leaf a).fill f := by
  simp only [leaf, fillBack, fill, pure_bind]

/-- Labels that are seen through a function are put in through it. -/
theorem map_fill {α' β' : Type} {f' : α' → StateM σ β'} {h : β → β'} {k : α → α'}
    (seen : ∀ a, h <$> f a = f' (k a)) (g : Grove α) : map h <$> g.fill f = (g.map k).fill f' := by
  induction g with
  | nil => simp [fill, map]
  | node a parts body rest first second third =>
      simp [fill, map, ← first, ← second, ← third, ← seen]

theorem map_fillBack {α' β' : Type} {f' : α' → StateM σ β'} {h : β → β'} {k : α → α'}
    (seen : ∀ a, h <$> f a = f' (k a)) (g : Grove α) :
    map h <$> g.fillBack f = (g.map k).fillBack f' := by
  induction g with
  | nil => simp [fillBack, map]
  | node a parts body rest first second third =>
      simp [fillBack, map, ← first, ← second, ← third, ← seen]

end Grove

/-- Going through a list, the function gives each element what `out` says, and takes the state from
the first to the second. -/
inductive Sweeps {σ α β : Type} (f : α → StateM σ β) (out : α → β) : List α → σ → σ → Prop
  | nil (s : σ) : Sweeps f out [] s s
  | cons {x : α} {xs : List α} {s t u : σ} (here : f x s = (out x, t))
      (later : Sweeps f out xs t u) : Sweeps f out (x :: xs) s u

section Sweeps

variable {σ α β : Type} {f : α → StateM σ β} {out : α → β} {s u : σ}

theorem Sweeps.congr {out' : α → β} {xs : List α} (sweeps : Sweeps f out xs s u)
    (same : ∀ x ∈ xs, out x = out' x) : Sweeps f out' xs s u := by
  induction sweeps with
  | nil s => exact .nil s
  | cons here _ ih =>
      obtain ⟨first, others⟩ := List.forall_mem_cons.mp same
      exact .cons (first ▸ here) (ih others)

/-- Going through two lists is going through one behind the other. -/
theorem sweeps_append {xs ys : List α} :
    Sweeps f out (xs ++ ys) s u ↔ ∃ t, Sweeps f out xs s t ∧ Sweeps f out ys t u := by
  induction xs generalizing s with
  | nil =>
      constructor
      · exact fun sweeps => ⟨s, .nil s, sweeps⟩
      · rintro ⟨_, ⟨⟩, sweeps⟩
        exact sweeps
  | cons x xs ih =>
      constructor
      · rintro (_ | ⟨here, later⟩)
        obtain ⟨t, first, second⟩ := ih.mp later
        exact ⟨t, .cons here first, second⟩
      · rintro ⟨t, _ | ⟨here, first⟩, second⟩
        exact .cons here (ih.mpr ⟨t, first, second⟩)

/-- One step of a computation with a state, and the rest of it. -/
theorem bind_of_eq {γ : Type} {m : StateM σ α} {next : α → StateM σ γ} {a : α}
    (first : m s = (a, u)) : (m >>= next) s = next a u := by
  show next (m s).1 (m s).2 = next a u
  rw [first]

/-- A row whose labels are swept from the first on is mapped. -/
theorem Grove.fill_of_sweeps {g : Grove α} (sweeps : Sweeps f out g.preorder s u) :
    g.fill f s = (g.map out, u) := by
  induction g generalizing s u with
  | nil =>
      cases sweeps
      rfl
  | node a parts body rest first second third =>
      rw [preorder] at sweeps
      obtain _ | ⟨here, later⟩ := sweeps
      obtain ⟨_, later, behind⟩ := sweeps_append.mp later
      obtain ⟨_, inParts, inBody⟩ := sweeps_append.mp later
      rw [fill, bind_of_eq here, bind_of_eq (first inParts), bind_of_eq (second inBody),
        bind_of_eq (third behind)]
      rfl

/-- A row whose labels are swept from the last on is mapped. -/
theorem Grove.fillBack_of_sweeps {g : Grove α} (sweeps : Sweeps f out g.stops.reverse s u) :
    g.fillBack f s = (g.map out, u) := by
  induction g generalizing s u with
  | nil =>
      cases sweeps
      rfl
  | node a parts body rest first second third =>
      simp only [stops, List.reverse_append, List.reverse_cons, List.append_assoc] at sweeps
      obtain ⟨_, behind, sweeps⟩ := sweeps_append.mp sweeps
      obtain ⟨_, inBody, sweeps⟩ := sweeps_append.mp sweeps
      obtain _ | ⟨here, inParts⟩ := sweeps
      rw [fillBack, bind_of_eq (third behind), bind_of_eq (second inBody), bind_of_eq here,
        bind_of_eq (first inParts)]
      rfl

end Sweeps

end Starlark
