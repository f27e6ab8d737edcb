import Mathlib.Data.List.Forall2
import Mathlib.Data.List.MinMax
import Starlark.Node.Edit
import Starlark.Proofs.Children

/-!
# Edits go the way of a walk

An edit takes each part of a node out by its index, edits it, and puts the
outcome back at that index; a walk goes through the list of the parts. Both meet
the same nodes in the same order and at the same depth, and what an edit does not
replace it puts back unchanged (`edit_goes_as_walk`).

A visitor may remember what it is asked, so what an edit asks can be said of the
edit itself: `noting` is the visitor that takes notes and otherwise does what it
did before (`edit_noting`). The ancestors that a visitor is shown are not those of
a walk, since parts of them have been taken out or edited; they are the same apart
from their parts.

The loop over the parts is reasoned about once (`editParts_induction`). The
invariant is `TurnedUpTo`: the parts in front of the index have been edited, the
others are as they were, and the rest of the node has not changed.
-/

set_option autoImplicit false

namespace Starlark.Node

variable {σ τ : Type}

/-! ## The loop over the parts -/

/-- What holds of a node whose first `i` parts have been edited, from none of them to all. -/
theorem editParts_induction {P : Nat → Node → σ → Prop} {f : Node → Node → σ → Node × σ} {v : Node}
    {s : σ} (start : P 0 v s)
    (step : ∀ i u s c, P i u s → u.children[i]? = some c →
      P (i + 1) (u.setChild i (f c (u.setChild i vacant) s).1) (f c (u.setChild i vacant) s).2) :
    P v.children.length (editParts f v s).1 (editParts f v s).2 := by
  unfold editParts
  -- the number of parts stays as it was, so there is a part at every index of the loop
  suffices loop : ∀ n ≤ v.children.length, ∀ r, r = (List.range n).foldl _ (v, s) →
      P n r.1 r.2 ∧ r.1.children.length = v.children.length from (loop _ (Nat.le_refl _) _ rfl).1
  intro n
  induction n with
  | zero =>
      rintro - r rfl
      exact ⟨start, rfl⟩
  | succ n ih =>
      rintro bound r rfl
      rw [List.range_succ, List.foldl_append, List.foldl_cons, List.foldl_nil]
      obtain ⟨holds, arity⟩ := ih (Nat.le_of_succ_le bound) _ rfl
      generalize (List.range n).foldl _ (v, s) = r at holds arity
      obtain ⟨u, s⟩ := r
      obtain ⟨c, part⟩ : ∃ c, u.children[n]? = some c :=
        ⟨_, List.getElem?_eq_getElem (by simp only at arity; omega)⟩
      simp only [child?_eq, part]
      exact ⟨step n u s c holds part, by simpa using arity⟩

/-- Two loops that treat each part in the same way. -/
theorem editParts_simulates {R : σ → τ → Prop} {f : Node → Node → σ → Node × σ}
    {g : Node → Node → τ → Node × τ}
    (same : ∀ c around s t, R s t →
      (f c around s).1 = (g c around t).1 ∧ R (f c around s).2 (g c around t).2)
    (v : Node) {s : σ} {t : τ} (related : R s t) :
    (editParts f v s).1 = (editParts g v t).1 ∧ R (editParts f v s).2 (editParts g v t).2 := by
  unfold editParts
  apply List.foldl_rel (r := fun p q : Node × _ => p.1 = q.1 ∧ R p.2 q.2)
  · exact ⟨rfl, related⟩
  · rintro i - ⟨u, s⟩ ⟨u', t⟩ ⟨rfl, related⟩
    dsimp only
    cases u.child? i with
    | none => exact ⟨rfl, related⟩
    | some c =>
        obtain ⟨part, still⟩ := same c (u.setChild i vacant) s t related
        exact ⟨congrArg (u.setChild i) part, still⟩

/-- Two visitors that give the same answers. -/
theorem editWithin_simulates {R : σ → τ → Prop} {visit : Visitor σ} {other : Visitor τ}
    (same : ∀ v above s t, R s t →
      (visit v above s).1 = (other v above t).1 ∧ R (visit v above s).2 (other v above t).2)
    (levels : Nat) (above : List Node) (v : Node) {s : σ} {t : τ} (related : R s t) :
    (editWithin visit levels above v s).1 = (editWithin other levels above v t).1 ∧
      R (editWithin visit levels above v s).2 (editWithin other levels above v t).2 := by
  induction levels generalizing above v s t with
  | zero => exact ⟨rfl, related⟩
  | succ levels ih =>
      obtain ⟨answer, still⟩ := same v above s t related
      simp only [editWithin]
      rw [answer]
      apply editParts_simulates _ _ still
      intro c around s t related
      exact ih (around :: above) c related

/-- A visitor that never answers. -/
def Visitor.Silent (visit : Visitor σ) : Prop := ∀ v above s, (visit v above s).1 = none

/-- A visitor that puts childless nodes in the place of childless nodes only. -/
def Visitor.OnLeaves (visit : Visitor σ) : Prop :=
  ∀ v above s w, (visit v above s).1 = some w → v.children = [] ∧ w.children = []

theorem Visitor.Silent.onLeaves {visit : Visitor σ} (silent : visit.Silent) : visit.OnLeaves := by
  intro v above s w answer
  rw [silent] at answer
  cases answer

/-- Without answers nothing changes. -/
theorem editWithin_of_silent {visit : Visitor σ} (silent : visit.Silent) (levels : Nat)
    (above : List Node) (v : Node) (s : σ) : (editWithin visit levels above v s).1 = v := by
  induction levels generalizing above v s with
  | zero => rfl
  | succ levels ih =>
      simp only [editWithin]
      rw [silent, Option.getD_none]
      apply editParts_induction (P := fun _ u _ => u = v) rfl
      rintro i u s c rfl part
      rw [ih]
      exact setChild_eq_self part

/-! ## Questions -/

/-- What an edit asks its visitor: about a node, below its ancestors as they are at that moment.
The answer is the replacement, if there is one. -/
structure Query where
  node : Node
  above : List Node
  answer : Option Node

/-- The visitor that also notes what it is asked, first to last. -/
def Visitor.noting (visit : Visitor σ) : Visitor (σ × List Query) :=
  fun v above (s, noted) =>
    let (answer, s) := visit v above s
    (answer, s, noted ++ [⟨v, above, answer⟩])

/-- What an edit asks its visitor, first to last. -/
def queries (visit : Visitor σ) (v : Node) (s : σ) : List Query :=
  (v.edit visit.noting (s, [])).2.2

/-- Taking notes changes nothing. -/
theorem edit_noting (visit : Visitor σ) (v : Node) (s : σ) (noted : List Query) :
    (v.edit visit.noting (s, noted)).1 = (v.edit visit s).1 ∧
      (v.edit visit.noting (s, noted)).2.1 = (v.edit visit s).2 := by
  apply editWithin_simulates (R := fun (t : σ × List Query) (s : σ) => t.1 = s)
  · rintro v above ⟨s, noted⟩ - rfl
    exact ⟨rfl, rfl⟩
  · rfl

/-- A question is asked where a walk makes a visit: about the same node, below as many ancestors,
which are the same one by one, apart from their parts. -/
structure Query.AskedAt (q : Query) (x : Visit) : Prop where
  node : q.node = x.node
  above : q.above.map cleared = x.above.map cleared

/-- A walk finds a question settled: the answer stands where it was asked or, without an answer,
the node that it was about, apart from its parts. -/
structure Query.SettledAt (q : Query) (x : Visit) : Prop where
  above : x.above.map cleared = q.above.map cleared
  answered : ∀ w, q.answer = some w → x.node = w
  unanswered : q.answer = none → x.node.cleared = q.node.cleared

/-- The questions below `above` are asked along a walk through `vs`, and a walk through `ws` finds
them settled. -/
def Turns (above : List Node) (asked : List Query) (vs ws : List Node) : Prop :=
  ∀ around : List Node, around.map cleared = above.map cleared →
    List.Forall₂ Query.AskedAt asked (vs.flatMap (walkBelow around)) ∧
      List.Forall₂ Query.SettledAt asked (ws.flatMap (walkBelow around))

namespace Turns

variable {above : List Node} {asked more : List Query} {vs ws vs' ws' : List Node} {v w : Node}

theorem nil : Turns above [] [] [] := by
  intro around _
  exact ⟨.nil, .nil⟩

theorem append (first : Turns above asked vs ws) (second : Turns above more vs' ws') :
    Turns above (asked ++ more) (vs ++ vs') (ws ++ ws') := by
  intro around same
  obtain ⟨asks, settles⟩ := first around same
  obtain ⟨asks', settles'⟩ := second around same
  rw [List.flatMap_append, List.flatMap_append]
  exact ⟨List.rel_append asks asks', List.rel_append settles settles'⟩

/-- Only what the ancestors are apart from their parts matters. -/
theorem congr {above' : List Node} (same : above'.map cleared = above.map cleared)
    (turns : Turns above asked vs ws) : Turns above' asked vs ws := by
  intro around alike
  exact turns around (alike.trans same)

/-- A childless node is replaced. -/
theorem leaf (bare : v.children = []) (bare' : w.children = []) :
    Turns above [⟨v, above, some w⟩] [v] [w] := by
  intro around same
  have visits (u : Node) (childless : u.children = []) :
      [u].flatMap (walkBelow around) = [⟨u, around⟩] := by
    rw [List.flatMap_singleton, walkBelow_eq, childless, List.flatMap_nil]
  rw [visits v bare, visits w bare']
  refine ⟨.cons ⟨rfl, same.symm⟩ .nil, .cons ⟨same, ?_, nofun⟩ .nil⟩
  rintro _ ⟨⟩
  rfl

/-- A node stays and its parts turn into others. -/
theorem node (kept : w.cleared = v.cleared)
    (parts : Turns (v :: above) asked v.children w.children) :
    Turns above (⟨v, above, none⟩ :: asked) [v] [w] := by
  intro around same
  have below (u : Node) (kept : u.cleared = v.cleared) :=
    parts (u :: around) (by rw [List.map_cons, List.map_cons, kept, same])
  rw [List.flatMap_singleton, List.flatMap_singleton, walkBelow_eq, walkBelow_eq]
  refine ⟨.cons ⟨rfl, same.symm⟩ (below v rfl).1, .cons ⟨same, nofun, ?_⟩ (below w kept).2⟩
  intro _
  exact kept

end Turns

/-- The node `u` is `v` with its first `i` parts turned into others. -/
structure TurnedUpTo (i : Nat) (above : List Node) (asked : List Query) (v u : Node) : Prop where
  kept : u.cleared = v.cleared
  behind : u.children.drop i = v.children.drop i
  turns : Turns (v :: above) asked (v.children.take i) (u.children.take i)

namespace TurnedUpTo

variable {i : Nat} {above : List Node} {asked more : List Query} {v u c w : Node}

theorem start (v : Node) (above : List Node) : TurnedUpTo 0 above [] v v :=
  ⟨rfl, rfl, by simpa using Turns.nil⟩

/-- The next part is still the one that it was. -/
theorem getElem? (turned : TurnedUpTo i above asked v u) : v.children[i]? = u.children[i]? := by
  have here := congrArg (·[0]?) turned.behind
  simpa using here.symm

/-- Turning one more part takes the count on. -/
theorem step (turned : TurnedUpTo i above asked v u) (part : u.children[i]? = some c)
    (turns : Turns (u.setChild i vacant :: above) more [c] [w]) :
    TurnedUpTo (i + 1) above (asked ++ more) v (u.setChild i w) := by
  have bound : i < u.children.length := (List.getElem?_eq_some_iff.mp part).1
  refine ⟨?_, ?_, ?_⟩
  · rw [cleared_setChild, turned.kept]
  · rw [children_setChild, List.drop_set_of_lt (Nat.lt_succ_self i)]
    simpa using congrArg (List.drop 1) turned.behind
  · have around : (v :: above).map cleared = (u.setChild i vacant :: above).map cleared := by
      rw [List.map_cons, List.map_cons, cleared_setChild, turned.kept]
    have before : v.children.take (i + 1) = v.children.take i ++ [c] := by
      rw [List.take_add_one, turned.getElem?, part]
      rfl
    have after : (u.setChild i w).children.take (i + 1) = u.children.take i ++ [w] := by
      rw [children_setChild, List.take_add_one, List.getElem?_set_self bound,
        List.take_set_of_le (Nat.le_refl i)]
      rfl
    rw [before, after]
    exact turned.turns.append (turns.congr around)

/-- When all parts have been turned, the node has been. -/
theorem finish (turned : TurnedUpTo v.children.length above asked v u) :
    Turns above (⟨v, above, none⟩ :: asked) [v] [u] := by
  have parts := turned.turns
  have short : u.children.length ≤ v.children.length := by
    have none := turned.behind
    rw [List.drop_length, List.drop_eq_nil_iff] at none
    exact none
  rw [List.take_length, List.take_of_length_le short] at parts
  exact .node turned.kept parts

end TurnedUpTo

/-- When each part turns into another, the loop turns all of them. -/
theorem editParts_turns {f : Node → Node → σ × List Query → Node × (σ × List Query)} {v : Node}
    {above : List Node}
    (each : ∀ c ∈ v.children, ∀ around s noted, ∃ w s' asked,
      f c around (s, noted) = (w, s', noted ++ asked) ∧ Turns (around :: above) asked [c] [w])
    (s : σ) (noted : List Query) :
    ∃ w s' asked, editParts f v (s, noted) = (w, s', noted ++ asked) ∧
      TurnedUpTo v.children.length above asked v w := by
  obtain ⟨asked, same, turned⟩ := editParts_induction (f := f) (s := (s, noted))
    (P := fun i u t => ∃ asked, t.2 = noted ++ asked ∧ TurnedUpTo i above asked v u)
    ⟨[], (List.append_nil noted).symm, .start v above⟩ (by
      rintro i u ⟨s, _⟩ c ⟨asked, rfl, turned⟩ part
      have member : c ∈ v.children := List.mem_of_getElem? (turned.getElem?.trans part)
      obtain ⟨w, s', more, edited, turns⟩ := each c member (u.setChild i vacant) s (noted ++ asked)
      rw [edited]
      exact ⟨asked ++ more, List.append_assoc _ _ _, turned.step part turns⟩)
  exact ⟨_, _, asked, Prod.ext rfl (Prod.ext rfl same), turned⟩

theorem depth_lt {v c : Node} (member : c ∈ v.children) : c.depth < v.depth := by
  rw [v.depth_eq]
  exact Nat.lt_succ_of_le (List.le_max_of_le' 0 (List.mem_map_of_mem member) (Nat.le_refl _))

/-- An edit that is given enough levels asks about every node, and turns the tree into the edited
one. -/
theorem editWithin_turns {visit : Visitor σ} (leaves : visit.OnLeaves) {levels : Nat} {v : Node}
    (deep : v.depth ≤ levels) (above : List Node) (s : σ) (noted : List Query) :
    ∃ w s' asked, editWithin visit.noting levels above v (s, noted) = (w, s', noted ++ asked) ∧
      Turns above asked [v] [w] := by
  induction levels generalizing above v s noted with
  | zero =>
      rw [v.depth_eq] at deep
      cases deep
  | succ levels ih =>
      simp only [editWithin, Visitor.noting]
      cases answer : (visit v above s).1 with
      | some w =>
          obtain ⟨bare, bare'⟩ := leaves v above s w answer
          refine ⟨w, (visit v above s).2, _, ?_, .leaf bare bare'⟩
          simp [editParts, bare']
      | none =>
          have each : ∀ c ∈ v.children, ∀ around s noted, ∃ w s' asked,
              editWithin visit.noting levels (around :: above) c (s, noted) =
                (w, s', noted ++ asked) ∧ Turns (around :: above) asked [c] [w] := by
            intro c member around s noted
            have shallow := depth_lt member
            exact ih (by omega) (around :: above) s noted
          obtain ⟨w, s', asked, edited, turned⟩ :=
            editParts_turns each (visit v above s).2 (noted ++ [⟨v, above, none⟩])
          refine ⟨w, s', ⟨v, above, none⟩ :: asked, ?_, turned.finish⟩
          rw [Option.getD_none, edited, List.append_assoc, List.singleton_append]

/-! ## Edits and walks -/

/-- An edit goes the way of a walk. Without answers it gives the tree back; with answers that put
childless nodes in the place of childless nodes, a walk through the outcome finds each answer where
it was given, and everything else as it was. -/
theorem edit_goes_as_walk (visit : Visitor σ) (v : Node) (s : σ) :
    (visit.Silent → (v.edit visit s).1 = v ∧
      List.Forall₂ Query.AskedAt (v.queries visit s) v.walk) ∧
    (visit.OnLeaves → List.Forall₂ Query.AskedAt (v.queries visit s) v.walk ∧
      List.Forall₂ Query.SettledAt (v.queries visit s) (v.edit visit s).1.walk) := by
  have turns (leaves : visit.OnLeaves) :
      List.Forall₂ Query.AskedAt (v.queries visit s) v.walk ∧
        List.Forall₂ Query.SettledAt (v.queries visit s) (v.edit visit s).1.walk := by
    obtain ⟨w, s', asked, edited, turns⟩ :=
      editWithin_turns leaves (Nat.le_add_right v.depth growth) [] s []
    have outcome : (v.edit visit s).1 = w := by
      rw [← (v.edit_noting visit s []).1, edit, edited]
    have questions : v.queries visit s = asked := by
      rw [queries, edit, edited, List.nil_append]
    have both := turns [] rfl
    rw [List.flatMap_singleton, List.flatMap_singleton] at both
    rw [outcome, questions]
    exact both
  constructor
  · intro silent
    exact ⟨editWithin_of_silent silent _ _ _ _, (turns silent.onLeaves).1⟩
  · exact turns

/-- A visitor that puts a name in the place of every number, and counts them. -/
def naming : Visitor Nat := fun v _ count =>
  match v.form with
  | .literal _ token => (some (.ident ("n" ++ token)), count + 1)
  | _ => (none, count)

/-- A slice without a lower bound. -/
def openSlice (upper step : Node) : Node :=
  bare (.slice (.ident "x") .nowhere none .nowhere (some upper) (some .nowhere)
    (some step) .nowhere)

/-- The bounds of a slice are found where they stand, though one of them is missing. -/
theorem edit_goes_as_walk_slice :
    naming.OnLeaves ∧
      (openSlice (literal "1") (literal "2")).edit naming 0 =
        (openSlice (ident "n1") (ident "n2"), 2) ∧
      List.Forall₂ Query.AskedAt ((openSlice (literal "1") (literal "2")).queries naming 0)
        (openSlice (literal "1") (literal "2")).walk ∧
      List.Forall₂ Query.SettledAt ((openSlice (literal "1") (literal "2")).queries naming 0)
        (openSlice (ident "n1") (ident "n2")).walk := by
  have leaves : naming.OnLeaves := by
    rintro ⟨comments, f⟩ above s w answer
    cases f with
    | literal =>
        cases answer
        exact ⟨rfl, rfl⟩
    | _ => cases answer
  have outcome : (openSlice (literal "1") (literal "2")).edit naming 0 =
      (openSlice (ident "n1") (ident "n2"), 2) := by
    have depth : (openSlice (literal "1") (literal "2")).depth = 2 := by
      simp [openSlice, depth_eq, children, Form.children, bare, ident, literal]
    rw [edit, depth]
    rfl
  have both := (edit_goes_as_walk naming (openSlice (literal "1") (literal "2")) 0).2 leaves
  rw [outcome] at both
  exact ⟨leaves, outcome, both⟩

end Starlark.Node
