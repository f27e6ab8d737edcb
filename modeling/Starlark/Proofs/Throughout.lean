import Starlark.Proofs.Labels

/-!
# What holds throughout a tree

A property holds throughout a tree when it holds of every node that a walk
meets. Attaching comments fills the slots of a node's parts one by one, and
neither changes where nodes stand nor touches the comments below them. So what
is said of places and of those comments, and holds throughout a tree, still
holds when comments have been attached (`throughout_attach`).
-/

set_option autoImplicit false

namespace Starlark

namespace Node

variable {P : Node → Prop} {v : Node}

/-- The property holds of the node and of every node below it. -/
def Throughout (P : Node → Prop) (v : Node) : Prop := ∀ x ∈ v.walk, P x.node

/-- The ancestors of a node do not matter for what is below it. -/
theorem forall_walkBelow (above : List Node) (v : Node) :
    (∀ x ∈ v.walkBelow above, P x.node) ↔ v.Throughout P := by
  unfold Throughout walk
  induction v using inductionOnChildren generalizing above with
  | step v ih =>
      rw [walkBelow_eq, walkBelow_eq]
      simp only [List.forall_mem_cons, List.mem_flatMap, forall_exists_index, and_imp]
      refine and_congr_right fun _ => ⟨fun all x c member => ?_, fun all x c member => ?_⟩
      · exact (ih c member [v]).mpr ((ih c member (v :: above)).mp fun x => all x c member) x
      · exact (ih c member (v :: above)).mpr ((ih c member [v]).mp fun x => all x c member) x

theorem throughout_iff : v.Throughout P ↔ P v ∧ ∀ c ∈ v.children, c.Throughout P := by
  rw [Throughout, walk, walkBelow_eq]
  simp only [List.forall_mem_cons, List.mem_flatMap, forall_exists_index, and_imp]
  refine and_congr_right fun _ => ⟨fun all c member => ?_, fun all x c member => ?_⟩
  · exact (forall_walkBelow [v] c).mp fun x => all x c member
  · exact (forall_walkBelow [v] c).mpr (all c member) x

end Node

section Attaching

variable {σ : Type} {fill : Slot.Filler σ} {P : Node → Prop}

/-- A filler that leaves the comments below a slot as they are. -/
def Slot.Filler.KeepsAfter (fill : Slot.Filler σ) : Prop :=
  ∀ slot, Yields (fun c : Comments => c.after = slot.comments.after) (fill slot)

/-- A property that does not look at the comments above and behind the tokens of a node. -/
def Node.Stable (P : Node → Prop) : Prop :=
  ∀ u v : Node, u.plain = v.plain → u.comments.after = v.comments.after → P v → P u

theorem forall_right {vs ws : List Node} (same : List.Forall₂ (fun _ w => P w) vs ws) :
    ∀ w ∈ ws, P w := by
  induction same with
  | nil => nofun
  | cons here _ ih => exact List.forall_mem_cons.mpr ⟨here, ih⟩

theorem Node.throughout_fill (stable : Node.Stable P) (keeps : fill.KeepsAfter) {v : Node}
    (all : v.Throughout P) : Yields (Throughout P) (v.fill fill) := by
  induction v using Node.inductionOnChildren with
  | step v ih =>
      obtain ⟨here, below⟩ := throughout_iff.mp all
      intro s
      obtain ⟨after, _, parts⟩ :=
        Node.yields_fill (keeps _) (fun u member => ih u member (below u member)) s
      exact throughout_iff.mpr ⟨stable _ _ (v.plain_fill fill s) after here, forall_right parts⟩

theorem Node.throughout_fillBack (stable : Node.Stable P) (keeps : fill.KeepsAfter) {v : Node}
    (all : v.Throughout P) : Yields (Throughout P) (v.fillBack fill) := by
  induction v using Node.inductionOnChildren with
  | step v ih =>
      obtain ⟨here, below⟩ := throughout_iff.mp all
      intro s
      obtain ⟨after, _, parts⟩ :=
        Node.yields_fillBack (keeps _) (fun u member => ih u member (below u member)) s
      exact throughout_iff.mpr ⟨stable _ _ (v.plain_fillBack fill s) after here, forall_right parts⟩

end Attaching

theorem Slot.keepsAfter_takeLine : Slot.Filler.KeepsAfter Slot.takeLine := fun _ _ => rfl

theorem Slot.keepsAfter_takeSuffix : Slot.Filler.KeepsAfter Slot.takeSuffix := fun _ _ => rfl

/-- What holds throughout statements still holds when comments have been attached. -/
theorem throughout_attach {P : Node → Prop} (stable : Node.Stable P) {vs : List Node}
    (all : ∀ v ∈ vs, v.Throughout P) (line suffix : List Comment) :
    ∀ v ∈ (attach vs line suffix).1, v.Throughout P := by
  have first := Yields.fillList (fun v member =>
    Node.throughout_fill stable Slot.keepsAfter_takeLine (all v member)) line
  exact forall_right (Yields.fillListBack (fun v member =>
    Node.throughout_fillBack stable Slot.keepsAfter_takeSuffix (forall_right first v member))
      suffix.reverse)

/-- A file holds the lines of its source, with comments attached. -/
theorem File.attached_of_ofStream {path : String} {options : Options} {stream : TokenStream}
    {f : File} (read : File.ofStream path options stream = .ok f) :
    ∃ used rest entries, stream.tokens = used ++ rest ∧ Builds options.types used (.lines entries) ∧
      f.statements =
        (attach (Block.ofEntries entries).nodes stream.lineComments stream.suffixComments).1 := by
  obtain ⟨vs, statements, done⟩ := Outcome.bind_eq_ok.mp read
  obtain ⟨used, rest, entries, tokens, _, lines, rfl⟩ := Reader.statements_eq_ok statements
  cases done
  exact ⟨used, rest, entries, tokens, lines, rfl⟩

end Starlark
