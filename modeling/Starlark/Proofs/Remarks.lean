import Starlark.Proofs.Outcome
import Starlark.Proofs.Pieces
import Starlark.Source

/-!
# The comments of a tree

`Node.remarks` lists every comment that a tree carries, wherever it hangs.
Attaching comments loses none and invents none: what the tree carries and what
is still waiting together stay the same while the slots are filled, in
whichever order this is done. How often a comment occurs (`tally`) is counted
in integers, so that these balances can be solved for any of their parts.
-/

set_option autoImplicit false

namespace Starlark

/-! ## Lists of comments -/

/-- How often a comment occurs. -/
def tally (c : Comment) (cs : List Comment) : Int := cs.count c

section Tally

variable (c : Comment)

@[simp] theorem tally_nil : tally c [] = 0 := rfl

@[simp] theorem tally_append (xs ys : List Comment) :
    tally c (xs ++ ys) = tally c xs + tally c ys := by
  simp [tally]

@[simp] theorem tally_reverse (xs : List Comment) : tally c xs.reverse = tally c xs := by
  simp [tally]

theorem perm_of_tally {xs ys : List Comment} (same : ∀ c, tally c xs = tally c ys) :
    xs.Perm ys := by
  rw [List.perm_iff_count]
  intro c
  exact Int.ofNat.inj (same c)

end Tally

/-! ## Trees -/

/-- The comments of a symbol of a `load`. -/
def Binding.remarks (b : Binding) : List Comment :=
  b.bound.comments.toList ++ b.symbol.comments.toList

namespace Form

/-- The comments in the places of a form that are no nodes: its closing token,
the label and the symbols of a `load`, and the name of a typed parameter. -/
def held : Form → List Comment
  | .call _ _ _ e _ | .collection _ _ _ e _ | .comprehension _ _ _ _ e _ | .paren _ _ e _
  | .ifStmt _ _ _ e _ => e.comments.toList
  | .load _ _ c bindings e _ =>
    c.toList ++ bindings.flatMap Binding.remarks ++ e.comments.toList
  | .typed name _ _ => name.comments.toList
  | _ => []

end Form

namespace Node

/-- All comments of a tree. -/
def remarks (v : Node) : List Comment :=
  v.comments.toList ++ v.form.held ++ v.children.attach.flatMap fun ⟨c, _⟩ => remarks c
termination_by sizeOf v
decreasing_by exact sizeOf_lt_of_mem_children ‹_›

end Node

/-- The comments of some trees. -/
def remarksOf (vs : List Node) : List Comment := vs.flatMap Node.remarks

@[simp] theorem remarksOf_nil : remarksOf [] = [] := rfl

@[simp] theorem remarksOf_cons (v : Node) (vs : List Node) :
    remarksOf (v :: vs) = v.remarks ++ remarksOf vs := rfl

@[simp] theorem remarksOf_append (us vs : List Node) :
    remarksOf (us ++ vs) = remarksOf us ++ remarksOf vs :=
  List.flatMap_append

/-- The comments of a form, those of its node left out. -/
def Form.remarks (f : Form) : List Comment := f.held ++ remarksOf f.children

/-- A node carries its own comments and those of its form. -/
@[simp] theorem Node.remarks_mk (c : Comments) (f : Form) :
    (Node.mk c f).remarks = c.toList ++ f.remarks := by
  rw [remarks, Form.remarks, remarksOf]
  simp [List.flatMap_subtype, children]

/-- The comments of a piece. -/
def Form.Piece.remarks : Piece → List Comment
  | .inl v => v.remarks
  | .inr slot => slot.comments.toList

@[simp] theorem Form.Piece.remarks_inl (v : Node) : Piece.remarks (.inl v) = v.remarks := rfl

@[simp] theorem Form.Piece.remarks_inr (slot : Slot) :
    Piece.remarks (.inr slot) = slot.comments.toList := rfl

/-- The comments of a form are those of its pieces, and those that no slot holds. -/
theorem Form.tally_remarks (c : Comment) (f : Form) :
    tally c f.remarks = tally c f.shell.held + tally c (f.pieces.flatMap Piece.remarks) := by
  have parts (vs : List Node) : (vs.map .inl).flatMap Piece.remarks = remarksOf vs := by
    rw [List.flatMap_map]
    rfl
  have symbols (bs : List Binding) :
      (bs.flatMap fun b => [.inr (.ofName b.bound), .inr (.ofName b.symbol)]).flatMap
        Piece.remarks = bs.flatMap Binding.remarks := by
    simp only [List.flatMap_assoc, List.flatMap_cons, List.flatMap_nil, List.append_nil]
    rfl
  have empty (bs : List Binding) : (bs.map Binding.plain).flatMap Binding.remarks = [] :=
    List.flatMap_eq_nil_iff.mpr (List.forall_mem_map.mpr fun _ _ => rfl)
  have none : Comments.none.toList = [] := rfl
  have close (e : Close) : e.plain.comments = .none := rfl
  cases f with
  | load =>
      simp only [remarks, held, children, shell, cleared, pieces, close, none, empty]
      simp [symbols, Slot.ofClose, Slot.ofLabel]
  | call | comprehension | paren =>
      simp only [remarks, held, children, shell, cleared, pieces, close, none]
      simp [parts, Slot.ofClose]
      omega
  | collection =>
      simp only [remarks, held, children, shell, cleared, pieces]
      split <;> simp [Slot.ofClose, add_comm, *]
  | ifStmt =>
      simp only [remarks, held, children, shell, cleared, pieces]
      split
      next valid =>
        simp [Slot.ofClose, *]
        omega
      next missing => simp [*]
  | typed =>
      simp [remarks, held, children, shell, cleared, pieces, none, Slot.ofName, Name.plain]
  | _ => simp [remarks, held, shell, cleared, pieces, parts]

/-! ## Filling slots -/

section Fill

variable {α β : Type} {c : Comment}

/-- Running `m` moves copies of the comment `c` between those that wait and the
value it makes, which weighs `weight` where something of weight `before` was. -/
def Balanced (c : Comment) (weight : α → Int) (before : Int)
    (m : StateM (List Comment) α) : Prop :=
  ∀ waiting, weight (m waiting).1 + tally c (m waiting).2 = before + tally c waiting

namespace Balanced

variable {weight : α → Int} {weight' : β → Int} {before total : Int}

theorem pure {a : α} (same : weight a = before) :
    Balanced c weight before (Pure.pure a : StateM (List Comment) α) := by
  intro waiting
  show weight a + tally c waiting = before + tally c waiting
  rw [same]

/-- What the first step makes takes the place of what it was made from. -/
theorem bind {m : StateM (List Comment) α} {k : α → StateM (List Comment) β}
    (first : Balanced c weight before m)
    (rest : ∀ a, Balanced c weight' (total - before + weight a) (k a)) :
    Balanced c weight' total (m >>= k) := by
  intro waiting
  have here := first waiting
  have there := rest (m waiting).1 (m waiting).2
  show weight' (k (m waiting).1 (m waiting).2).1 + tally c (k (m waiting).1 (m waiting).2).2 = _
  omega

end Balanced

/-- Filling a slot moves comments from those that wait to the slot. -/
def Slot.Filler.Fair (c : Comment) (fill : Slot.Filler (List Comment)) : Prop :=
  ∀ slot : Slot, Balanced c (fun x : Comments => tally c x.toList) (tally c slot.comments.toList)
    (fill slot)

/-- The node that `m` makes of `v` carries the comments of `v` and some of
those that waited. -/
abbrev Node.Fills (c : Comment) (v : Node) (m : StateM (List Comment) Node) : Prop :=
  Balanced c (fun v : Node => tally c v.remarks) (tally c v.remarks) m

variable {fill : Slot.Filler (List Comment)}

/-- Filling a list of nodes keeps the balance when filling each node does. -/
theorem balanced_fillList {vs : List Node} (each : ∀ v ∈ vs, v.Fills c (v.fill fill)) :
    Balanced c (fun vs => tally c (remarksOf vs)) (tally c (remarksOf vs)) (fillList fill vs) := by
  induction vs with
  | nil => exact .pure rfl
  | cons v vs ih =>
      refine .bind (each v (by simp)) fun v' => ?_
      refine .bind (ih fun u member => each u (by simp [member])) fun vs' => .pure ?_
      simp only [remarksOf_cons, tally_append]
      omega

/-- The same for a list of anything that is filled one by one. -/
theorem balanced_mapM {weight : α → List Comment} {f : α → StateM (List Comment) α} {xs : List α}
    (each : ∀ x ∈ xs, Balanced c (fun x => tally c (weight x)) (tally c (weight x)) (f x)) :
    Balanced c (fun xs => tally c (xs.flatMap weight)) (tally c (xs.flatMap weight))
      (xs.mapM f) := by
  induction xs with
  | nil => exact .pure rfl
  | cons x xs ih =>
      obtain ⟨first, others⟩ := List.forall_mem_cons.mp each
      rw [List.mapM_cons]
      refine .bind first fun x' => .bind (ih others) fun xs' => .pure ?_
      simp only [List.flatMap_cons, tally_append]
      omega

/-- The same in the order in which slots stop. -/
theorem balanced_fillListBack {vs : List Node} (each : ∀ v ∈ vs, v.Fills c (v.fillBack fill)) :
    Balanced c (fun vs => tally c (remarksOf vs)) (tally c (remarksOf vs))
      (fillListBack fill vs) := by
  induction vs with
  | nil => exact .pure rfl
  | cons v vs ih =>
      refine .bind (ih fun u member => each u (by simp [member])) fun vs' => ?_
      refine .bind (each v (by simp)) fun v' => .pure ?_
      simp only [remarksOf_cons, tally_append]
      omega

theorem tally_flatMap_reverse {weight : α → List Comment} (xs : List α) :
    tally c (xs.reverse.flatMap weight) = tally c (xs.flatMap weight) :=
  congrArg Int.ofNat ((List.reverse_perm xs).flatMap_right weight |>.count_eq c)

variable (fair : fill.Fair c)
include fair

/-- A pass over a form gives out each comment once: what the form gains has left the queue. -/
theorem Form.Passes.balanced {f : Form} {node : Node → StateM (List Comment) Node}
    {m : StateM (List Comment) Form} (passes : f.Passes fill node m)
    (each : ∀ v ∈ f.children, v.Fills c (node v)) :
    Balanced c (fun f : Form => tally c f.remarks) (tally c f.remarks) m := by
  have piece : ∀ p ∈ f.pieces, Balanced c (fun p : Piece => tally c p.remarks)
      (tally c (Piece.remarks p)) (Piece.fill fill node p) := by
    intro p member
    cases p with
    | inl v => exact each v (mem_children_of_piece member)
    | inr slot => exact fair slot
  intro waiting
  have shell := passes.shell waiting
  simp only [tally_remarks] at shell ⊢
  rw [shell]
  rcases passes.run waiting with run | run
  · have balance := balanced_mapM piece waiting
    simp only [← run] at balance
    omega
  · have balance := balanced_mapM (fun p member => piece p (List.mem_reverse.mp member)) waiting
    simp only [← run, tally_flatMap_reverse] at balance
    omega

/-- Filling the slots of a tree, in the order in which they start. -/
theorem Node.balanced_fill (v : Node) : v.Fills c (v.fill fill) := by
  induction v using Node.inductionOnChildren with
  | step v ih =>
      obtain ⟨comments, f⟩ := v
      refine .bind (fair (.ofNode (.mk comments f))) fun comments' => ?_
      refine .bind ((f.passes_fill fill).balanced fair ih) fun f' => .pure ?_
      simp [Slot.ofNode]

/-- Filling the slots of a tree, in the order in which they stop. -/
theorem Node.balanced_fillBack (v : Node) : v.Fills c (v.fillBack fill) := by
  induction v using Node.inductionOnChildren with
  | step v ih =>
      obtain ⟨comments, f⟩ := v
      have slot := fair (.ofNode (.mk comments f))
      unfold Node.fillBack
      split
      · rename_i p n q params r s body l same
        cases same
        refine .bind (balanced_fillListBack fun v member => ih v ?_) fun body' => ?_
        · simp [children, Form.children, member]
        refine .bind slot fun comments' => ?_
        refine .bind (balanced_fillListBack fun v member => ih v ?_) fun params' => .pure ?_
        · simp [children, Form.children, member]
        simp [Slot.ofNode, Form.remarks, Form.held, Form.children]
        omega
      · rename_i same
        cases same
        refine .bind slot fun comments' => ?_
        refine .bind ((Form.passes_fillBack fill _).balanced fair ih) fun f' => .pure ?_
        simp [Slot.ofNode]

omit fair

/-! ## Attachment -/

/-- Cutting the waiting comments in two loses none. -/
theorem tally_span (c : Comment) (p : Comment → Bool) (waiting : List Comment) :
    tally c (waiting.span p).1 + tally c (waiting.span p).2 = tally c waiting := by
  rw [List.span_eq_takeWhile_dropWhile, ← tally_append, List.takeWhile_append_dropWhile]

theorem Slot.takeLine_fair : Slot.takeLine.Fair c := by
  intro slot waiting
  have count := tally_span c (·.start.offset ≤ slot.start.offset) waiting
  show tally c (_ ++ (waiting.span _).1 ++ slot.comments.suffix ++ slot.comments.after) +
    tally c (waiting.span _).2 = _
  simp only [Comments.toList, tally_append] at count ⊢
  omega

theorem Slot.takeSuffix_fair : Slot.takeSuffix.Fair c := by
  intro slot waiting
  have count := tally_span c slot.takesSuffix waiting
  show tally c (slot.comments.before ++ (_ ++ (waiting.span _).1.reverse) ++ slot.comments.after) +
    tally c (waiting.span _).2 = _
  simp only [Comments.toList, tally_append, tally_reverse] at count ⊢
  omega

/-- Attaching comments to statements neither loses nor invents any: what the
statements carry afterwards, and what finds no place, is what they carried
before and what was to be attached. -/
theorem tally_attach (c : Comment) (vs : List Node) (line suffix : List Comment) :
    tally c (remarksOf (attach vs line suffix).1) + tally c (attach vs line suffix).2.1 +
        tally c (attach vs line suffix).2.2 =
      tally c (remarksOf vs) + tally c line + tally c suffix := by
  have first : Balanced c _ (tally c (remarksOf vs)) (fillList Slot.takeLine vs) :=
    balanced_fillList fun v _ => v.balanced_fill Slot.takeLine_fair
  let vs' := (fillList Slot.takeLine vs line).1
  have second : Balanced c _ (tally c (remarksOf vs')) (fillListBack Slot.takeSuffix vs') :=
    balanced_fillListBack fun v _ => v.balanced_fillBack Slot.takeSuffix_fair
  have lines := first line
  have suffixes := second suffix.reverse
  show tally c (remarksOf (fillListBack Slot.takeSuffix vs' suffix.reverse).1) +
    tally c (fillList Slot.takeLine vs line).2 +
    tally c (fillListBack Slot.takeSuffix vs' suffix.reverse).2.reverse = _
  simp only [tally_reverse] at suffixes ⊢
  simp only [vs'] at suffixes ⊢
  omega

end Fill

end Starlark
