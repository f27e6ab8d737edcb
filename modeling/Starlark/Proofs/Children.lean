import Mathlib.Data.List.Basic
import Starlark.Node.Children

/-!
# The laws of parts

The parts of a node are reached in three ways: all of them in a list, one of
them by its index, or each of them in turn, to be changed in its place. The
three agree (`parts_by_index`): the part at an index is the entry of the list
there (`child?_eq`), and a change of all parts meets the list from its first
entry to its last (`children_mapPartsM`). Putting a node in the place of a part
changes that entry of the list (`children_setChild`) and nothing else of the
node (`cleared_setChild`).

`cleared` is what a node is apart from its parts: the node with every part taken
out. It is defined form by form, and not by taking out one part after another.
A node is determined by it together with the list of its parts
(`eq_of_cleared`), so two nodes are compared by comparing these two.
-/

set_option autoImplicit false

namespace Starlark

namespace Form

/-- The part at an index is the entry of the list of parts there. -/
theorem child?_eq (f : Form) (i : Nat) : f.child? i = f.children[i]? := by
  cases f with
  | ident | literal | string | branch | load | commentBlock | verbatim | collection => rfl
  | unary _ _ x | returnStmt _ x => cases x <;> cases i <;> rfl
  | lambda _ params _ body =>
      rw [child?]
      split
      next before => exact (List.getElem?_append_left before).symm
      next behind =>
        obtain ⟨k, rfl⟩ := Nat.exists_eq_add_of_le (Nat.le_of_not_lt behind)
        cases k <;> simp [children]
  | defStmt _ _ _ params _ _ body _ =>
      rw [child?]
      split
      next before => exact (List.getElem?_append_left before).symm
      next behind => exact (List.getElem?_append_right (Nat.le_of_not_lt behind)).symm
  | ifStmt _ cond yesBody _ noBody =>
      cases i with
      | zero => rfl
      | succ i =>
          rw [child?, if_neg (Nat.succ_ne_zero i)]
          split
          next before => exact (List.getElem?_append_left before).symm
          next behind => exact (List.getElem?_append_right (Nat.le_of_not_lt behind)).symm
  | _ => rcases i with _ | _ | _ | i <;> rfl

/-- Putting a node in the place of a part changes that entry of the list of parts. -/
theorem children_setChild (f : Form) (i : Nat) (c : Node) :
    (f.setChild i c).children = f.children.set i c := by
  cases f with
  | ident | literal | string | branch | load | commentBlock | verbatim | collection => rfl
  | unary _ _ x | returnStmt _ x => cases x <;> cases i <;> rfl
  | slice _ _ lower _ upper _ step _ =>
      -- where a bound stands in the list depends on which bounds there are
      cases lower <;> cases upper <;> cases step <;> rcases i with _ | _ | _ | _ | i <;> rfl
  | lambda _ params _ body =>
      show params.set i c ++ [if i = params.length then c else body] = (params ++ [body]).set i c
      rcases Nat.lt_or_ge i params.length with before | behind
      · rw [List.set_append_left i c before, if_neg (Nat.ne_of_lt before)]
      · rw [List.set_append_right i c behind, List.set_eq_of_length_le behind]
        obtain ⟨k, rfl⟩ := Nat.exists_eq_add_of_le behind
        cases k <;> simp
  | defStmt _ _ _ params _ _ body _ =>
      rw [setChild]
      split
      next before => exact (List.set_append_left i c before).symm
      next behind => exact (List.set_append_right i c (Nat.le_of_not_lt behind)).symm
  | ifStmt _ cond yesBody _ noBody =>
      cases i with
      | zero => rfl
      | succ i =>
          rw [setChild, if_neg (Nat.succ_ne_zero i)]
          split
          next before => exact congrArg (cond :: ·) (List.set_append_left i c before).symm
          next behind =>
            exact congrArg (cond :: ·) (List.set_append_right i c (Nat.le_of_not_lt behind)).symm
  | _ => rcases i with _ | _ | _ | i <;> rfl

/-! ## Apart from the parts -/

/-- The form with every part taken out. -/
def cleared : Form → Form
  | .dot _ p q n => .dot .vacant p q n
  | .index _ p _ q => .index .vacant p .vacant q
  | .slice _ p lower q upper r step s =>
    .slice .vacant p (lower.map fun _ => .vacant) q (upper.map fun _ => .vacant) r
      (step.map fun _ => .vacant) s
  | .unary p o x => .unary p o (x.map fun _ => .vacant)
  | .binary a _ p o l _ => .binary a .vacant p o l .vacant
  | .conditional _ p _ q _ => .conditional .vacant p .vacant q .vacant
  | .lambda p params q _ => .lambda p (params.map fun _ => .vacant) q .vacant
  | .call _ p args e l => .call .vacant p (args.map fun _ => .vacant) e l
  | .collection k p items e l => .collection k p (items.map fun _ => .vacant) e l
  | .keyValue _ p _ => .keyValue .vacant p .vacant
  | .comprehension u p _ clauses e m =>
    .comprehension u p .vacant (clauses.map fun _ => .vacant) e m
  | .forClause p _ q _ => .forClause p .vacant q .vacant
  | .ifClause p _ => .ifClause p .vacant
  | .paren p _ e m => .paren p .vacant e m
  | .defStmt p n q params r s body l =>
    .defStmt p n q (params.map fun _ => .vacant) r s (body.map fun _ => .vacant) l
  | .forStmt p _ _ body => .forStmt p .vacant .vacant (body.map fun _ => .vacant)
  | .ifStmt p _ yesBody e noBody =>
    .ifStmt p .vacant (yesBody.map fun _ => .vacant) e (noBody.map fun _ => .vacant)
  | .returnStmt p result => .returnStmt p (result.map fun _ => .vacant)
  | .typed n p _ => .typed n p .vacant
  -- the other forms have no parts
  | f => f

/-- Putting a node in the place of a part changes nothing else. -/
theorem cleared_setChild (f : Form) (i : Nat) (c : Node) :
    (f.setChild i c).cleared = f.cleared := by
  cases f <;> simp only [setChild] <;> (repeat' split) <;> simp [cleared, Function.comp_def]

end Form

/-! ## All parts in turn -/

/-- Going through a list with a state: the first element, and then the others. -/
theorem mapM_cons_apply {σ α β : Type} (f : α → StateM σ β) (x : α) (xs : List α) (s : σ) :
    (x :: xs).mapM f s =
      ((f x s).1 :: (xs.mapM f (f x s).2).1, (xs.mapM f (f x s).2).2) := by
  rw [List.mapM_cons]
  rfl

/-- Leaves something as it is and notes it. -/
def note {α : Type} (x : α) : StateM (List α) α := fun seen => (x, seen ++ [x])

theorem mapM_note {α : Type} (xs seen : List α) : xs.mapM note seen = (xs, seen ++ xs) := by
  induction xs generalizing seen with
  | nil =>
      rw [List.append_nil]
      rfl
  | cons x xs ih => rw [mapM_cons_apply, note, ih, List.append_assoc, List.singleton_append]

theorem length_mapM {σ α β : Type} (f : α → StateM σ β) (xs : List α) (s : σ) :
    (xs.mapM f s).1.length = xs.length := by
  induction xs generalizing s with
  | nil => rfl
  | cons x xs ih => rw [mapM_cons_apply, List.length_cons, List.length_cons, ih]

theorem mapM_eq_self {σ α : Type} {f : α → StateM σ α} {xs : List α}
    (each : ∀ x ∈ xs, ∀ s, (f x s).1 = x) (s : σ) : (xs.mapM f s).1 = xs := by
  induction xs generalizing s with
  | nil => rfl
  | cons x xs ih =>
      obtain ⟨first, others⟩ := List.forall_mem_cons.mp each
      rw [mapM_cons_apply, first, ih others]

section ByNumber

variable {α β : Type} (change : α → α × β)

/-- Changes number `i` of what is met, and keeps what the change yields besides. -/
def changeAt (i : Nat) (x : α) : StateM (Nat × Option β) α := fun (n, result) =>
  if n = i then ((change x).1, n + 1, some (change x).2) else (x, n + 1, result)

theorem mapM_changeAt_of_lt {i n : Nat} (passed : i < n) (result : Option β) (xs : List α) :
    xs.mapM (changeAt change i) (n, result) = (xs, n + xs.length, result) := by
  induction xs generalizing n with
  | nil => rfl
  | cons x xs ih =>
      rw [mapM_cons_apply, changeAt, if_neg (Nat.ne_of_gt passed), ih (Nat.lt_add_right 1 passed),
        List.length_cons, Nat.add_right_comm]
      rfl

/-- Counting from `n`, the element number `n + k` is the one that is changed. -/
theorem mapM_changeAt (n k : Nat) (xs : List α) :
    xs.mapM (changeAt change (n + k)) (n, none) =
      (xs.modify k fun x => (change x).1, n + xs.length, xs[k]?.map fun x => (change x).2) := by
  induction xs generalizing n k with
  | nil =>
      rw [List.modify_nil, List.getElem?_nil]
      rfl
  | cons x xs ih =>
      rw [mapM_cons_apply, changeAt, List.length_cons]
      cases k with
      | zero =>
          rw [Nat.add_zero, if_pos rfl]
          dsimp only
          rw [mapM_changeAt_of_lt change (Nat.lt_add_one n), Nat.add_right_comm]
          rfl
      | succ k =>
          have later := ih (n + 1) k
          rw [Nat.add_right_comm n 1 k] at later
          rw [if_neg (by omega)]
          dsimp only
          rw [← Nat.add_assoc, later, Nat.add_right_comm]
          rfl

end ByNumber

section InTurn

variable {σ : Type} (g : Node → StateM σ Node)

/-- Going through the parts of a form is going through the list of them. -/
theorem Form.children_mapPartsM (f : Form) : children <$> f.mapPartsM g = f.children.mapM g := by
  cases f with
  | unary _ _ x | returnStmt _ x => cases x <;> simp [mapPartsM, children]
  | slice _ _ lower _ upper _ step _ =>
      cases lower <;> cases upper <;> cases step <;> simp [mapPartsM, children]
  | _ => simp [mapPartsM, children]

/-- Going through the parts of a form changes nothing else of it. -/
theorem Form.cleared_mapPartsM (f : Form) (s : σ) : (f.mapPartsM g s).1.cleared = f.cleared := by
  have kept (vs : List Node) (s : σ) :
      (vs.mapM g s).1.map (fun _ => Node.vacant) = vs.map fun _ => Node.vacant := by
    rw [List.map_const', List.map_const', length_mapM]
  cases f with
  | unary _ _ x | returnStmt _ x => cases x <;> rfl
  | slice _ _ lower _ upper _ step _ => cases lower <;> cases upper <;> cases step <;> rfl
  | lambda p params q body => exact congrArg (lambda p · q .vacant) (kept params s)
  | call callee p args e l => exact congrArg (call .vacant p · e l) (kept args _)
  | collection k p items e l => exact congrArg (collection k p · e l) (kept items s)
  | comprehension u p body clauses e m =>
      exact congrArg (comprehension u p .vacant · e m) (kept clauses _)
  | defStmt p n q params r t body l =>
      exact (congrArg (defStmt p n q · r t _ l) (kept params s)).trans
        (congrArg (defStmt p n q _ r t · l) (kept body _))
  | forStmt p vars x body => exact congrArg (forStmt p .vacant .vacant ·) (kept body _)
  | ifStmt p cond yesBody e noBody =>
      exact (congrArg (ifStmt p .vacant · e _) (kept yesBody _)).trans
        (congrArg (ifStmt p .vacant _ e ·) (kept noBody _))
  | _ => rfl

end InTurn

theorem Node.nextOr_cons (c next : Node) (rest : List Node) :
    nextOr c (next :: rest) = (next, rest) := rfl

/-- As many nodes are taken from the line as there are to replace. -/
theorem Node.mapM_nextOr {vs ws : List Node} (same : vs.length = ws.length) (rest : List Node) :
    vs.mapM nextOr (ws ++ rest) = (ws, rest) := by
  induction vs generalizing ws with
  | nil =>
      obtain rfl : ws = [] := List.length_eq_zero_iff.mp same.symm
      rfl
  | cons v vs ih =>
      obtain ⟨w, ws, rfl⟩ := List.exists_cons_of_length_eq_add_one same.symm
      rw [List.cons_append, mapM_cons_apply, nextOr_cons, ih (Nat.succ.inj same)]

namespace Form

/-- Its parts, put back where they were taken out, give the form again. -/
theorem mapPartsM_cleared (f : Form) : (f.cleared.mapPartsM Node.nextOr f.children).1 = f := by
  have all (vs rest : List Node) :
      (vs.map fun _ => Node.vacant).mapM Node.nextOr (vs ++ rest) = (vs, rest) :=
    Node.mapM_nextOr (List.length_map _) rest
  have last (vs : List Node) : (vs.map fun _ => Node.vacant).mapM Node.nextOr vs = (vs, []) := by
    simpa only [List.append_nil] using all vs []
  cases f with
  | unary _ _ x | returnStmt _ x => cases x <;> rfl
  | slice _ _ lower _ upper _ step _ => cases lower <;> cases upper <;> cases step <;> rfl
  | lambda p params q body =>
      exact congrArg (fun x => lambda p x.1 q (Node.vacant.nextOr x.2).1) (all params [body])
  | call callee p args e l => exact congrArg (call callee p ·.1 e l) (last args)
  | collection k p items e l => exact congrArg (collection k p ·.1 e l) (last items)
  | comprehension u p body clauses e m =>
      exact congrArg (comprehension u p body ·.1 e m) (last clauses)
  | defStmt p n q params r t body l =>
      exact (congrArg (fun x => defStmt p n q x.1 r t
          ((body.map fun _ => Node.vacant).mapM Node.nextOr x.2).1 l) (all params body)).trans
        (congrArg (defStmt p n q params r t ·.1 l) (last body))
  | forStmt p vars x body => exact congrArg (forStmt p vars x ·.1) (last body)
  | ifStmt p cond yesBody e noBody =>
      exact (congrArg (fun x => ifStmt p cond x.1 e
          ((noBody.map fun _ => Node.vacant).mapM Node.nextOr x.2).1) (all yesBody noBody)).trans
        (congrArg (ifStmt p cond yesBody e ·.1) (last noBody))
  | _ => rfl

/-- A form is its parts and what it is apart from them. -/
theorem eq_of_cleared {f g : Form} (same : f.cleared = g.cleared)
    (parts : f.children = g.children) : f = g := by
  rw [← f.mapPartsM_cleared, ← g.mapPartsM_cleared, same, parts]

end Form

namespace Node

/-- A property that holds of a node whenever it holds of its parts holds of
every node. -/
theorem inductionOnChildren {P : Node → Prop} (step : ∀ v, (∀ c ∈ v.children, P c) → P v)
    (v : Node) : P v :=
  step v fun c _ => inductionOnChildren step c
termination_by sizeOf v
decreasing_by exact sizeOf_lt_of_mem_children ‹_›

/-- The node with every part taken out. -/
def cleared (v : Node) : Node := .mk v.comments v.form.cleared

theorem child?_eq (v : Node) (i : Nat) : v.child? i = v.children[i]? := v.form.child?_eq i

@[simp] theorem children_setChild (v : Node) (i : Nat) (c : Node) :
    (v.setChild i c).children = v.children.set i c := v.form.children_setChild i c

@[simp] theorem cleared_setChild (v : Node) (i : Nat) (c : Node) :
    (v.setChild i c).cleared = v.cleared :=
  congrArg (Node.mk v.comments) (v.form.cleared_setChild i c)

/-- A node is its parts and what it is apart from them. -/
theorem eq_of_cleared {v w : Node} (same : v.cleared = w.cleared)
    (parts : v.children = w.children) : v = w := by
  obtain ⟨comments, f⟩ := v
  obtain ⟨comments', g⟩ := w
  obtain ⟨rfl, forms⟩ : comments = comments' ∧ f.cleared = g.cleared := by
    simpa [cleared] using same
  rw [Form.eq_of_cleared forms parts]

/-- Putting a part in its own place changes nothing. -/
theorem setChild_eq_self {v : Node} {i : Nat} {c : Node} (here : v.children[i]? = some c) :
    v.setChild i c = v := by
  apply eq_of_cleared (v.cleared_setChild i c)
  obtain ⟨bound, rfl⟩ := List.getElem?_eq_some_iff.mp here
  rw [children_setChild, List.set_getElem_self bound]

section InTurn

variable {σ : Type} (g : Node → StateM σ Node) (v : Node)

theorem children_mapPartsM : children <$> v.mapPartsM g = v.children.mapM g := by
  rw [mapPartsM, children, ← Form.children_mapPartsM]
  simp [children]

theorem cleared_mapPartsM (s : σ) : (v.mapPartsM g s).1.cleared = v.cleared :=
  congrArg (Node.mk v.comments) (v.form.cleared_mapPartsM g s)

end InTurn

/-- As many nodes as there are parts take their places. -/
theorem children_withChildren {v : Node} {cs : List Node} (same : v.children.length = cs.length) :
    (v.withChildren cs).children = cs := by
  have parts := congrFun (children_mapPartsM nextOr v) cs
  have taken := mapM_nextOr same []
  rw [List.append_nil] at taken
  rw [taken] at parts
  exact congrArg Prod.fst parts

theorem cleared_withChildren (v : Node) (cs : List Node) :
    (v.withChildren cs).cleared = v.cleared := v.cleared_mapPartsM nextOr cs

theorem withChildren_children (v : Node) : v.withChildren v.children = v :=
  eq_of_cleared (v.cleared_withChildren v.children) (children_withChildren rfl)

/-! ## One part among all -/

/-- The parts that a change of all parts meets, first to last. -/
def met (v : Node) : List Node := (v.mapPartsM note []).2

/-- The node with another one written over the part that a change of all parts meets as number
`i`. -/
def overwrite (v : Node) (i : Nat) (c : Node) : Node :=
  (v.mapPartsM (changeAt (fun _ => (c, ())) i) (0, none)).1

theorem met_eq (v : Node) : v.met = v.children := by
  have met := congrFun (v.children_mapPartsM note) []
  rw [mapM_note] at met
  exact congrArg Prod.snd met

theorem overwrite_eq (v : Node) (i : Nat) (c : Node) : v.overwrite i c = v.setChild i c := by
  apply eq_of_cleared
  · rw [overwrite, cleared_mapPartsM, cleared_setChild]
  · have parts := congrFun (v.children_mapPartsM (changeAt (fun _ => (c, ())) i)) (0, none)
    have written := mapM_changeAt (fun _ => (c, ())) 0 i v.children
    rw [Nat.zero_add] at written
    rw [children_setChild, List.set_eq_modify]
    exact congrArg Prod.fst (parts.trans written)

/-- The part at an index is the entry of that number among all parts, however they are reached:
listed, or changed in turn. Writing to it changes this entry of the list, and nothing else of the
node. -/
theorem parts_by_index (v : Node) (i : Nat) :
    v.child? i = v.met[i]? ∧ (v.child? i = none ↔ v.met.length ≤ i) ∧ v.met = v.children ∧
      ∀ c, v.setChild i c = v.overwrite i c ∧ (v.setChild i c).children = v.children.set i c ∧
        (v.setChild i c).cleared = v.cleared := by
  rw [met_eq, child?_eq]
  refine ⟨rfl, List.getElem?_eq_none_iff, rfl, ?_⟩
  intro c
  exact ⟨(v.overwrite_eq i c).symm, v.children_setChild i c, v.cleared_setChild i c⟩

end Node

end Starlark
