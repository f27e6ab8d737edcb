import Mathlib.Data.List.Forall2
import Starlark.Attachment
import Starlark.Proofs.Children

/-!
# The pieces of a form

The pieces of a form are what comments are attached to inside it: its parts, and
its slots that are no nodes. What is left of the form without them is its shell.

Filling a form goes through its pieces, from the first to the last
(`Form.passes_fill`) or from the last to the first (`Form.passes_fillBack`), and
leaves the shell as it is. What such a pass does to a form is therefore told by
what it does to one piece.
-/

set_option autoImplicit false

namespace Starlark

/-- The name without its comments. -/
def Name.plain (x : Name) : Name := { x with comments := .none }

/-- The closing token without its comments. -/
def Close.plain (x : Close) : Close := .at x.pos

/-- The symbol of a `load` without its comments. -/
def Binding.plain (x : Binding) : Binding := ⟨x.symbol.plain, x.bound.plain⟩

/-- A part of a form, or a slot of it that is no node. -/
abbrev Form.Piece := Node ⊕ Slot

namespace Form

/-- The pieces of a form, in source order. -/
def pieces : Form → List Piece
  | .call callee _ args e _ => (callee :: args).map .inl ++ [.inr (.ofClose e)]
  | .collection k _ items e _ =>
    items.map .inl ++ if k = .bareTuple then [] else [.inr (.ofClose e)]
  | .comprehension _ _ body clauses e _ => (body :: clauses).map .inl ++ [.inr (.ofClose e)]
  | .paren _ x e _ => [.inl x, .inr (.ofClose e)]
  | .ifStmt _ cond yesBody e noBody =>
    (cond :: yesBody).map .inl ++ (if e.pos.isValid then [.inr (.ofClose e)] else []) ++
      noBody.map .inl
  | .load _ label comments bindings e _ =>
    .inr (.ofLabel label comments) ::
      bindings.flatMap (fun b => [.inr (.ofName b.bound), .inr (.ofName b.symbol)]) ++
      [.inr (.ofClose e)]
  | .typed name _ type => [.inr (.ofName name), .inl type]
  -- the other forms have no slots of their own
  | f => f.children.map .inl

/-- The form without its pieces: its parts taken out, and its slots empty. -/
def shell (f : Form) : Form :=
  match f.cleared with
  | .call x p args e l => .call x p args e.plain l
  | .collection k p items e l => .collection k p items (if k = .bareTuple then e else e.plain) l
  | .comprehension u p body clauses e m => .comprehension u p body clauses e.plain m
  | .paren p x e m => .paren p x e.plain m
  | .ifStmt p cond yesBody e noBody =>
    .ifStmt p cond yesBody (if e.pos.isValid then e.plain else e) noBody
  | .load p label _ bindings e k => .load p label .none (bindings.map Binding.plain) e.plain k
  | .typed name p type => .typed name.plain p type
  | g => g

/-- The parts of a form are its pieces that are nodes. -/
theorem children_eq_pieces (f : Form) : f.children = f.pieces.filterMap Sum.getLeft? := by
  have nodes (vs : List Node) : (vs.map .inl : List Piece).filterMap Sum.getLeft? = vs := by
    simp [List.filterMap_map, Function.comp_def]
  cases f with
  | collection k | ifStmt =>
      simp only [pieces, children, List.filterMap_append, nodes]
      split <;> simp
  | load =>
      simp only [children, pieces, List.nil_eq, List.filterMap_eq_nil_iff, List.cons_append,
        List.mem_cons, List.mem_append, List.mem_flatMap, List.not_mem_nil, or_false]
      rintro _ (rfl | ⟨b, _, rfl | rfl⟩ | rfl) <;> rfl
  | typed => rfl
  | _ => simp [pieces, children, nodes]

theorem mem_children_of_piece {f : Form} {v : Node} (member : .inl v ∈ f.pieces) :
    v ∈ f.children := by
  rw [children_eq_pieces]
  exact List.mem_filterMap.mpr ⟨_, member, rfl⟩

end Form

variable {σ α β : Type}

/-! ## Passes -/

/-- Whatever the state, the result is as the predicate says. -/
def Yields (P : α → Prop) (m : StateM σ α) : Prop := ∀ s, P (m s).1

namespace Yields

variable {P : α → Prop} {Q : β → Prop}

theorem pure {a : α} (holds : P a) : Yields P (Pure.pure a : StateM σ α) := fun _ => holds

theorem bind {m : StateM σ α} {f : α → StateM σ β} (first : Yields P m)
    (next : ∀ a, P a → Yields Q (f a)) : Yields Q (m >>= f) :=
  fun s => next (m s).1 (first s) (m s).2

theorem any (m : StateM σ α) : Yields (fun _ => True) m := fun _ => trivial

/-- Going through a list relates each element to what comes out for it. -/
theorem mapM {R : α → β → Prop} {f : α → StateM σ β} {xs : List α}
    (each : ∀ x ∈ xs, Yields (R x) (f x)) : Yields (List.Forall₂ R xs) (xs.mapM f) := by
  induction xs with
  | nil => exact .pure .nil
  | cons x xs ih =>
      obtain ⟨first, others⟩ := List.forall_mem_cons.mp each
      rw [List.mapM_cons]
      exact .bind first fun y here => .bind (ih others) fun ys later => .pure (.cons here later)

end Yields

/-- Gives a slot the comments that a filler has for it. -/
def Slot.Filler.refill (fill : Slot.Filler σ) (slot : Slot) : StateM σ Slot :=
  return { slot with comments := ← fill slot }

/-- Fills a piece, given what is done with a part. -/
def Form.Piece.fill (fill : Slot.Filler σ) (node : Node → StateM σ Node) : Piece → StateM σ Piece
  | .inl v => .inl <$> node v
  | .inr slot => .inr <$> fill.refill slot

/-- `m` goes through the pieces of a form, forwards or backwards, and changes nothing else. -/
structure Form.Passes (fill : Slot.Filler σ) (node : Node → StateM σ Node) (f : Form)
    (m : StateM σ Form) : Prop where
  shell : Yields (fun g => g.shell = f.shell) m
  pieces : pieces <$> m = f.pieces.mapM (Piece.fill fill node) ∨
    (fun g => g.pieces.reverse) <$> m = f.pieces.reverse.mapM (Piece.fill fill node)

section Laws

variable (fill : Slot.Filler σ) (node : Node → StateM σ Node)

theorem fillList_eq_mapM (vs : List Node) : fillList fill vs = vs.mapM (Node.fill fill) := by
  induction vs with
  | nil => rfl
  | cons v vs ih => rw [fillList, ih, List.mapM_cons]

theorem fillListBack_eq_mapM (vs : List Node) :
    fillListBack fill vs = List.reverse <$> vs.reverse.mapM (Node.fillBack fill) := by
  induction vs with
  | nil => rfl
  | cons v vs ih =>
      simp only [fillListBack, ih, List.reverse_cons, List.mapM_append, List.mapM_cons,
        List.mapM_nil, map_bind, map_pure, bind_map_left, bind_assoc, pure_bind,
        List.reverse_append, List.reverse_nil, List.nil_append, List.cons_append]

theorem mapM_fill_toList (v : Option Node) :
    v.toList.mapM (Node.fill fill) = do return (← fillOption fill v).toList := by
  cases v <;> simp [fillOption]

theorem mapM_fillBack_toList (v : Option Node) :
    v.toList.mapM (Node.fillBack fill) = do return (← fillOptionBack fill v).toList := by
  cases v <;> simp [fillOptionBack]

namespace Form.Piece

theorem fill_inl (v : Node) : Piece.fill fill node (.inl v) = do return .inl (← node v) := rfl

theorem fill_close (e : Close) :
    Piece.fill fill node (.inr (.ofClose e)) = do return .inr (.ofClose (← e.fill fill)) := rfl

theorem fill_name (x : Name) :
    Piece.fill fill node (.inr (.ofName x)) = do return .inr (.ofName (← x.fill fill)) := rfl

theorem fill_label (label : StringLit) (c : Comments) :
    Piece.fill fill node (.inr (.ofLabel label c)) =
      do return .inr (.ofLabel label (← fill (.ofLabel label c))) := rfl

theorem mapM_inl (vs : List Node) :
    (vs.map .inl).mapM (Piece.fill fill node) = do return (← vs.mapM node).map .inl := by
  induction vs with
  | nil => rfl
  | cons v vs ih =>
      simp only [List.map_cons, List.mapM_cons, ih, fill_inl, bind_assoc, pure_bind]

end Form.Piece

/-- To fill a form is to fill its pieces one after the other. -/
theorem Form.pieces_fill (f : Form) :
    pieces <$> f.fill fill = f.pieces.mapM (Piece.fill fill (Node.fill fill)) := by
  have symbols (bindings : List Binding) :
      (bindings.flatMap fun b => [.inr (.ofName b.bound), .inr (.ofName b.symbol)]).mapM
          (Piece.fill fill (Node.fill fill)) = do
        return (← bindings.mapM (Binding.fill fill)).flatMap
          fun b => [.inr (.ofName b.bound), .inr (.ofName b.symbol)] := by
    induction bindings with
    | nil => rfl
    | cons b bs ih =>
        simp only [List.flatMap_cons, List.mapM_cons, ih, Binding.fill, Piece.fill_name,
          bind_assoc, pure_bind, List.cons_append, List.nil_append]
  cases f
  all_goals
    rw [Form.fill]
    simp only [pieces, children, Piece.mapM_inl, fillList_eq_mapM, mapM_fill_toList, symbols,
      List.mapM_append, List.mapM_cons, List.mapM_nil, map_bind, map_pure, bind_assoc, pure_bind,
      Piece.fill_inl, Piece.fill_close, Piece.fill_name, Piece.fill_label, List.map_append,
      List.map_cons, List.map_nil, List.append_assoc, List.cons_append]
  case collection =>
    refine bind_congr fun items => ?_
    split <;> simp [Piece.fill_close, pieces, *]
  case ifStmt =>
    refine bind_congr fun cond => bind_congr fun yesBody => ?_
    split <;> simp [Piece.fill_close, Close.fill, pieces, *]

/-- To fill a form backwards is to fill its pieces from the last on. -/
theorem Form.pieces_fillBack (f : Form) :
    (fun g => g.pieces.reverse) <$> f.fillBack fill =
      f.pieces.reverse.mapM (Piece.fill fill (Node.fillBack fill)) := by
  have symbols (bindings : List Binding) :
      (bindings.flatMap fun b => [.inr (.ofName b.symbol), .inr (.ofName b.bound)]).mapM
          (Piece.fill fill (Node.fillBack fill)) = do
        return (← bindings.mapM (Binding.fillBack fill)).flatMap
          fun b => [.inr (.ofName b.symbol), .inr (.ofName b.bound)] := by
    induction bindings with
    | nil => rfl
    | cons b bs ih =>
        simp only [List.flatMap_cons, List.mapM_cons, ih, Binding.fillBack, Piece.fill_name,
          bind_assoc, pure_bind, List.cons_append, List.nil_append]
  have missing (v : Option Node) : v.toList.reverse = v.toList := by cases v <;> rfl
  cases f
  case collection =>
    rw [Form.fillBack]
    split <;> simp [-List.mapM_map, pieces, Piece.mapM_inl, Piece.fill_close, fillListBack_eq_mapM,
      ← List.map_reverse, *]
  case ifStmt =>
    rw [Form.fillBack]
    split <;> simp [-List.mapM_map, pieces, Piece.mapM_inl, Piece.fill_inl, Piece.fill_close,
      Close.fill, fillListBack_eq_mapM, ← List.map_reverse, *]
  all_goals
    rw [Form.fillBack]
    simp only [pieces, children, ← List.map_reverse, List.reverse_append, List.reverse_cons,
      List.reverse_nil, List.reverse_flatMap, List.reverse_reverse, missing, Piece.mapM_inl,
      fillListBack_eq_mapM, mapM_fillBack_toList, symbols, Function.comp_def,
      List.mapM_append, List.mapM_cons, List.mapM_nil, map_bind, map_pure, bind_assoc, pure_bind,
      bind_map_left, Piece.fill_inl, Piece.fill_close, Piece.fill_name, Piece.fill_label,
      List.map_append, List.map_cons, List.map_nil, List.append_assoc, List.cons_append,
      List.nil_append]

theorem yields_fillList (vs : List Node) :
    Yields (fun ws => ws.length = vs.length) (fillList fill vs) := by
  intro s
  rw [fillList_eq_mapM, length_mapM]

theorem yields_fillListBack (vs : List Node) :
    Yields (fun ws => ws.length = vs.length) (fillListBack fill vs) := by
  intro s
  rw [fillListBack_eq_mapM, ← vs.length_reverse, ← length_mapM (Node.fillBack fill) vs.reverse s]
  exact List.length_reverse

theorem yields_fillOption (v : Option Node) :
    Yields (fun w => w.map (fun _ => Node.vacant) = v.map fun _ => Node.vacant)
      (fillOption fill v) := by
  cases v <;> exact fun _ => rfl

theorem yields_fillOptionBack (v : Option Node) :
    Yields (fun w => w.map (fun _ => Node.vacant) = v.map fun _ => Node.vacant)
      (fillOptionBack fill v) := by
  cases v <;> exact fun _ => rfl

theorem Close.yields_fill (e : Close) :
    Yields (fun e' : Close => e'.plain = e.plain ∧ e'.pos = e.pos) (e.fill fill) :=
  fun _ => ⟨rfl, rfl⟩

theorem Name.yields_fill (x : Name) : Yields (fun x' : Name => x'.plain = x.plain) (x.fill fill) :=
  fun _ => rfl

omit fill in
theorem yields_symbols {g : Binding → StateM σ Binding}
    (each : ∀ b, Yields (fun b' : Binding => b'.plain = b.plain) (g b)) (bs : List Binding) :
    Yields (fun bs' => bs'.map Binding.plain = bs.map Binding.plain) (bs.mapM g) := by
  intro s
  induction bs generalizing s with
  | nil => rfl
  | cons b bs ih => rw [mapM_cons_apply, List.map_cons, List.map_cons, ih, each b s]

/-- Filling a form keeps its shell. -/
theorem Form.shell_fill (f : Form) : Yields (fun g => g.shell = f.shell) (f.fill fill) := by
  have symbols := yields_symbols (g := Binding.fill fill) fun _ _ => rfl
  cases f
  all_goals
    rw [Form.fill]
    repeat' first
      | rw [pure_bind]
      | refine .bind (yields_fillList fill _) fun _ _ => ?_
      | refine .bind (yields_fillOption fill _) fun _ _ => ?_
      | refine .bind (Close.yields_fill fill _) fun _ _ => ?_
      | refine .bind (Name.yields_fill fill _) fun _ _ => ?_
      | refine .bind (symbols _) fun _ _ => ?_
      | refine .bind (.any _) fun _ _ => ?_
      | refine .pure ?_
      | split
    all_goals simp_all [shell, cleared]

/-- Filling a form backwards keeps its shell. -/
theorem Form.shell_fillBack (f : Form) : Yields (fun g => g.shell = f.shell) (f.fillBack fill) := by
  have symbols := yields_symbols (g := Binding.fillBack fill) fun _ _ => rfl
  cases f
  all_goals
    rw [Form.fillBack]
    repeat' first
      | rw [pure_bind]
      | refine .bind (yields_fillListBack fill _) fun _ _ => ?_
      | refine .bind (yields_fillOptionBack fill _) fun _ _ => ?_
      | refine .bind (Close.yields_fill fill _) fun _ _ => ?_
      | refine .bind (Name.yields_fill fill _) fun _ _ => ?_
      | refine .bind (symbols _) fun _ _ => ?_
      | refine .bind (.any _) fun _ _ => ?_
      | refine .pure ?_
      | split
    all_goals simp_all [shell, cleared]

/-- Filling a form in source order goes through its pieces. -/
theorem Form.passes_fill (f : Form) : f.Passes fill (Node.fill fill) (f.fill fill) :=
  ⟨f.shell_fill fill, .inl (f.pieces_fill fill)⟩

/-- Filling a form from its end goes through its pieces. -/
theorem Form.passes_fillBack (f : Form) : f.Passes fill (Node.fillBack fill) (f.fillBack fill) :=
  ⟨f.shell_fillBack fill, .inr (f.pieces_fillBack fill)⟩

end Laws

/-! ## What a pass does -/

section Results

variable {fill : Slot.Filler σ} {node : Node → StateM σ Node} {R : Node → Node → Prop}

/-- Pieces that are related one by one have related nodes among them. -/
theorem Form.forall₂_getLeft? {ps qs : List Piece}
    (same : List.Forall₂ (Sum.LiftRel R fun _ _ => True) ps qs) :
    List.Forall₂ R (ps.filterMap Sum.getLeft?) (qs.filterMap Sum.getLeft?) := by
  induction same with
  | nil => exact .nil
  | cons first _ ih =>
      cases first with
      | inl here => exact .cons here ih
      | inr => exact ih

theorem Form.Passes.run {f : Form} {m : StateM σ Form} (passes : f.Passes fill node m) (s : σ) :
    ((m s).1.pieces, (m s).2) = f.pieces.mapM (Piece.fill fill node) s ∨
      ((m s).1.pieces.reverse, (m s).2) = f.pieces.reverse.mapM (Piece.fill fill node) s :=
  passes.pieces.imp (congrFun · s) (congrFun · s)

/-- A pass keeps the shell and does to each part what is done with a part. -/
theorem Form.Passes.parts {f : Form} {m : StateM σ Form} (passes : f.Passes fill node m)
    (each : ∀ v ∈ f.children, Yields (R v) (node v)) :
    Yields (fun g => g.shell = f.shell ∧ List.Forall₂ R f.children g.children) m := by
  have piece : ∀ p ∈ f.pieces,
      Yields (Sum.LiftRel R (fun _ _ => True) p) (Piece.fill fill node p) := by
    intro p member s
    cases p with
    | inl v => exact .inl (each v (mem_children_of_piece member) s)
    | inr slot => exact .inr trivial
  intro s
  refine ⟨passes.shell s, ?_⟩
  rw [children_eq_pieces, children_eq_pieces]
  apply forall₂_getLeft?
  rcases passes.run s with run | run
  · have result := Yields.mapM piece s
    rwa [← run] at result
  · have result := Yields.mapM (fun p member => piece p (List.mem_reverse.mp member)) s
    rw [← run] at result
    exact List.forall₂_reverse_iff.mp result

theorem Yields.fillList {vs : List Node} (each : ∀ v ∈ vs, Yields (R v) (v.fill fill)) :
    Yields (List.Forall₂ R vs) (fillList fill vs) := by
  rw [fillList_eq_mapM]
  exact .mapM each

theorem Yields.fillListBack {vs : List Node} (each : ∀ v ∈ vs, Yields (R v) (v.fillBack fill)) :
    Yields (List.Forall₂ R vs) (fillListBack fill vs) := by
  intro s
  rw [fillListBack_eq_mapM]
  refine List.forall₂_reverse_iff.mp ?_
  have run := Yields.mapM (fun v member => each v (List.mem_reverse.mp member)) s
  rwa [← (List.mapM (Node.fillBack fill) vs.reverse s).1.reverse_reverse] at run

/-- Filling a node gives it the comments for its slot and fills its parts. -/
theorem Node.yields_fill {P : Comments → Prop} {v : Node} (own : Yields P (fill (.ofNode v)))
    (each : ∀ u ∈ v.children, Yields (R u) (u.fill fill)) :
    Yields (fun w => P w.comments ∧ w.form.shell = v.form.shell ∧
      List.Forall₂ R v.children w.children) (v.fill fill) := by
  obtain ⟨c, f⟩ := v
  rw [Node.fill]
  exact .bind own fun c' here => .bind ((f.passes_fill fill).parts each) fun g parts =>
    .pure ⟨here, parts⟩

/-- The same from the end. -/
theorem Node.yields_fillBack {P : Comments → Prop} {v : Node} (own : Yields P (fill (.ofNode v)))
    (each : ∀ u ∈ v.children, Yields (R u) (u.fillBack fill)) :
    Yields (fun w => P w.comments ∧ w.form.shell = v.form.shell ∧
      List.Forall₂ R v.children w.children) (v.fillBack fill) := by
  unfold Node.fillBack
  split
  next c p n q params r s body l =>
    have inParams := Yields.fillListBack fun u member => each u (List.mem_append_left _ member)
    have inBody := Yields.fillListBack fun u member => each u (List.mem_append_right _ member)
    refine .bind inBody fun body' lines => .bind own fun c' here => ?_
    refine .bind inParams fun params' names => .pure ⟨here, ?_, List.rel_append names lines⟩
    simp [Form.shell, Form.cleared, names.length_eq, lines.length_eq]
  next c f _ =>
    exact .bind own fun c' here => .bind ((f.passes_fillBack fill).parts each) fun g parts =>
      .pure ⟨here, parts⟩

end Results

end Starlark
