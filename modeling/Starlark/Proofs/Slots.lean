import Starlark.Proofs.Grove
import Starlark.Proofs.Span.File

/-!
# The slots of a tree

`Node.slots` lists the places of a tree that can carry comments, nested as the
nodes are. Filling the slots of a tree goes through this row of trees, from its
start to fill them in the order in which they start, and from its end to fill
them in the order in which they stop.
-/

set_option autoImplicit false

namespace Starlark

/-- The slots of the symbols of a `load`, names before symbols. -/
def slotsOfBindings : List Binding → Grove Slot
  | [] => .nil
  | b :: bs => .leaf (.ofName b.bound) ++ .leaf (.ofName b.symbol) ++ slotsOfBindings bs

mutual

/-- The slots of a node: its own, and those of its parts. -/
def Node.slots : Node → Grove Slot
  | .mk c f => .node (.ofNode (.mk c f)) f.slots f.bodySlots .nil

/-- The slots of the parts of a form, in source order; the body of a `def` is left out. -/
def Form.slots : Form → Grove Slot
  | .ident .. | .literal .. | .string .. | .branch .. | .commentBlock .. | .verbatim .. => .nil
  | .dot x _ _ _ => x.slots
  | .index x _ y _ => x.slots ++ y.slots
  | .slice x _ lower _ upper _ step _ =>
    x.slots ++ slotsOfOption lower ++ slotsOfOption upper ++ slotsOfOption step
  | .unary _ _ x => slotsOfOption x
  | .binary _ x _ _ _ y => x.slots ++ y.slots
  | .conditional yes _ test _ no => yes.slots ++ test.slots ++ no.slots
  | .lambda _ params _ body => slotsOf params ++ body.slots
  | .call callee _ args e _ => callee.slots ++ slotsOf args ++ .leaf (.ofClose e)
  | .collection k _ items e _ =>
    slotsOf items ++ if k = .bareTuple then .nil else .leaf (.ofClose e)
  | .keyValue key _ value => key.slots ++ value.slots
  | .comprehension _ _ body clauses e _ => body.slots ++ slotsOf clauses ++ .leaf (.ofClose e)
  | .forClause _ vars _ x => vars.slots ++ x.slots
  | .ifClause _ cond => cond.slots
  | .paren _ x e _ => x.slots ++ .leaf (.ofClose e)
  | .defStmt _ _ _ params _ _ _ _ => slotsOf params
  | .forStmt _ vars x body => vars.slots ++ x.slots ++ slotsOf body
  | .ifStmt _ cond yesBody e noBody =>
    cond.slots ++ slotsOf yesBody ++ (if e.pos.isValid then .leaf (.ofClose e) else .nil) ++
      slotsOf noBody
  | .returnStmt _ result => slotsOfOption result
  | .load _ label comments bindings e _ =>
    .leaf (.ofLabel label comments) ++ slotsOfBindings bindings ++ .leaf (.ofClose e)
  | .typed name _ type => .leaf (.ofName name) ++ type.slots

/-- The slots of the body of a `def`. -/
def Form.bodySlots : Form → Grove Slot
  | .defStmt _ _ _ _ _ _ body _ => slotsOf body
  | _ => .nil

def slotsOf : List Node → Grove Slot
  | [] => .nil
  | x :: rest => x.slots ++ slotsOf rest

def slotsOfOption : Option Node → Grove Slot
  | none => .nil
  | some x => x.slots

end

variable {σ : Type}

theorem Yields.bind_congr {α β : Type} {P : α → Prop} {m : StateM σ α} {f g : α → StateM σ β}
    (yields : Yields P m) (same : ∀ a, P a → f a = g a) : m >>= f = m >>= g :=
  funext fun s => congrFun (same _ (yields s)) (m s).2

/-- Comments aside, the slot of a node does not depend on comments. -/
theorem Slot.ofNode_of_plain {v w : Node} (same : w.plain = v.plain) :
    Slot.ofNode w = { Slot.ofNode v with comments := w.comments } := by
  have start : w.start = v.start := by rw [← w.start_plain, same, v.start_plain]
  have stop : w.stop = v.stop := by rw [← w.stop_plain, same, v.stop_plain]
  have takes : (Slot.ofNode w).takes = (Slot.ofNode v).takes := by
    have plain (u : Node) : (Slot.ofNode u.plain).takes = (Slot.ofNode u).takes := by
      obtain ⟨c, f⟩ := u
      cases f <;> rfl
    rw [← plain w, same, plain v]
  unfold Slot.ofNode at takes ⊢
  simp only at takes
  rw [start, stop, takes]

/-! ## Slots of pieces -/

/-- The slots of a piece: those of a node, or the slot that it is. -/
def Form.Piece.slots : Form.Piece → Grove Slot
  | .inl v => v.slots
  | .inr slot => .leaf slot

/-- The slots of some pieces, in their order. -/
def slotsOfPieces : List Form.Piece → Grove Slot
  | [] => .nil
  | p :: ps => p.slots ++ slotsOfPieces ps

theorem slotsOfPieces_append (ps qs : List Form.Piece) :
    slotsOfPieces (ps ++ qs) = slotsOfPieces ps ++ slotsOfPieces qs := by
  induction ps with
  | nil => rfl
  | cons p ps ih => rw [List.cons_append, slotsOfPieces, slotsOfPieces, ih, Grove.append_assoc]

theorem slotsOf_eq_pieces (vs : List Node) : slotsOf vs = slotsOfPieces (vs.map .inl) := by
  induction vs with
  | nil => rfl
  | cons v vs ih => rw [slotsOf, List.map_cons, slotsOfPieces, ih, Form.Piece.slots]

/-- The slots of a form, those of a body included, are the slots of its pieces. -/
theorem Form.slots_eq_pieces (f : Form) : f.slots ++ f.bodySlots = slotsOfPieces f.pieces := by
  have option (v : Option Node) : slotsOfOption v = slotsOfPieces (v.toList.map .inl) := by
    cases v with
    | none => rfl
    | some v => exact (Grove.append_nil _).symm
  have symbols (bindings : List Binding) : slotsOfBindings bindings = slotsOfPieces
      (bindings.flatMap fun b => [.inr (.ofName b.bound), .inr (.ofName b.symbol)]) := by
    induction bindings with
    | nil => rfl
    | cons b bs ih => rw [slotsOfBindings, ih]; rfl
  cases f
  case collection | ifStmt =>
    simp only [slots, bodySlots, pieces]
    split <;> simp [slotsOf_eq_pieces, slotsOfPieces_append, slotsOfPieces, Piece.slots,
      Grove.append_assoc]
  all_goals
    simp [slots, bodySlots, pieces, children, slotsOf_eq_pieces, option, symbols,
      slotsOfPieces_append, slotsOfPieces, Piece.slots, Grove.append_assoc]

/-- A form that is no `def` has no slots of a body apart, whatever its comments. -/
theorem Form.bodySlots_eq_nil {f g : Form} (same : g.plain = f.plain)
    (other : ∀ p n q params r s body l, f ≠ .defStmt p n q params r s body l) :
    g.bodySlots = .nil := by
  cases g with
  | defStmt =>
      cases f with
      | defStmt => exact (other _ _ _ _ _ _ _ _ rfl).elim
      | _ => cases same
  | _ => rfl

theorem Form.slots_eq_of_plain {f g : Form} (same : g.plain = f.plain)
    (other : ∀ p n q params r s body l, f ≠ .defStmt p n q params r s body l) :
    g.slots = slotsOfPieces g.pieces := by
  rw [← slots_eq_pieces, bodySlots_eq_nil same other, Grove.append_nil]

theorem Slot.ofNode_defStmt {c comments : Comments} {p q r s : Position} {n : String}
    {params params' body body' : List Node} {l : Layout}
    (inParams : plainList params' = plainList params) (inBody : plainList body' = plainList body) :
    Slot.ofNode (.mk comments (.defStmt p n q params' r s body' l)) =
      { Slot.ofNode (.mk c (.defStmt p n q params r s body l)) with comments := comments } := by
  apply ofNode_of_plain
  simp only [Node.plain, Form.plain, inParams, inBody]

/-! ## Filling -/

section Filling

variable {fill : Slot.Filler σ} {node : Node → StateM σ Node} {ps : List Form.Piece}

/-- To fill a piece is to fill its slots, in either direction. -/
theorem Form.Piece.slots_fill {go : Grove Slot → StateM σ (Grove Slot)} {p : Form.Piece}
    (leaf : ∀ slot, go (.leaf slot) = (Grove.leaf slot).fill fill.refill)
    (part : ∀ v, p = .inl v → Node.slots <$> node v = go v.slots) :
    Piece.slots <$> p.fill fill node = go p.slots := by
  cases p with
  | inl v =>
      rw [Piece.slots, ← part v rfl, Piece.fill_inl, map_bind]
      rfl
  | inr slot =>
      rw [Piece.slots, leaf]
      simp [Piece.fill, Piece.slots, Grove.leaf, Grove.fill]

/-- Filling pieces from the first on fills their slots from the first on. -/
theorem slotsOfPieces_fill
    (each : ∀ v, .inl v ∈ ps → Node.slots <$> node v = v.slots.fill fill.refill) :
    slotsOfPieces <$> ps.mapM (Form.Piece.fill fill node) =
      (slotsOfPieces ps).fill fill.refill := by
  induction ps with
  | nil => rfl
  | cons p ps ih =>
      have first := Form.Piece.slots_fill (p := p) (fun _ => rfl)
        fun v same => each v (same ▸ .head _)
      have others := ih fun v member => each v (.tail _ member)
      simp only [List.mapM_cons, slotsOfPieces, Grove.fill_append, ← first, ← others, map_bind,
        map_pure, bind_map_left]

/-- Filling pieces from the last on fills their slots from the last on. -/
theorem slotsOfPieces_fillBack
    (each : ∀ v, .inl v ∈ ps → Node.slots <$> node v = v.slots.fillBack fill.refill) :
    (fun qs => slotsOfPieces qs.reverse) <$> ps.reverse.mapM (Form.Piece.fill fill node) =
      (slotsOfPieces ps).fillBack fill.refill := by
  induction ps with
  | nil => rfl
  | cons p ps ih =>
      have first := Form.Piece.slots_fill (p := p) (Grove.fillBack_leaf fill.refill)
        fun v same => each v (same ▸ .head _)
      have others := ih fun v member => each v (.tail _ member)
      simp only [List.reverse_cons, List.mapM_append, List.mapM_cons, List.mapM_nil,
        slotsOfPieces, Grove.fillBack_append, ← first, ← others, map_bind, map_pure,
        bind_map_left, bind_assoc, pure_bind, List.reverse_append, List.reverse_nil,
        List.nil_append, List.cons_append]

/-- A node without a body apart is filled by filling its own slot and then its form. -/
theorem Node.slots_of_form {c : Comments} {f : Form} {m : StateM σ Form}
    (plain : Yields (fun g => g.plain = f.plain) m)
    (other : ∀ p n q params r s body l, f ≠ .defStmt p n q params r s body l) :
    Node.slots <$> (do
        let comments ← fill (.ofNode (.mk c f))
        let g ← m
        return .mk comments g) = do
      let own ← fill.refill (.ofNode (.mk c f))
      let g ← m
      return .node own (slotsOfPieces g.pieces) .nil .nil := by
  simp only [Slot.Filler.refill, map_bind, map_pure, bind_assoc, pure_bind]
  refine bind_congr fun comments => plain.bind_congr fun g same => ?_
  have own := Slot.ofNode_of_plain (v := .mk c f) (w := .mk comments g)
    (congrArg (Node.mk .none) same)
  rw [Node.slots, own, Form.slots_eq_of_plain same other, Form.bodySlots_eq_nil same other]
  rfl

variable (fill)

theorem slotsOf_fill {vs : List Node}
    (each : ∀ v ∈ vs, Node.slots <$> v.fill fill = v.slots.fill fill.refill) :
    slotsOf <$> fillList fill vs = (slotsOf vs).fill fill.refill := by
  have pieces : slotsOfPieces <$> (vs.map .inl).mapM (Form.Piece.fill fill (Node.fill fill)) =
      (slotsOfPieces (vs.map .inl)).fill fill.refill := slotsOfPieces_fill (by simpa using each)
  simp only [Form.Piece.mapM_inl, map_bind, map_pure, ← slotsOf_eq_pieces] at pieces
  rw [← pieces, fillList_eq_mapM]
  rfl

theorem slotsOf_fillBack {vs : List Node}
    (each : ∀ v ∈ vs, Node.slots <$> v.fillBack fill = v.slots.fillBack fill.refill) :
    slotsOf <$> fillListBack fill vs = (slotsOf vs).fillBack fill.refill := by
  have pieces : (fun qs => slotsOfPieces qs.reverse) <$>
        (vs.map .inl).reverse.mapM (Form.Piece.fill fill (Node.fillBack fill)) =
      (slotsOfPieces (vs.map .inl)).fillBack fill.refill :=
    slotsOfPieces_fillBack (by simpa using each)
  simp only [← List.map_reverse, Form.Piece.mapM_inl, map_bind, map_pure,
    ← slotsOf_eq_pieces] at pieces
  rw [← pieces, fillListBack_eq_mapM, Functor.map_map]
  rfl

/-- To fill a tree is to fill its slots in the order in which they start. -/
theorem Node.slots_fill (v : Node) : Node.slots <$> v.fill fill = v.slots.fill fill.refill := by
  induction v using inductionOnChildren with
  | step v ih =>
      obtain ⟨c, f⟩ := v
      by_cases other : ∀ p n q params r s body l, f ≠ .defStmt p n q params r s body l
      · have row : slotsOfPieces <$> f.pieces.mapM (Form.Piece.fill fill (Node.fill fill)) =
            (slotsOfPieces f.pieces).fill fill.refill :=
          slotsOfPieces_fill fun v member => ih v (Form.mem_children_of_piece member)
        rw [← f.pieces_fill] at row
        rw [Node.fill, slots_of_form (f.plain_fill fill) other, Node.slots,
          Form.slots_eq_of_plain rfl other, Form.bodySlots_eq_nil rfl other]
        simp only [Grove.fill, ← row, bind_map_left, pure_bind]
      · push Not at other
        obtain ⟨p, n, q, params, r, s, body, l, rfl⟩ := other
        have inParams := slotsOf_fill fill fun u member => ih u (List.mem_append_left _ member)
        have inBody := slotsOf_fill fill fun u member => ih u (List.mem_append_right _ member)
        simp only [Node.fill, Form.fill, Node.slots, Form.slots, Form.bodySlots, Grove.fill,
          ← inParams, ← inBody, Slot.Filler.refill, map_bind, map_pure, bind_map_left, bind_assoc,
          pure_bind]
        refine bind_congr fun comments => ?_
        refine (plain_fillList fill params).bind_congr fun params' sameParams => ?_
        refine (plain_fillList fill body).bind_congr fun body' sameBody => ?_
        rw [Slot.ofNode_defStmt sameParams sameBody]

/-- To fill a tree backwards is to fill its slots in the order in which they stop. -/
theorem Node.slots_fillBack (v : Node) :
    Node.slots <$> v.fillBack fill = v.slots.fillBack fill.refill := by
  induction v using inductionOnChildren with
  | step v ih =>
      unfold Node.fillBack
      split
      next c p n q params r s body l =>
        have inParams := slotsOf_fillBack fill fun u member => ih u (List.mem_append_left _ member)
        have inBody := slotsOf_fillBack fill fun u member => ih u (List.mem_append_right _ member)
        simp only [Node.slots, Form.slots, Form.bodySlots, Grove.fillBack, ← inParams, ← inBody,
          Slot.Filler.refill, map_bind, map_pure, bind_map_left, bind_assoc, pure_bind]
        refine (plain_fillListBack fill body).bind_congr fun body' sameBody => ?_
        refine bind_congr fun comments => ?_
        refine (plain_fillListBack fill params).bind_congr fun params' sameParams => ?_
        rw [Slot.ofNode_defStmt sameParams sameBody]
      next c f other =>
        have row : (fun qs => slotsOfPieces qs.reverse) <$>
              f.pieces.reverse.mapM (Form.Piece.fill fill (Node.fillBack fill)) =
            (slotsOfPieces f.pieces).fillBack fill.refill :=
          slotsOfPieces_fillBack fun v member => ih v (Form.mem_children_of_piece member)
        rw [← f.pieces_fillBack] at row
        rw [slots_of_form (f.plain_fillBack fill) other, Node.slots,
          Form.slots_eq_of_plain rfl other, Form.bodySlots_eq_nil rfl other]
        simp only [Grove.fillBack, ← row, bind_map_left, pure_bind, List.reverse_reverse]

end Filling

/-! ## Slots with a body -/

/-- Whether a slot takes the comments behind its end. -/
def Slot.takesEnd (s : Slot) : Bool :=
  match s.takes with
  | .behindEnd => true
  | _ => false

theorem slotsOfPieces_topped {ps : List Form.Piece}
    (each : ∀ v, .inl v ∈ ps → v.slots.Topped Slot.takesEnd) :
    (slotsOfPieces ps).Topped Slot.takesEnd := by
  induction ps with
  | nil => trivial
  | cons p ps ih =>
      refine Grove.topped_append.mpr ⟨?_, ih fun v member => each v (.tail _ member)⟩
      cases p with
      | inl v => exact each v (.head _)
      | inr slot => exact Grove.topped_leaf slot

theorem slotsOf_topped {vs : List Node} (each : ∀ v ∈ vs, v.slots.Topped Slot.takesEnd) :
    (slotsOf vs).Topped Slot.takesEnd := by
  rw [slotsOf_eq_pieces]
  exact slotsOfPieces_topped (by simpa using each)

/-- Only a `def` has a body apart, and it takes no comments behind its end. -/
theorem Node.slots_topped (v : Node) : v.slots.Topped Slot.takesEnd := by
  induction v using inductionOnChildren with
  | step v ih =>
      obtain ⟨c, f⟩ := v
      have pieces := slotsOfPieces_topped fun v member => ih v (Form.mem_children_of_piece member)
      rw [← Form.slots_eq_pieces] at pieces
      obtain ⟨inParts, inBody⟩ := Grove.topped_append.mp pieces
      refine ⟨fun ends => ?_, inParts, inBody, trivial⟩
      cases f with
      | defStmt => cases ends
      | _ => rfl

end Starlark
