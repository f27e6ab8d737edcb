import Starlark.File.Print
import Starlark.Proofs.Outcome
import Starlark.Reader.Expression

/-!
# Moving the places of a tree

A shift moves places without changing their lines. `Node.moved` applies it to
every place of a tree. The lines on which the parts of the tree start and stop
stay what they are, and with them the hints for its layout, and nothing else of
a place is ever printed: the text of a tree does not change
(`File.formatWith_moved`).
-/

set_option autoImplicit false

namespace Starlark

/-- A way of moving places within their lines. -/
structure Shift where
  /-- Where a place goes. -/
  place : Position → Position
  line : ∀ p, (place p).line = p.line
  /-- Neighbours of places that go to the same place do so, too. -/
  right : ∀ {p q}, place p = place q → place p.right = place q.right

namespace Shift

/-- Nothing moves. -/
def still : Shift := ⟨id, fun _ => rfl, fun same => congrArg Position.right same⟩

/-- Every place goes to the front of its line. -/
def toMargin : Shift where
  place p := ⟨p.line, 0, 0⟩
  line _ := rfl
  right {p q} same := by
    have lines : p.line = q.line := (Position.mk.inj same).1
    simp [Position.right, lines]

end Shift

attribute [simp] Shift.line

variable (φ : Shift)

/-! ## Moving -/

/-- The name in its new place. -/
def Name.moved (x : Name) : Name := { x with pos := φ.place x.pos }

/-- The literal in its new place. -/
def StringLit.moved (x : StringLit) : StringLit :=
  { x with start := φ.place x.start, stop := φ.place x.stop }

/-- The closing token in its new place. -/
def Close.moved (x : Close) : Close := { x with pos := φ.place x.pos }

/-- The symbol of a `load` in its new place. -/
def Binding.moved (x : Binding) : Binding := ⟨x.symbol.moved φ, x.bound.moved φ⟩

mutual

/-- The node in its new place. -/
def Node.moved : Node → Node
  | .mk c f => .mk c f.moved

/-- The form in its new place. -/
def Form.moved : Form → Form
  | .ident p n => .ident (φ.place p) n
  | .literal p t => .literal (φ.place p) t
  | .string lit => .string (lit.moved φ)
  | .dot x p q n => .dot x.moved (φ.place p) (φ.place q) n
  | .index x p y q => .index x.moved (φ.place p) y.moved (φ.place q)
  | .slice x p lower q upper r step s =>
    .slice x.moved (φ.place p) (movedOption lower) (φ.place q) (movedOption upper)
      (r.map φ.place) (movedOption step) (φ.place s)
  | .unary p o x => .unary (φ.place p) o (movedOption x)
  | .binary a x p o l y => .binary a x.moved (φ.place p) o l y.moved
  | .conditional yes p test q no =>
    .conditional yes.moved (φ.place p) test.moved (φ.place q) no.moved
  | .lambda p params q body => .lambda (φ.place p) (movedList params) (φ.place q) body.moved
  | .call callee p args e l => .call callee.moved (φ.place p) (movedList args) (e.moved φ) l
  | .collection k p items e l => .collection k (φ.place p) (movedList items) (e.moved φ) l
  | .keyValue key p value => .keyValue key.moved (φ.place p) value.moved
  | .comprehension u p body clauses e m =>
    .comprehension u (φ.place p) body.moved (movedList clauses) (e.moved φ) m
  | .forClause p vars q x => .forClause (φ.place p) vars.moved (φ.place q) x.moved
  | .ifClause p cond => .ifClause (φ.place p) cond.moved
  | .paren p x e m => .paren (φ.place p) x.moved (e.moved φ) m
  | .defStmt p n q params r s body l =>
    .defStmt (φ.place p) n (φ.place q) (movedList params) (φ.place r) (φ.place s)
      (movedList body) l
  | .forStmt p vars x body => .forStmt (φ.place p) vars.moved x.moved (movedList body)
  | .ifStmt p cond yesBody e noBody =>
    .ifStmt (φ.place p) cond.moved (movedList yesBody) (e.moved φ) (movedList noBody)
  | .returnStmt p result => .returnStmt (φ.place p) (movedOption result)
  | .branch t p => .branch t (φ.place p)
  | .load p label c bindings e k =>
    .load (φ.place p) (label.moved φ) c (bindings.map (Binding.moved φ)) (e.moved φ) k
  | .commentBlock p => .commentBlock (φ.place p)
  | .verbatim p t => .verbatim (φ.place p) t
  | .typed name p type => .typed (name.moved φ) (φ.place p) type.moved

def movedList : List Node → List Node
  | [] => []
  | x :: rest => x.moved :: movedList rest

def movedOption : Option Node → Option Node
  | none => none
  | some x => some x.moved

end

theorem movedList_eq_map (vs : List Node) : movedList φ vs = vs.map (Node.moved φ) := by
  induction vs with
  | nil => rfl
  | cons v vs ih => rw [movedList, List.map_cons, ih]

theorem movedOption_eq_map (v : Option Node) : movedOption φ v = v.map (Node.moved φ) := by
  cases v <;> rfl

@[simp] theorem Node.moved_bare (f : Form) : (Node.bare f).moved φ = .bare (f.moved φ) := by
  rw [Node.bare, Node.moved]
  rfl

/-! ## A tree that stays where it is -/

theorem StringLit.moved_still (x : StringLit) : x.moved .still = x := rfl

theorem Close.moved_still (x : Close) : x.moved .still = x := rfl

theorem Name.moved_still (x : Name) : x.moved .still = x := rfl

theorem Binding.moved_still (x : Binding) : x.moved .still = x := rfl

mutual

theorem Node.moved_still : ∀ v : Node, v.moved .still = v
  | .mk c f => by rw [Node.moved, f.moved_still]

/-- Staying where it is changes no form. -/
theorem Form.moved_still : ∀ f : Form, f.moved .still = f
  | .ident .. | .literal .. | .string _ | .branch .. | .commentBlock _ | .verbatim .. => by
    rw [Form.moved]; rfl
  | .dot x _ _ _ => by rw [Form.moved, x.moved_still]; rfl
  | .index x _ y _ => by rw [Form.moved, x.moved_still, y.moved_still]; rfl
  | .slice x _ lower _ upper r step _ => by
    rw [Form.moved, x.moved_still, movedOption_still lower, movedOption_still upper,
      movedOption_still step]
    cases r <;> rfl
  | .unary _ _ x | .returnStmt _ x => by rw [Form.moved, movedOption_still x]; rfl
  | .binary _ x _ _ _ y => by rw [Form.moved, x.moved_still, y.moved_still]; rfl
  | .conditional yes _ test _ no => by
    rw [Form.moved, yes.moved_still, test.moved_still, no.moved_still]; rfl
  | .lambda _ params _ body => by rw [Form.moved, movedList_still params, body.moved_still]; rfl
  | .call callee _ args _ _ => by rw [Form.moved, callee.moved_still, movedList_still args]; rfl
  | .collection _ _ items _ _ => by rw [Form.moved, movedList_still items]; rfl
  | .keyValue key _ value => by rw [Form.moved, key.moved_still, value.moved_still]; rfl
  | .comprehension _ _ body clauses _ _ => by
    rw [Form.moved, body.moved_still, movedList_still clauses]; rfl
  | .forClause _ vars _ x => by rw [Form.moved, vars.moved_still, x.moved_still]; rfl
  | .ifClause _ cond => by rw [Form.moved, cond.moved_still]; rfl
  | .paren _ x _ _ => by rw [Form.moved, x.moved_still]; rfl
  | .defStmt _ _ _ params _ _ body _ => by
    rw [Form.moved, movedList_still params, movedList_still body]; rfl
  | .forStmt _ vars x body => by
    rw [Form.moved, vars.moved_still, x.moved_still, movedList_still body]; rfl
  | .ifStmt _ cond yesBody _ noBody => by
    rw [Form.moved, cond.moved_still, movedList_still yesBody, movedList_still noBody]; rfl
  | .load _ _ _ bindings _ _ => by
    rw [Form.moved, List.map_congr_left fun b _ => b.moved_still, List.map_id']; rfl
  | .typed _ _ type => by rw [Form.moved, type.moved_still]; rfl

theorem movedList_still : ∀ vs : List Node, movedList .still vs = vs
  | [] => rfl
  | v :: vs => by rw [movedList, v.moved_still, movedList_still vs]

theorem movedOption_still : ∀ v : Option Node, movedOption .still v = v
  | none => rfl
  | some v => by rw [movedOption, v.moved_still]

end

/-! ## Lines -/

/-- The line behind a text depends only on the line in front of it. -/
theorem Position.line_advance {p q : Position} (same : p.line = q.line) (text : List Char) :
    (p.advance text).line = (q.advance text).line := by
  induction text generalizing p q with
  | nil => exact same
  | cons c text ih =>
      refine ih ?_
      unfold next
      split <;> simp [same]

@[simp] theorem Shift.line_add (p : Position) (text : String) :
    ((φ.place p).add text).line = (p.add text).line :=
  Position.line_advance (φ.line p) _

@[simp] theorem Close.comments_moved (x : Close) : (x.moved φ).comments = x.comments := rfl

@[simp] theorem Close.line_stop_moved (x : Close) : (x.moved φ).stop.line = x.stop.line := φ.line _

mutual

@[simp] theorem Node.line_start_moved : ∀ v : Node, (v.moved φ).start.line = v.start.line
  | .mk _ f => f.line_start_moved

theorem Form.line_start_moved : ∀ f : Form, (f.moved φ).start.line = f.start.line
  | .dot x _ _ _ | .index x _ _ _ | .slice x _ _ _ _ _ _ _ | .binary _ x _ _ _ _
  | .conditional x _ _ _ _ | .call x _ _ _ _ | .keyValue x _ _ => x.line_start_moved
  | .collection .bareTuple p items _ _ => line_firstStart_moved p items
  | .collection .list .. | .collection .set .. | .collection .dict .. | .collection .tuple ..
  | .ident .. | .literal .. | .string _ | .unary .. | .lambda .. | .comprehension ..
  | .forClause .. | .ifClause .. | .paren .. | .defStmt .. | .forStmt .. | .ifStmt ..
  | .returnStmt .. | .branch .. | .load .. | .commentBlock _ | .verbatim .. | .typed .. => φ.line _

theorem line_firstStart_moved (p : Position) : ∀ vs : List Node,
    (firstStart (φ.place p) (movedList φ vs)).line = (firstStart p vs).line
  | [] => φ.line p
  | v :: _ => v.line_start_moved

end

/-- Places on the same line, each of which may be missing. -/
theorem line_getD {place other : Option Position} {d d' : Position}
    (same : place.map Position.line = other.map Position.line) (default : d.line = d'.line) :
    (place.getD d).line = (other.getD d').line := by
  cases place with
  | none => cases other <;> simp_all
  | some p => cases other <;> simp_all

mutual

@[simp] theorem Node.line_stop_moved : ∀ v : Node, (v.moved φ).stop.line = v.stop.line
  | .mk _ f => f.line_stop_moved

/-- Moving a form leaves the line on which it stops. -/
theorem Form.line_stop_moved : ∀ f : Form, (f.moved φ).stop.line = f.stop.line
  | .ident p n | .dot _ _ p n => φ.line_add p n
  | .literal p t | .branch t p | .verbatim p t => φ.line_add p t
  | .string lit => φ.line lit.stop
  | .unary p op none => φ.line_add p op
  | .returnStmt p none => φ.line_add p "return"
  | .unary _ _ (some x) | .binary _ _ _ _ _ x | .conditional _ _ _ _ x | .lambda _ _ _ x
  | .keyValue _ _ x | .forClause _ _ _ x | .ifClause _ x | .returnStmt _ (some x)
  | .typed _ _ x => x.line_stop_moved
  | .index .. | .slice .. | .collection .list .. | .collection .set .. | .collection .dict ..
  | .collection .tuple .. | .call .. | .comprehension .. | .paren .. | .load ..
  | .commentBlock _ => φ.line _
  | .collection .bareTuple p items _ _ => line_getD (line_lastStop_moved items) (φ.line p)
  | .defStmt _ _ _ _ _ s body _ => line_getD (line_lastStop_moved body) (φ.line s)
  | .forStmt _ _ x body => line_getD (line_lastStop_moved body) x.line_stop_moved
  | .ifStmt _ cond yesBody _ noBody =>
    line_getD (line_lastStop_moved noBody)
      (line_getD (line_lastStop_moved yesBody) cond.line_stop_moved)

theorem line_lastStop_moved : ∀ vs : List Node,
    (lastStop (movedList φ vs)).map Position.line = (lastStop vs).map Position.line
  | [] => rfl
  | [v] => by simp only [movedList, lastStop, Option.map_some, v.line_stop_moved]
  | _ :: v :: vs => line_lastStop_moved (v :: vs)

end

/-! ## Hints for the layout -/

theorem Node.isSimple_moved (v : Node) : (v.moved φ).isSimple = v.isSimple := by
  obtain ⟨_, f⟩ := v
  cases f with
  | unary p op x =>
      match x with
      | none => rfl
      | some (.mk _ g) => cases g <;> rfl
  | collection k p items e l => cases items <;> rfl
  | _ => rfl

namespace Layout

theorem followsOn_moved (stop line : Nat) (parts : List Node) :
    followsOn stop line (parts.map (Node.moved φ)) = followsOn stop line parts := by
  induction parts generalizing line with
  | nil => rfl
  | cons x parts ih =>
      simp only [List.map_cons, followsOn, Node.line_start_moved, Node.line_stop_moved,
        Node.isSimple_moved, ih]

theorem breaksBetween_moved (stop line : Nat) (parts : List Node) :
    breaksBetween stop line (parts.map (Node.moved φ)) = breaksBetween stop line parts := by
  induction parts generalizing line with
  | nil => rfl
  | cons x parts ih =>
      simp only [List.map_cons, breaksBetween, Node.line_start_moved, Node.line_stop_moved, ih]

theorem staysOpen_moved (a b : Position) (parts : List Node) :
    staysOpen (φ.place a) (parts.map (Node.moved φ)) (φ.place b) = staysOpen a parts b := by
  match parts with
  | [] | [_] | _ :: _ :: _ => simp [staysOpen]

theorem ofParts_moved (a b : Position) (parts : List Node) :
    ofParts (φ.place a) (parts.map (Node.moved φ)) (φ.place b) = ofParts a parts b := by
  simp [ofParts, staysCompact, staysOpen_moved, followsOn_moved]

theorem comprehensionStaysOpen_moved (a b : Position) (body : Node) (clauses : List Node) :
    comprehensionStaysOpen (φ.place a) (body.moved φ) (clauses.map (Node.moved φ)) (φ.place b) =
      comprehensionStaysOpen a body clauses b := by
  simp only [comprehensionStaysOpen, Shift.line]
  exact breaksBetween_moved φ b.line a.line (body :: clauses)

end Layout

/-! ## Printing -/

@[simp] theorem Node.comments_moved (v : Node) : (v.moved φ).comments = v.comments := by
  obtain ⟨_, _⟩ := v
  rfl

@[simp] theorem Form.needsParens_moved (f : Form) (outer : Strength) :
    (f.moved φ).needsParens outer = f.needsParens outer := by
  cases f with
  | binary assigns => cases assigns <;> rfl
  | _ => rfl

@[simp] theorem Form.isBlock_moved (f : Form) : (f.moved φ).isBlock = f.isBlock := by
  cases f <;> rfl

@[simp] theorem Node.isDef_moved (v : Node) : (v.moved φ).isDef = v.isDef := by
  obtain ⟨_, f⟩ := v
  cases f <;> rfl

@[simp] theorem Node.isLoad_moved (v : Node) : (v.moved φ).isLoad = v.isLoad := by
  obtain ⟨_, f⟩ := v
  cases f with
  | call callee =>
      obtain ⟨_, g⟩ := callee
      cases g <;> rfl
  | _ => rfl

/-- Blank lines in front of an `else` are seen by lines alone. -/
theorem gapBefore_moved (body : List Node) (e : Close) :
    gapBefore (movedList φ body) (e.moved φ) = gapBefore body e := by
  have last := line_lastStop_moved φ body
  unfold gapBefore
  cases found : lastStop body with
  | none =>
      rw [found, Option.map_none, Option.map_eq_none_iff] at last
      rw [last]
  | some q =>
      rw [found, Option.map_some, Option.map_eq_some_iff] at last
      obtain ⟨q', same, line⟩ := last
      simp [same, line, Close.moved]

namespace Printed

/-- The statement in its new place, with the doc it had. -/
def moved (s : Printed) : Printed := ⟨s.node.moved φ, s.doc⟩

@[simp] theorem node_moved (s : Printed) : (s.moved φ).node = s.node.moved φ := rfl

theorem items_moved (ss : List Printed) :
    (ss.map (moved φ)).map item = ss.map item := by
  rw [List.map_map]
  refine List.map_congr_left fun s _ => ?_
  simp [item, moved]

theorem statement_moved (s : Printed) : (s.moved φ).statement = s.statement := by
  obtain ⟨⟨c, f⟩, doc⟩ := s
  cases f <;> rfl

end Printed

theorem Page.keepsTogether_moved (p : Page) (s t : Node) :
    p.keepsTogether (s.moved φ) (t.moved φ) = p.keepsTogether s t := by
  simp [keepsTogether]

theorem Page.statements_moved : ∀ (ss : List Printed) (p : Page),
    statements (ss.map (Printed.moved φ)) p = statements ss p
  | [], _ => rfl
  | [s], p => by
    simp only [List.map_cons, List.map_nil, statements, Printed.statement_moved,
      Printed.node_moved, Node.comments_moved]
  | s :: t :: rest, p => by
    have ih := statements_moved (t :: rest)
    simp only [List.map_cons] at ih ⊢
    simp only [statements, ih, Printed.statement_moved, Printed.node_moved, Node.comments_moved,
      keepsTogether_moved]

theorem Page.block_moved (body : List Printed) :
    block (body.map (Printed.moved φ)) = block body := by
  funext p
  simp only [block, statements_moved]

/-- What follows a branch is an `else`, unless it is an `if` that stands alone. -/
theorem printElse_eq_block {body : List Node} (some' : body ≠ [])
    (other : ∀ {c q cond yesBody e noBody}, body ≠ [.mk c (.ifStmt q cond yesBody e noBody)])
    (gap : Bool) (e : Close) (p : Page) :
    printElse body gap e p = Page.block (printList body)
      (Page.queue e.comments.suffix
        (Page.put "else:" (Page.elseLine gap e.comments.before p))) := by
  cases body with
  | nil => exact absurd rfl some'
  | cons v vs =>
      rw [printElse, printList]
      rintro c q cond yesBody e' noBody rfl rfl
      exact other rfl

theorem printElse_moved_of_docs {v : Node} {vs : List Node}
    (docs : printList (movedList φ (v :: vs)) = (printList (v :: vs)).map (Printed.moved φ))
    (other : ∀ {c q cond yesBody e noBody}, v :: vs ≠ [.mk c (.ifStmt q cond yesBody e noBody)])
    (other' : ∀ {c q cond yesBody e noBody},
      movedList φ (v :: vs) ≠ [.mk c (.ifStmt q cond yesBody e noBody)])
    {gap : Bool} {e : Close} {p : Page} :
    printElse (movedList φ (v :: vs)) gap (e.moved φ) p = printElse (v :: vs) gap e p := by
  have some' : movedList φ (v :: vs) ≠ [] := List.cons_ne_nil _ _
  rw [printElse_eq_block some' other', printElse_eq_block (List.cons_ne_nil _ _) other, docs,
    Page.block_moved, Close.comments_moved]

mutual

theorem Node.print_moved : ∀ (v : Node) (outer : Strength),
    (v.moved φ).print outer = v.print outer
  | .mk c f, outer => by
    funext p
    simp only [Node.moved, Node.print, Form.needsParens_moved, Form.isBlock_moved, f.print_moved]

/-- A moved form is printed as before, by the recursion of the printer. -/
theorem Form.print_moved : ∀ (f : Form) (suffix : List Comment),
    (f.moved φ).print suffix = f.print suffix
  | .ident .., _ | .literal .., _ | .string _, _ | .branch .., _ | .commentBlock _, _
  | .verbatim .., _ | .returnStmt _ none, _ => rfl
  | .dot x _ _ _, _ | .ifClause _ x, _ | .typed _ _ x, _ | .returnStmt _ (some x), _ => by
    funext p
    simp only [Form.moved, movedOption, Form.print, x.print_moved, Name.moved]
  | .index x _ y _, _ | .keyValue x _ y, _ | .forClause _ x _ y, _ => by
    funext p
    simp only [Form.moved, Form.print, x.print_moved, y.print_moved]
  | .slice x _ lower _ upper second step _, _ => by
    funext p
    simp only [Form.moved, Form.print, x.print_moved, printOption_moved lower,
      printOption_moved upper, printOption_moved step, Option.isSome_map]
  | .unary _ op x, _ => by
    funext p
    simp only [Form.moved, Form.print, printOption_moved x]
  | .binary false x _ _ _ y, _ | .binary true x _ _ _ y, _ => by
    funext p
    simp only [Form.moved, Form.print, x.print_moved, y.print_moved]
  | .conditional yes _ test _ no, _ => by
    funext p
    simp only [Form.moved, Form.print, yes.print_moved, test.print_moved, no.print_moved]
  | .lambda _ params _ body, _ => by
    funext p
    simp only [Form.moved, Form.print, body.print_moved, printList_moved params,
      Printed.items_moved]
  | .call callee _ args _ _, _ => by
    funext p
    simp only [Form.moved, Form.print, callee.print_moved, printList_moved args,
      Printed.items_moved, Close.comments_moved]
  | .collection _ _ items _ _, _ => by
    funext p
    simp only [Form.moved, Form.print, printList_moved items, Printed.items_moved,
      Close.comments_moved]
  | .comprehension _ _ body clauses _ _, _ => by
    funext p
    simp only [Form.moved, Form.print, body.print_moved, printList_moved clauses,
      Printed.items_moved, Close.comments_moved]
  | .paren _ x _ _, _ => by
    funext p
    simp only [Form.moved, Form.print, x.print_moved, Node.comments_moved, Close.comments_moved]
  | .defStmt _ _ _ params _ _ body _, _ => by
    funext p
    simp only [Form.moved, Form.print, printList_moved params, printList_moved body,
      Printed.items_moved, Page.block_moved]
  | .forStmt _ vars x body, _ => by
    funext p
    simp only [Form.moved, Form.print, vars.print_moved, x.print_moved, printList_moved body,
      Page.block_moved]
  | .ifStmt _ cond yesBody e noBody, _ => by
    funext p
    simp only [Form.moved, Form.print, Page.branch, cond.print_moved, printList_moved yesBody,
      Page.block_moved, printElse_moved noBody, gapBefore_moved]
  | .load _ label c bindings e _, _ => by
    funext p
    simp only [Form.moved, Form.print, List.map_map]
    rfl

theorem printList_moved : ∀ vs : List Node,
    printList (movedList φ vs) = (printList vs).map (Printed.moved φ)
  | [] => rfl
  | v :: vs => by
    simp only [movedList, printList, List.map_cons, v.print_moved, printList_moved vs,
      Printed.moved]

theorem printOption_moved : ∀ (v : Option Node) (outer : Strength),
    printOption (movedOption φ v) outer = printOption v outer
  | none, _ => rfl
  | some v, outer => by
    funext p
    simp only [movedOption, printOption, v.print_moved]

/-- So are the branches behind an `if`. -/
theorem printElse_moved : ∀ (body : List Node) (gap : Bool) (e : Close),
    printElse (movedList φ body) gap (e.moved φ) = printElse body gap e
  | [], _, _ => rfl
  | [v], gap, e => by
    funext p
    have docs : printList (movedList φ [v]) = (printList [v]).map (Printed.moved φ) := by
      simp only [movedList, printList, List.map_cons, List.map_nil, v.print_moved, Printed.moved]
    obtain ⟨c, f⟩ := v
    cases f with
    | ifStmt q cond yesBody e' noBody =>
        simp only [movedList, Node.moved, Form.moved, printElse, Page.branch, cond.print_moved,
          printList_moved yesBody, Page.block_moved, printElse_moved noBody, gapBefore_moved,
          Close.comments_moved]
    | _ =>
        exact printElse_moved_of_docs φ docs (by simp)
          (by simp [movedList, Node.moved, Form.moved])
  | v :: w :: vs, gap, e => by
    funext p
    have docs : printList (movedList φ (v :: w :: vs)) =
        (printList (v :: w :: vs)).map (Printed.moved φ) := by
      simp only [movedList, printList, List.map_cons, v.print_moved, w.print_moved,
        printList_moved vs, Printed.moved]
    exact printElse_moved_of_docs φ docs (by simp) (by simp [movedList])

end

/-- The text of a file does not depend on where its parts stand on their lines. -/
theorem File.formatWith_moved (spacing : Spacing) (f : File) :
    File.formatWith spacing { f with statements := f.statements.map (Node.moved φ) } =
      f.formatWith spacing := by
  simp only [File.formatWith, File.page, File.print, ← movedList_eq_map, printList_moved,
    Page.statements_moved]

end Starlark
