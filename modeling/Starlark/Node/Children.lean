import Starlark.Node

/-!
# The parts of a node

`children` lists the nodes directly below a node in source order. The names of
a `load` and of a typed parameter are no nodes and do not count.

`child?` and `setChild` reach one of them by its index without listing the
others: `child?` is the list's entry there, and `setChild` changes that entry
alone. `mapPartsM` goes through all of them and changes each in its place.
Children are smaller than their node, so a definition may recur on them
(`sizeOf_lt_of_mem_children`).
-/

set_option autoImplicit false

namespace Starlark

namespace Form

/-- The nodes directly below a form, in source order. -/
def children : Form → List Node
  | .ident .. | .literal .. | .string .. | .branch .. | .load .. | .commentBlock ..
  | .verbatim .. => []
  | .dot x _ _ _ => [x]
  | .index x _ y _ => [x, y]
  | .slice x _ lower _ upper _ step _ => x :: (lower.toList ++ upper.toList ++ step.toList)
  | .unary _ _ x => x.toList
  | .binary _ x _ _ _ y => [x, y]
  | .conditional yes _ test _ no => [yes, test, no]
  | .lambda _ params _ body => params ++ [body]
  | .call callee _ args _ _ => callee :: args
  | .collection _ _ items _ _ => items
  | .keyValue key _ value => [key, value]
  | .comprehension _ _ body clauses _ _ => body :: clauses
  | .forClause _ vars _ x => [vars, x]
  | .ifClause _ cond => [cond]
  | .paren _ x _ _ => [x]
  | .defStmt _ _ _ params _ _ body _ => params ++ body
  | .forStmt _ vars x body => vars :: x :: body
  | .ifStmt _ cond yesBody _ noBody => cond :: (yesBody ++ noBody)
  | .returnStmt _ result => result.toList
  | .typed _ _ type => [type]

/-- The part of a form at an index. -/
def child? : Form → Nat → Option Node
  | .ident .., _ | .literal .., _ | .string .., _ | .branch .., _ | .load .., _
  | .commentBlock .., _ | .verbatim .., _ => none
  | .dot x _ _ _, i => if i = 0 then some x else none
  | .index x _ y _, i => if i = 0 then some x else if i = 1 then some y else none
  | .slice x _ lower _ upper _ step _, i =>
    if i = 0 then some x else (lower.toList ++ upper.toList ++ step.toList)[i - 1]?
  | .unary _ _ x, i => if i = 0 then x else none
  | .binary _ x _ _ _ y, i => if i = 0 then some x else if i = 1 then some y else none
  | .conditional yes _ test _ no, i =>
    if i = 0 then some yes else if i = 1 then some test else if i = 2 then some no else none
  | .lambda _ params _ body, i =>
    if i < params.length then params[i]? else if i = params.length then some body else none
  | .call callee _ args _ _, i => if i = 0 then some callee else args[i - 1]?
  | .collection _ _ items _ _, i => items[i]?
  | .keyValue key _ value, i => if i = 0 then some key else if i = 1 then some value else none
  | .comprehension _ _ body clauses _ _, i => if i = 0 then some body else clauses[i - 1]?
  | .forClause _ vars _ x, i => if i = 0 then some vars else if i = 1 then some x else none
  | .ifClause _ cond, i => if i = 0 then some cond else none
  | .paren _ x _ _, i => if i = 0 then some x else none
  | .defStmt _ _ _ params _ _ body _, i =>
    if i < params.length then params[i]? else body[i - params.length]?
  | .forStmt _ vars x body, i =>
    if i = 0 then some vars else if i = 1 then some x else body[i - 2]?
  | .ifStmt _ cond yesBody _ noBody, i =>
    if i = 0 then some cond
    else if i ≤ yesBody.length then yesBody[i - 1]?
    else noBody[i - 1 - yesBody.length]?
  | .returnStmt _ result, i => if i = 0 then result else none
  | .typed _ _ type, i => if i = 0 then some type else none

/-- The form with another part at an index; the form itself when it has no
part there. -/
def setChild (f : Form) (i : Nat) (c : Node) : Form :=
  match f with
  | .ident .. | .literal .. | .string .. | .branch .. | .load .. | .commentBlock ..
  | .verbatim .. => f
  | .dot x p q n => .dot (if i = 0 then c else x) p q n
  | .index x p y q => .index (if i = 0 then c else x) p (if i = 1 then c else y) q
  | .slice x p lower q upper r step s =>
    let beforeUpper := 1 + lower.toList.length
    let beforeStep := beforeUpper + upper.toList.length
    .slice (if i = 0 then c else x) p
      (if i = 1 then lower.map fun _ => c else lower) q
      (if i = beforeUpper then upper.map fun _ => c else upper) r
      (if i = beforeStep then step.map fun _ => c else step) s
  | .unary p o x => .unary p o (if i = 0 then x.map fun _ => c else x)
  | .binary a x p o l y => .binary a (if i = 0 then c else x) p o l (if i = 1 then c else y)
  | .conditional yes p test q no =>
    .conditional (if i = 0 then c else yes) p (if i = 1 then c else test) q
      (if i = 2 then c else no)
  | .lambda p params q body =>
    .lambda p (params.set i c) q (if i = params.length then c else body)
  | .call callee p args e l =>
    if i = 0 then .call c p args e l else .call callee p (args.set (i - 1) c) e l
  | .collection k p items e l => .collection k p (items.set i c) e l
  | .keyValue key p value =>
    .keyValue (if i = 0 then c else key) p (if i = 1 then c else value)
  | .comprehension u p body clauses e m =>
    if i = 0 then .comprehension u p c clauses e m
    else .comprehension u p body (clauses.set (i - 1) c) e m
  | .forClause p vars q x => .forClause p (if i = 0 then c else vars) q (if i = 1 then c else x)
  | .ifClause p cond => .ifClause p (if i = 0 then c else cond)
  | .paren p x e m => .paren p (if i = 0 then c else x) e m
  | .defStmt p n q params r s body l =>
    if i < params.length then .defStmt p n q (params.set i c) r s body l
    else .defStmt p n q params r s (body.set (i - params.length) c) l
  | .forStmt p vars x body =>
    if i = 0 then .forStmt p c x body
    else if i = 1 then .forStmt p vars c body
    else .forStmt p vars x (body.set (i - 2) c)
  | .ifStmt p cond yesBody e noBody =>
    if i = 0 then .ifStmt p c yesBody e noBody
    else if i ≤ yesBody.length then .ifStmt p cond (yesBody.set (i - 1) c) e noBody
    else .ifStmt p cond yesBody e (noBody.set (i - 1 - yesBody.length) c)
  | .returnStmt p result => .returnStmt p (if i = 0 then result.map fun _ => c else result)
  | .typed n p type => .typed n p (if i = 0 then c else type)

/-- Changes the nodes directly below a form in turn, in source order. -/
def mapPartsM {σ : Type} (g : Node → StateM σ Node) : Form → StateM σ Form
  | .dot x p q n => return .dot (← g x) p q n
  | .index x p y q => return .index (← g x) p (← g y) q
  | .slice x p lower q upper r step s => do
    let x ← g x
    let lower ← lower.mapM g
    let upper ← upper.mapM g
    let step ← step.mapM g
    return .slice x p lower q upper r step s
  | .unary p o x => return .unary p o (← x.mapM g)
  | .binary a x p o l y => return .binary a (← g x) p o l (← g y)
  | .conditional yes p test q no => return .conditional (← g yes) p (← g test) q (← g no)
  | .lambda p params q body => return .lambda p (← params.mapM g) q (← g body)
  | .call callee p args e l => return .call (← g callee) p (← args.mapM g) e l
  | .collection k p items e l => return .collection k p (← items.mapM g) e l
  | .keyValue key p value => return .keyValue (← g key) p (← g value)
  | .comprehension u p body clauses e m =>
    return .comprehension u p (← g body) (← clauses.mapM g) e m
  | .forClause p vars q x => return .forClause p (← g vars) q (← g x)
  | .ifClause p cond => return .ifClause p (← g cond)
  | .paren p x e m => return .paren p (← g x) e m
  | .defStmt p n q params r s body l =>
    return .defStmt p n q (← params.mapM g) r s (← body.mapM g) l
  | .forStmt p vars x body => return .forStmt p (← g vars) (← g x) (← body.mapM g)
  | .ifStmt p cond yesBody e noBody =>
    return .ifStmt p (← g cond) (← yesBody.mapM g) e (← noBody.mapM g)
  | .returnStmt p result => return .returnStmt p (← result.mapM g)
  | .typed n p type => return .typed n p (← g type)
  -- the other forms have no parts
  | f => return f

end Form

namespace Node

/-- The nodes directly below a node, in source order. -/
def children (v : Node) : List Node := v.form.children

/-- The part of a node at an index. -/
def child? (v : Node) (i : Nat) : Option Node := v.form.child? i

/-- The node with another part at an index. -/
def setChild (v : Node) (i : Nat) (c : Node) : Node := .mk v.comments (v.form.setChild i c)

/-- Changes the nodes directly below a node in turn, in source order. -/
def mapPartsM {σ : Type} (g : Node → StateM σ Node) (v : Node) : StateM σ Node :=
  return .mk v.comments (← v.form.mapPartsM g)

/-- The next node in line, or `c` when there is none left. -/
def nextOr (c : Node) : StateM (List Node) Node := do
  match ← get with
  | [] => return c
  | next :: rest =>
    set rest
    return next

/-- The node with its parts replaced, first to last. -/
def withChildren (v : Node) (cs : List Node) : Node := ((v.mapPartsM nextOr).run cs).1

/-- A part is smaller than the whole. -/
theorem sizeOf_lt_of_mem_children {v c : Node} (member : c ∈ v.children) :
    sizeOf c < sizeOf v := by
  have inList : ∀ {xs : List Node}, c ∈ xs → sizeOf c < sizeOf xs := List.sizeOf_lt_of_mem
  have inOption : ∀ {o : Option Node}, c ∈ o.toList → sizeOf c < sizeOf o := by
    intro o h
    cases o with
    | none => simp at h
    | some x =>
      obtain rfl : c = x := by simpa using h
      simp
  obtain ⟨comments, f⟩ := v
  cases f <;>
    simp only [children, form, Form.children, List.mem_cons, List.mem_append, List.not_mem_nil,
      or_false] at member <;>
    simp only [Node.mk.sizeOf_spec, Form.dot.sizeOf_spec, Form.index.sizeOf_spec,
      Form.slice.sizeOf_spec, Form.unary.sizeOf_spec, Form.binary.sizeOf_spec,
      Form.conditional.sizeOf_spec, Form.lambda.sizeOf_spec, Form.call.sizeOf_spec,
      Form.collection.sizeOf_spec, Form.keyValue.sizeOf_spec, Form.comprehension.sizeOf_spec,
      Form.forClause.sizeOf_spec, Form.ifClause.sizeOf_spec, Form.paren.sizeOf_spec,
      Form.defStmt.sizeOf_spec, Form.forStmt.sizeOf_spec, Form.ifStmt.sizeOf_spec,
      Form.returnStmt.sizeOf_spec, Form.typed.sizeOf_spec] <;>
    grind

end Node

end Starlark
