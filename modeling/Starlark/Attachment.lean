import Starlark.Node.Span

/-!
# Attaching comments

The comments kept on the side while a source is read are attached to the tree
by their places. The places of a tree that can carry comments are its slots:
every node, every closing bracket, the `else` of an `if`, and the names and
the label inside a `load` and a typed parameter.

A line comment goes above the first slot, in the order in which slots start,
that starts at or behind it. A suffix comment goes to the last slot, in the
order in which slots stop, that stops at or before it. Statements with a body
and comment blocks take no suffix comments, except that a `def` takes those on
the line of its colon; for these it stands between its parameters and its
body.
-/

set_option autoImplicit false

namespace Starlark

/-- Which suffix comments a slot takes. -/
inductive Slot.Takes where
  /-- Those behind its end. -/
  | behindEnd
  /-- Those behind a colon, on its line. -/
  | behindColon (colon : Position)
  | never

/-- A place of a tree that can carry comments. -/
structure Slot where
  comments : Comments
  start : Position
  stop : Position
  takes : Slot.Takes

namespace Slot

/-- Whether a slot takes a suffix comment. -/
def takesSuffix (s : Slot) (c : Comment) : Bool :=
  match s.takes with
  | .behindEnd => s.stop.offset ≤ c.start.offset
  | .behindColon colon => colon.line = c.start.line && colon.offset < c.start.offset
  | .never => false

/-- The slot of a node. -/
def ofNode (v : Node) : Slot where
  comments := v.comments
  start := v.start
  stop := v.stop
  takes := match v.form with
    | .defStmt _ _ _ _ _ colon _ _ => .behindColon colon
    | .forStmt .. | .ifStmt .. | .commentBlock .. => .never
    | _ => .behindEnd

/-- The slot of a name. -/
def ofName (x : Name) : Slot := ⟨x.comments, x.pos, x.stop, .behindEnd⟩

/-- The slot of a closing token. -/
def ofClose (x : Close) : Slot := ⟨x.comments, x.pos, x.stop, .behindEnd⟩

/-- The slot of the label of a `load`. -/
def ofLabel (lit : StringLit) (comments : Comments) : Slot :=
  ⟨comments, lit.start, lit.stop, .behindEnd⟩

end Slot

/-- Gives a slot its comments and passes on a state. -/
abbrev Slot.Filler (σ : Type) := Slot → StateM σ Comments

variable {σ : Type}

/-- Fills the slot of a name. -/
def Name.fill (fill : Slot.Filler σ) (x : Name) : StateM σ Name :=
  return { x with comments := ← fill (.ofName x) }

/-- Fills the slot of a closing token. -/
def Close.fill (fill : Slot.Filler σ) (x : Close) : StateM σ Close :=
  return { x with comments := ← fill (.ofClose x) }

/-- Fills the slots of a symbol of a `load` in the order in which they
start. -/
def Binding.fill (fill : Slot.Filler σ) (x : Binding) : StateM σ Binding := do
  let bound ← x.bound.fill fill
  let symbol ← x.symbol.fill fill
  return ⟨symbol, bound⟩

/-- Fills the slots of a symbol of a `load` in the order in which they stop,
last first. -/
def Binding.fillBack (fill : Slot.Filler σ) (x : Binding) : StateM σ Binding := do
  let symbol ← x.symbol.fill fill
  let bound ← x.bound.fill fill
  return ⟨symbol, bound⟩

/-! ## In the order in which slots start -/

mutual

/-- Fills the slots of a node, its own first. -/
def Node.fill (fill : Slot.Filler σ) : Node → StateM σ Node
  | .mk c f => do
    let comments ← fill (.ofNode (.mk c f))
    return .mk comments (← f.fill fill)

/-- Fills the slots of the parts of a form, in source order. -/
def Form.fill (fill : Slot.Filler σ) : Form → StateM σ Form
  | .ident p n => return .ident p n
  | .literal p t => return .literal p t
  | .string lit => return .string lit
  | .dot x p q n => return .dot (← x.fill fill) p q n
  | .index x p y q => return .index (← x.fill fill) p (← y.fill fill) q
  | .slice x p lower q upper r step s => do
    let x ← x.fill fill
    let lower ← fillOption fill lower
    let upper ← fillOption fill upper
    let step ← fillOption fill step
    return .slice x p lower q upper r step s
  | .unary p o x => return .unary p o (← fillOption fill x)
  | .binary a x p o l y => return .binary a (← x.fill fill) p o l (← y.fill fill)
  | .conditional yes p test q no => do
    let yes ← yes.fill fill
    let test ← test.fill fill
    let no ← no.fill fill
    return .conditional yes p test q no
  | .lambda p params q body => do
    let params ← fillList fill params
    let body ← body.fill fill
    return .lambda p params q body
  | .call callee p args e l => do
    let callee ← callee.fill fill
    let args ← fillList fill args
    let e ← e.fill fill
    return .call callee p args e l
  | .collection k p items e l => do
    let items ← fillList fill items
    let e ← if k = .bareTuple then pure e else e.fill fill
    return .collection k p items e l
  | .keyValue key p value => return .keyValue (← key.fill fill) p (← value.fill fill)
  | .comprehension u p body clauses e m => do
    let body ← body.fill fill
    let clauses ← fillList fill clauses
    let e ← e.fill fill
    return .comprehension u p body clauses e m
  | .forClause p vars q x => return .forClause p (← vars.fill fill) q (← x.fill fill)
  | .ifClause p cond => return .ifClause p (← cond.fill fill)
  | .paren p x e m => do
    let x ← x.fill fill
    let e ← e.fill fill
    return .paren p x e m
  | .defStmt p n q params r s body l => do
    let params ← fillList fill params
    let body ← fillList fill body
    return .defStmt p n q params r s body l
  | .forStmt p vars x body => do
    let vars ← vars.fill fill
    let x ← x.fill fill
    let body ← fillList fill body
    return .forStmt p vars x body
  | .ifStmt p cond yesBody e noBody => do
    let cond ← cond.fill fill
    let yesBody ← fillList fill yesBody
    let e ← if e.pos.isValid then e.fill fill else pure e
    let noBody ← fillList fill noBody
    return .ifStmt p cond yesBody e noBody
  | .returnStmt p result => return .returnStmt p (← fillOption fill result)
  | .branch t p => return .branch t p
  | .load p label comments bindings e k => do
    let comments ← fill (.ofLabel label comments)
    let bindings ← bindings.mapM (Binding.fill fill)
    let e ← e.fill fill
    return .load p label comments bindings e k
  | .commentBlock p => return .commentBlock p
  | .verbatim p t => return .verbatim p t
  | .typed name p type => do
    let name ← name.fill fill
    let type ← type.fill fill
    return .typed name p type

/-- Fills the slots of some nodes, first to last. -/
def fillList (fill : Slot.Filler σ) : List Node → StateM σ (List Node)
  | [] => return []
  | x :: rest => do
    let x ← x.fill fill
    return x :: (← fillList fill rest)

/-- Fills the slots of a node that may be missing. -/
def fillOption (fill : Slot.Filler σ) : Option Node → StateM σ (Option Node)
  | none => return none
  | some x => return some (← x.fill fill)

end

/-! ## In the order in which slots stop, last first -/

mutual

/-- Fills the slots of a node, its own first; a `def` comes between its body
and its parameters. -/
def Node.fillBack (fill : Slot.Filler σ) : Node → StateM σ Node
  | .mk c (.defStmt p n q params r s body l) => do
    let body' ← fillListBack fill body
    let comments ← fill (.ofNode (.mk c (.defStmt p n q params r s body l)))
    let params' ← fillListBack fill params
    return .mk comments (.defStmt p n q params' r s body' l)
  | .mk c f => do
    let comments ← fill (.ofNode (.mk c f))
    return .mk comments (← f.fillBack fill)

/-- Fills the slots of the parts of a form, in reverse source order. -/
def Form.fillBack (fill : Slot.Filler σ) : Form → StateM σ Form
  | .ident p n => return .ident p n
  | .literal p t => return .literal p t
  | .string lit => return .string lit
  | .dot x p q n => return .dot (← x.fillBack fill) p q n
  | .index x p y q => do
    let y ← y.fillBack fill
    let x ← x.fillBack fill
    return .index x p y q
  | .slice x p lower q upper r step s => do
    let step ← fillOptionBack fill step
    let upper ← fillOptionBack fill upper
    let lower ← fillOptionBack fill lower
    let x ← x.fillBack fill
    return .slice x p lower q upper r step s
  | .unary p o x => return .unary p o (← fillOptionBack fill x)
  | .binary a x p o l y => do
    let y ← y.fillBack fill
    let x ← x.fillBack fill
    return .binary a x p o l y
  | .conditional yes p test q no => do
    let no ← no.fillBack fill
    let test ← test.fillBack fill
    let yes ← yes.fillBack fill
    return .conditional yes p test q no
  | .lambda p params q body => do
    let body ← body.fillBack fill
    let params ← fillListBack fill params
    return .lambda p params q body
  | .call callee p args e l => do
    let e ← e.fill fill
    let args ← fillListBack fill args
    let callee ← callee.fillBack fill
    return .call callee p args e l
  | .collection k p items e l => do
    let e ← if k = .bareTuple then pure e else e.fill fill
    let items ← fillListBack fill items
    return .collection k p items e l
  | .keyValue key p value => do
    let value ← value.fillBack fill
    let key ← key.fillBack fill
    return .keyValue key p value
  | .comprehension u p body clauses e m => do
    let e ← e.fill fill
    let clauses ← fillListBack fill clauses
    let body ← body.fillBack fill
    return .comprehension u p body clauses e m
  | .forClause p vars q x => do
    let x ← x.fillBack fill
    let vars ← vars.fillBack fill
    return .forClause p vars q x
  | .ifClause p cond => return .ifClause p (← cond.fillBack fill)
  | .paren p x e m => do
    let e ← e.fill fill
    let x ← x.fillBack fill
    return .paren p x e m
  | .defStmt p n q params r s body l => do
    let body ← fillListBack fill body
    let params ← fillListBack fill params
    return .defStmt p n q params r s body l
  | .forStmt p vars x body => do
    let body ← fillListBack fill body
    let x ← x.fillBack fill
    let vars ← vars.fillBack fill
    return .forStmt p vars x body
  | .ifStmt p cond yesBody e noBody => do
    let noBody ← fillListBack fill noBody
    let e ← if e.pos.isValid then e.fill fill else pure e
    let yesBody ← fillListBack fill yesBody
    let cond ← cond.fillBack fill
    return .ifStmt p cond yesBody e noBody
  | .returnStmt p result => return .returnStmt p (← fillOptionBack fill result)
  | .branch t p => return .branch t p
  | .load p label comments bindings e k => do
    let e ← e.fill fill
    let bindings ← bindings.reverse.mapM (Binding.fillBack fill)
    let comments ← fill (.ofLabel label comments)
    return .load p label comments bindings.reverse e k
  | .commentBlock p => return .commentBlock p
  | .verbatim p t => return .verbatim p t
  | .typed name p type => do
    let type ← type.fillBack fill
    let name ← name.fill fill
    return .typed name p type

/-- Fills the slots of some nodes, last to first. -/
def fillListBack (fill : Slot.Filler σ) : List Node → StateM σ (List Node)
  | [] => return []
  | x :: rest => do
    let rest ← fillListBack fill rest
    return (← x.fillBack fill) :: rest

/-- Fills the slots of a node that may be missing. -/
def fillOptionBack (fill : Slot.Filler σ) : Option Node → StateM σ (Option Node)
  | none => return none
  | some x => return some (← x.fillBack fill)

end

/-! ## Comments -/

/-- Takes from the line comments that are left those that stand at or before
the start of a slot. -/
def Slot.takeLine : Slot.Filler (List Comment) := fun slot => do
  let (mine, left) := (← get).span (·.start.offset ≤ slot.start.offset)
  set left
  return { slot.comments with before := slot.comments.before ++ mine }

/-- Takes from the suffix comments that are left, last first, those that the
slot takes. -/
def Slot.takeSuffix : Slot.Filler (List Comment) := fun slot => do
  let (mine, left) := (← get).span slot.takesSuffix
  set left
  return { slot.comments with suffix := slot.comments.suffix ++ mine.reverse }

/-- Attaches comments to statements. The line comments and the suffix comments
that no slot takes are given back. -/
def attach (statements : List Node) (line suffix : List Comment) :
    List Node × List Comment × List Comment :=
  let (statements, line) := (fillList Slot.takeLine statements).run line
  let (statements, suffix) := (fillListBack Slot.takeSuffix statements).run suffix.reverse
  (statements, line, suffix.reverse)

end Starlark
