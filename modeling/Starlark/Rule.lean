import Starlark.File
import Starlark.Package
import Starlark.Text.Split

/-!
# Rules

A call such as `cc_library(name = "x", srcs = [])` is a rule: a kind, which is
the dotted name it calls, and attributes, which are its keyword arguments. The
rules of a file are its outermost calls; a call among the arguments of another
is the value of an attribute.

The attributes of a call form a map whose keys stand in the order of the
arguments.
-/

set_option autoImplicit false

namespace Starlark

/-- A call, with the comments of its node. -/
structure Call where
  comments : Comments
  callee : Node
  start : Position
  args : List Node
  close : Close
  layout : Layout

/-- The call that a node is, if it is one. -/
def Node.call? : Node → Option Call
  | .mk comments (.call callee start args close layout) =>
    some ⟨comments, callee, start, args, close, layout⟩
  | _ => none

namespace Call

/-- The node of a call. -/
def toNode (c : Call) : Node := .mk c.comments (.call c.callee c.start c.args c.close c.layout)

/-- The node of a call is that call. -/
@[simp] theorem call?_toNode (c : Call) : c.toNode.call? = some c := rfl

/-! ## Kinds -/

/-- The names of a dotted name, last first. -/
def dottedNames? : Node → Option (List String)
  | .mk _ (.ident _ name) => some [name]
  | .mk _ (.dot x _ _ name) => (dottedNames? x).map (name :: ·)
  | _ => none

/-- The dotted name that is called, if it is one. -/
def kind? (c : Call) : Option String :=
  (dottedNames? c.callee).map fun names => String.intercalate "." names.reverse

/-- The dotted name with the given pieces. -/
def calleeOf (pieces : List String) : Node :=
  match pieces with
  | [] => .ident ""
  | first :: rest =>
    rest.foldl (fun x name => .bare (.dot x .nowhere .nowhere name)) (.ident first)

/-- The call with another dotted name. -/
def setKind (kind : String) (c : Call) : Call :=
  { c with callee := calleeOf ((Text.splitOn '.' kind.toList).map String.ofList) }

/-! ## Attributes -/

/-- The key and the value of a keyword argument. -/
def keyword? : Node → Option (String × Node)
  | .mk _ (.binary true (.mk _ (.ident _ key)) _ op _ value) =>
    if op = "=" then some (key, value) else none
  | _ => none

/-- Whether an argument has a given key. -/
def hasKey (key : String) (arg : Node) : Bool := (keyword? arg).any (·.1 == key)

/-- The keys, in order. -/
def attrKeys (c : Call) : List String := c.args.filterMap fun arg => (keyword? arg).map (·.1)

/-- The value of an attribute. -/
def attr? (key : String) (c : Call) : Option Node :=
  (c.args.find? (hasKey key)).bind fun arg => (keyword? arg).map (·.2)

/-- The value of an attribute that is a string. -/
def attrString? (key : String) (c : Call) : Option String :=
  match c.attr? key with
  | some (.mk _ (.string lit)) => some lit.value
  | _ => none

/-- A keyword argument with another value. -/
def withValue (value : Node) : Node → Node
  | .mk comments (.binary assigns x opPos op lineBreak _) =>
    .mk comments (.binary assigns x opPos op lineBreak value)
  | arg => arg

/-- The arguments with another value for the first one of a key. -/
def replaceValue (key : String) (value : Node) : List Node → List Node
  | [] => []
  | arg :: rest =>
    if hasKey key arg then withValue value arg :: rest else arg :: replaceValue key value rest

/-- The call with another value for an attribute that it has. -/
def modifyAttr (key : String) (value : Node) (c : Call) : Call :=
  { c with args := replaceValue key value c.args }

/-- A keyword argument that comes from no source. -/
def keywordArg (key : String) (value : Node) : Node :=
  .bare (.binary true (.ident key) .nowhere "=" false value)

/-- The call with an attribute set; a new one comes last. -/
def setAttr (key : String) (value : Node) (c : Call) : Call :=
  if (c.attr? key).isSome then c.modifyAttr key value
  else { c with args := c.args ++ [keywordArg key value] }

/-- The call without an attribute, and the value that goes with it. -/
def delAttr (key : String) (c : Call) : Call × Option Node :=
  match c.args.findIdx? (hasKey key) with
  | none => (c, none)
  | some i =>
    ({ c with args := c.args.eraseIdx i }, c.args[i]?.bind fun arg => (keyword? arg).map (·.2))

end Call

/-! ## The rules of a file -/

namespace Node

/-- The outermost calls of a tree, in the order of a walk. -/
def outerCalls (v : Node) : List Call :=
  match v.call? with
  | some c => [c]
  | none => v.children.attach.flatMap fun ⟨c, _⟩ => outerCalls c
termination_by sizeOf v
decreasing_by exact sizeOf_lt_of_mem_children ‹_›

/-- Changes the outermost calls of a tree, in the order of a walk. -/
def mapOuterCalls {σ : Type} (f : Call → StateM σ Call) (v : Node) : StateM σ Node :=
  match v.call? with
  | some c => return (← f c).toNode
  | none => do
    let parts ← v.children.attach.mapM fun ⟨c, _⟩ => mapOuterCalls f c
    return v.withChildren parts
termination_by sizeOf v
decreasing_by exact sizeOf_lt_of_mem_children ‹_›

/-- A call is its own outermost call, and any other node has those of its
parts. -/
theorem outerCalls_eq (v : Node) :
    v.outerCalls =
      match v.call? with
      | some c => [c]
      | none => v.children.flatMap outerCalls := by
  rw [outerCalls]
  cases v.call? with
  | some c => rfl
  | none => simp [List.flatMap_subtype]

end Node

/-- A rule of a file. -/
structure Rule where
  call : Call
  /-- The name that a rule without a name takes from its package. -/
  implicitName : Option String

/-- The name of a rule. -/
def Rule.name? (r : Rule) : Option String := (r.call.attrString? "name").or r.implicitName

/-- Whether a call is of a kind; every call is, when none is given. -/
def Call.isOfKind (kind : Option String) (c : Call) : Bool :=
  match kind with
  | some k => c.kind? == some k
  | none => true

namespace File

/-- The outermost calls of a file. -/
def outerCalls (f : File) : List Call := f.statements.flatMap Node.outerCalls

/-- Whether a call could take its name from the package: it has a kind other
than `load`, and no string for a name. -/
def lacksName (c : Call) : Bool :=
  c.kind?.any (· != "load") && (c.attrString? "name").isNone

/-- The name that a rule takes from its package. There is one only if the
package has a directory and exactly one rule lacks a name. -/
def implicitName? (f : File) : Option String := do
  let directory ← Package.directoryName? f.path
  if (f.outerCalls.filter lacksName).length = 1 then some directory else none

/-- The rules of a file, or only those of a kind. A rule without the attribute
`name` takes the implicit name. -/
def rules (kind : Option String) (f : File) : List Rule :=
  let implicit := f.implicitName?
  (f.outerCalls.filter (Call.isOfKind kind)).map fun c =>
    ⟨c, if (c.attr? "name").isSome then none else implicit⟩

/-- Changes the rules of a file, or only those of a kind, in turn. -/
def mapRules {σ : Type} (kind : Option String) (f : Call → StateM σ Call) (file : File) :
    StateM σ File := do
  let change (c : Call) : StateM σ Call := if c.isOfKind kind then f c else pure c
  let statements ← file.statements.mapM (Node.mapOuterCalls change)
  return { file with statements := statements }

/-- Changes one rule of a file, counted among those of a kind. What the change
yields is given back; nothing when there is no such rule. -/
def onRule {α : Type} (kind : Option String) (index : Nat) (change : Call → Call × α)
    (file : File) : Option (α × File) :=
  let step (c : Call) : StateM (Nat × Option α) Call := do
    let (count, result) ← get
    if count = index then
      let (c, a) := change c
      set (count + 1, some a)
      return c
    else
      set (count + 1, result)
      return c
  match (file.mapRules kind step).run (0, none) with
  | (file, _, some a) => some (a, file)
  | (_, _, none) => none

end File

end Starlark
