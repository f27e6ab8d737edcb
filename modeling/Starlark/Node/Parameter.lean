import Starlark.Node

/-!
# Parameters and calls

The name that a parameter of a function binds, and calls of a plain name.
-/

set_option autoImplicit false

namespace Starlark.Node

/-- The name a parameter binds, with its `*` or `**`. A default or a type does
not matter; a `*` that stands alone binds nothing. -/
def bound? : Node → Option (Name × String)
  | .mk c (.ident pos name) => some (⟨pos, name, c⟩, "")
  | .mk _ (.typed name _ _) => some (name, "")
  | .mk _ (.binary true x _ _ _ _) => bound? x
  | .mk _ (.unary _ op (some x)) => (bound? x).map fun (name, _) => (name, op)
  | _ => none

/-- Whether a node calls the plain name `name`. -/
def isCallOf (name : String) : Node → Bool
  | .mk _ (.call (.mk _ (.ident _ callee)) _ _ _ _) => callee == name
  | _ => false

end Starlark.Node
