import Starlark.Node.Children

/-!
# Walking a tree

`walk` lists the nodes of a tree, each before its parts and the parts in
source order. A visit knows the ancestors of its node, nearest first.
-/

set_option autoImplicit false

namespace Starlark

/-- A node met on a walk, and its ancestors, nearest first. -/
structure Visit where
  node : Node
  above : List Node

namespace Node

/-- The visits of a walk through `v`, whose own ancestors are `above`. -/
def walkBelow (above : List Node) (v : Node) : List Visit :=
  ⟨v, above⟩ :: v.children.attach.flatMap fun ⟨c, _⟩ => walkBelow (v :: above) c
termination_by sizeOf v
decreasing_by exact sizeOf_lt_of_mem_children ‹_›

/-- The visits of a walk through `v`. -/
def walk (v : Node) : List Visit := walkBelow [] v

/-- A walk visits the node and then walks through its parts in turn. -/
theorem walkBelow_eq (above : List Node) (v : Node) :
    walkBelow above v = ⟨v, above⟩ :: v.children.flatMap (walkBelow (v :: above)) := by
  rw [walkBelow]
  simp [List.flatMap_subtype]

/-- How many nodes the longest way down from `v` meets, `v` included. -/
def depth (v : Node) : Nat :=
  (v.children.attach.map fun ⟨c, _⟩ => depth c).foldr max 0 + 1
termination_by sizeOf v
decreasing_by exact sizeOf_lt_of_mem_children ‹_›

/-- A node is one deeper than the deepest of its parts. -/
theorem depth_eq (v : Node) : v.depth = (v.children.map depth).foldr max 0 + 1 := by
  rw [depth]
  simp [List.map_subtype]

end Node

end Starlark
