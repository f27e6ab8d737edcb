import Starlark.Node.Walk

/-!
# Editing a tree

`edit` goes through a tree in the order of a walk and lets a visitor replace
each node it meets. A replacement takes the node's place before the parts are
visited, so the visitor meets the parts of the replacement.

The visitor sees the ancestors of a node as they are at that moment: parts to
the left have been edited, parts to the right have not, and the place of the
visited node itself is vacant.

A visitor may go on replacing nodes by larger ones for ever. An edit goes down
only so far, a fixed number of levels below the deepest node of the tree it is
given, and leaves alone what lies deeper.
-/

set_option autoImplicit false

namespace Starlark.Node

variable {σ : Type}

/-- What an edit asks for each node: given the node, its ancestors nearest
first, and a state, the replacement, if any, and the next state. -/
abbrev Visitor (σ : Type) := Node → List Node → σ → Option Node × σ

/-- Runs `f` on each part of `v` in turn and puts the result in its place.
`f` is given the part and the node around it, the place of the part vacant. -/
def editParts (f : Node → Node → σ → Node × σ) (v : Node) (s : σ) : Node × σ :=
  (List.range v.children.length).foldl
    (fun (v, s) i =>
      match v.child? i with
      | none => (v, s)
      | some c =>
        let (c, s) := f c (v.setChild i vacant) s
        (v.setChild i c, s))
    (v, s)

/-- Edits `v` and at most `levels` levels of what is below it. -/
def editWithin (visit : Visitor σ) : Nat → List Node → Node → σ → Node × σ
  | 0, _, v, s => (v, s)
  | levels + 1, above, v, s =>
    let (replacement, s) := visit v above s
    editParts (fun c around s => editWithin visit levels (around :: above) c s)
      (replacement.getD v) s

/-- How many levels an edit may go below the deepest node it is given. -/
def growth : Nat := 100000

/-- Edits a whole tree. -/
def edit (visit : Visitor σ) (v : Node) (s : σ) : Node × σ :=
  editWithin visit (v.depth + growth) [] v s

/-- The node with each of its parts changed. -/
def mapParts (f : Node → Node) (v : Node) : Node :=
  ((v.mapPartsM fun c => return f c).run ()).1

end Starlark.Node
