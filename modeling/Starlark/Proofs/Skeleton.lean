import Starlark.Node

/-!
# What a tree says

The skeleton of a tree is the tree without its places, without the tokens its
strings were spelled with, without hints for the layout, without comments and
comment blocks, and without parentheses. Two trees with one skeleton say the
same program.
-/

set_option autoImplicit false

namespace Starlark

/-- The literal without its places and its token. -/
def StringLit.skeleton (lit : StringLit) : StringLit :=
  ⟨.nowhere, lit.value, lit.triple, .nowhere, ""⟩

/-- The name without its place and its comments. -/
def Name.skeleton (x : Name) : Name := ⟨.nowhere, x.text, .none⟩

/-- The symbol of a `load` without its places and its comments. -/
def Binding.skeleton (b : Binding) : Binding := ⟨b.symbol.skeleton, b.bound.skeleton⟩

mutual

/-- What the node says. Parentheses say what stands inside them. -/
def Node.skeleton : Node → Node
  | .mk _ (.paren _ x _ _) => x.skeleton
  | .mk _ f => .bare f.skeleton

/-- What the form says. -/
def Form.skeleton : Form → Form
  | .ident _ name => .ident .nowhere name
  | .literal _ token => .literal .nowhere token
  | .string lit => .string lit.skeleton
  | .dot x _ _ name => .dot x.skeleton .nowhere .nowhere name
  | .index x _ y _ => .index x.skeleton .nowhere y.skeleton .nowhere
  | .slice x _ lower _ upper second step _ =>
    .slice x.skeleton .nowhere (skeletonOption lower) .nowhere (skeletonOption upper)
      (second.map fun _ => .nowhere) (skeletonOption step) .nowhere
  | .unary _ op x => .unary .nowhere op (skeletonOption x)
  | .binary assigns x _ op _ y => .binary assigns x.skeleton .nowhere op false y.skeleton
  | .conditional yes _ test _ no =>
    .conditional yes.skeleton .nowhere test.skeleton .nowhere no.skeleton
  | .lambda _ params _ body => .lambda .nowhere (skeletonList params) .nowhere body.skeleton
  | .call callee _ args _ _ =>
    .call callee.skeleton .nowhere (skeletonList args) (.at .nowhere) ⟨false, false⟩
  | .collection kind _ items _ _ =>
    .collection kind .nowhere (skeletonList items) (.at .nowhere) ⟨false, false⟩
  | .keyValue key _ value => .keyValue key.skeleton .nowhere value.skeleton
  | .comprehension curly _ body clauses _ _ =>
    .comprehension curly .nowhere body.skeleton (skeletonList clauses) (.at .nowhere) false
  | .forClause _ vars _ x => .forClause .nowhere vars.skeleton .nowhere x.skeleton
  | .ifClause _ cond => .ifClause .nowhere cond.skeleton
  | .paren _ x _ _ => .paren .nowhere x.skeleton (.at .nowhere) false
  | .defStmt _ name _ params _ _ body _ =>
    .defStmt .nowhere name .nowhere (skeletonList params) .nowhere .nowhere (skeletonBody body)
      ⟨false, false⟩
  | .forStmt _ vars x body => .forStmt .nowhere vars.skeleton x.skeleton (skeletonBody body)
  | .ifStmt _ cond yesBody _ noBody =>
    .ifStmt .nowhere cond.skeleton (skeletonBody yesBody) (.at .nowhere) (skeletonBody noBody)
  | .returnStmt _ result => .returnStmt .nowhere (skeletonOption result)
  | .branch token _ => .branch token .nowhere
  | .load _ label _ bindings _ _ =>
    .load .nowhere label.skeleton .none (bindings.map Binding.skeleton) (.at .nowhere) false
  | .commentBlock _ => .commentBlock .nowhere
  | .verbatim _ token => .verbatim .nowhere token
  | .typed name _ type => .typed name.skeleton .nowhere type.skeleton

/-- What some nodes say. -/
def skeletonList : List Node → List Node
  | [] => []
  | x :: rest => x.skeleton :: skeletonList rest

/-- What a body says; its comment blocks say nothing. -/
def skeletonBody : List Node → List Node
  | [] => []
  | x :: rest => if x.isCommentBlock then skeletonBody rest else x.skeleton :: skeletonBody rest

/-- What a node says that may be missing. -/
def skeletonOption : Option Node → Option Node
  | none => none
  | some x => some x.skeleton

end

end Starlark
