import Starlark.Comment

/-!
# Trees

A source is a list of statements, and a statement is a tree. A node of a tree
is a form, which holds the tokens and the parts, together with the comments
attached to it. Statements and expressions share one type: an edit may put any
node anywhere, and printing says what then comes out.

The places of tokens are kept for reports and for comments. What printing
needs of the author's layout is kept in flags of its own, so that a tree may
be edited without regard to places.
-/

set_option autoImplicit false

namespace Starlark

/-- A name standing as a part of a larger form. -/
structure Name where
  pos : Position
  text : String
  comments : Comments
  deriving DecidableEq, Inhabited

/-- A string literal: its value, and the token that spells it. The token is
empty when the literal comes from no source. -/
structure StringLit where
  start : Position
  value : String
  triple : Bool
  stop : Position
  token : String
  deriving DecidableEq, Inhabited

/-- A literal that comes from no source. -/
def StringLit.ofValue (value : String) : StringLit := ⟨.nowhere, value, false, .nowhere, ""⟩

/-- One symbol of a `load`: what the loaded file calls it, and the name it is
bound to here. -/
structure Binding where
  symbol : Name
  bound : Name
  deriving DecidableEq, Inhabited

/-- How a sequence in brackets was laid out. -/
structure Layout where
  /-- The sequence stays on one line. -/
  compact : Bool
  /-- The sequence stays on several lines. -/
  multiLine : Bool
  deriving DecidableEq, Inhabited

/-- Sequences that are values by themselves. -/
inductive Collection where
  | list
  | set
  | dict
  /-- A tuple in parentheses. -/
  | tuple
  /-- A tuple without parentheses. -/
  | bareTuple
  deriving DecidableEq, Inhabited

mutual

/-- A node: a form and its comments. -/
inductive Node where
  | mk (comments : Comments) (form : Form)

/-- What a node is. -/
inductive Form where
  | ident (pos : Position) (name : String)
  /-- A number, or any other token printed as it is. -/
  | literal (start : Position) (token : String)
  | string (lit : StringLit)
  | dot (x : Node) (dotPos : Position) (namePos : Position) (name : String)
  | index (x : Node) (start : Position) (y : Node) (stop : Position)
  | slice (x : Node) (start : Position) (lower : Option Node) (colon : Position)
      (upper : Option Node) (secondColon : Option Position) (step : Option Node)
      (stop : Position)
  /-- The operand is missing for a `*` that stands alone among parameters. -/
  | unary (opPos : Position) (op : String) (x : Option Node)
  /-- Two operands joined by an operator, or by an assignment when `assigns`
  is set. `lineBreak` says that the right operand began a new line. -/
  | binary (assigns : Bool) (x : Node) (opPos : Position) (op : String) (lineBreak : Bool)
      (y : Node)
  | conditional (yes : Node) (ifPos : Position) (test : Node) (elsePos : Position) (no : Node)
  | lambda (pos : Position) (params : List Node) (colon : Position) (body : Node)
  | call (callee : Node) (start : Position) (args : List Node) (close : Close) (layout : Layout)
  | collection (kind : Collection) (start : Position) (items : List Node) (close : Close)
      (layout : Layout)
  | keyValue (key : Node) (colon : Position) (value : Node)
  | comprehension (curly : Bool) (start : Position) (body : Node) (clauses : List Node)
      (close : Close) (multiLine : Bool)
  | forClause (pos : Position) (vars : Node) (inPos : Position) (x : Node)
  | ifClause (pos : Position) (cond : Node)
  | paren (start : Position) (x : Node) (close : Close) (multiLine : Bool)
  | defStmt (pos : Position) (name : String) (lparen : Position) (params : List Node)
      (rparen : Position) (colon : Position) (body : List Node) (layout : Layout)
  | forStmt (pos : Position) (vars : Node) (x : Node) (body : List Node)
  /-- An `elif` is an `if` standing alone in `noBody`. -/
  | ifStmt (pos : Position) (cond : Node) (yesBody : List Node) (elsePos : Close)
      (noBody : List Node)
  | returnStmt (pos : Position) (result : Option Node)
  /-- `pass`, `break` or `continue`. -/
  | branch (token : String) (pos : Position)
  | load (pos : Position) (label : StringLit) (labelComments : Comments)
      (bindings : List Binding) (close : Close) (compact : Bool)
  /-- A statement made only of the comments below it. -/
  | commentBlock (start : Position)
  /-- Text printed as it is. -/
  | verbatim (start : Position) (token : String)
  /-- A parameter with its type. -/
  | typed (name : Name) (colon : Position) (type : Node)

end

namespace Form

/-- The name of a form in reports. -/
def kind : Form → String
  | .ident .. => "Ident"
  | .literal .. => "LiteralExpr"
  | .string .. => "StringExpr"
  | .dot .. => "DotExpr"
  | .index .. => "IndexExpr"
  | .slice .. => "SliceExpr"
  | .unary .. => "UnaryExpr"
  | .binary false .. => "BinaryExpr"
  | .binary true .. => "AssignExpr"
  | .conditional .. => "ConditionalExpr"
  | .lambda .. => "LambdaExpr"
  | .call .. => "CallExpr"
  | .collection .list .. => "ListExpr"
  | .collection .set .. => "SetExpr"
  | .collection .dict .. => "DictExpr"
  | .collection .tuple .. | .collection .bareTuple .. => "TupleExpr"
  | .keyValue .. => "KeyValueExpr"
  | .comprehension .. => "Comprehension"
  | .forClause .. => "ForClause"
  | .ifClause .. => "IfClause"
  | .paren .. => "ParenExpr"
  | .defStmt .. => "DefStmt"
  | .forStmt .. => "ForStmt"
  | .ifStmt .. => "IfStmt"
  | .returnStmt .. => "ReturnStmt"
  | .branch .. => "BranchStmt"
  | .load .. => "LoadStmt"
  | .commentBlock .. => "CommentBlock"
  | .verbatim .. => "PythonBlock"
  | .typed .. => "TypedIdent"

/-- Whether a form is a statement with a body. -/
def isBlock : Form → Bool
  | .defStmt .. | .forStmt .. | .ifStmt .. => true
  | _ => false

/-- Whether a form is a comment block. -/
def isCommentBlock : Form → Bool
  | .commentBlock .. => true
  | _ => false

end Form

namespace Node

/-- The comments attached to a node. -/
def comments : Node → Comments
  | .mk c _ => c

/-- What a node is. -/
def form : Node → Form
  | .mk _ f => f

/-- The node with other comments. -/
def withComments (v : Node) (c : Comments) : Node := .mk c v.form

/-- The node with its comments changed. -/
def mapComments (f : Comments → Comments) (v : Node) : Node := .mk (f v.comments) v.form

/-- A node without comments. -/
def bare (f : Form) : Node := .mk .none f

/-- An identifier that comes from no source. -/
def ident (name : String) : Node := bare (.ident .nowhere name)

/-- A token that comes from no source. -/
def literal (token : String) : Node := bare (.literal .nowhere token)

/-- A string that comes from no source. -/
def string (value : String) : Node := bare (.string (.ofValue value))

/-- What stands in the place of a node that has been taken out. -/
def vacant : Node := literal ""

instance : Inhabited Node := ⟨vacant⟩

/-- The name of a node's form in reports. -/
def kind (v : Node) : String := v.form.kind

/-- Whether a node is a statement with a body. -/
def isBlock (v : Node) : Bool := v.form.isBlock

/-- Whether a node is a comment block. -/
def isCommentBlock (v : Node) : Bool := v.form.isCommentBlock

@[simp] theorem comments_mk (c : Comments) (f : Form) : (Node.mk c f).comments = c := rfl

@[simp] theorem form_mk (c : Comments) (f : Form) : (Node.mk c f).form = f := rfl

end Node

end Starlark
