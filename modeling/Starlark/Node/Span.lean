import Starlark.Node

/-!
# Where nodes stand

The text of a node reaches from `start` to `stop`. Both are read off the
places of its tokens and of its parts, so they follow every change of those.
-/

set_option autoImplicit false

namespace Starlark

mutual

/-- Where the text of a node starts. -/
def Node.start : Node → Position
  | .mk _ f => f.start

/-- Where the text of a form starts. -/
def Form.start : Form → Position
  | .ident pos _ => pos
  | .literal start _ => start
  | .string lit => lit.start
  | .dot x _ _ _ => x.start
  | .index x _ _ _ => x.start
  | .slice x _ _ _ _ _ _ _ => x.start
  | .unary opPos _ _ => opPos
  | .binary _ x _ _ _ _ => x.start
  | .conditional yes _ _ _ _ => yes.start
  | .lambda pos _ _ _ => pos
  | .call callee _ _ _ _ => callee.start
  | .collection .bareTuple start items _ _ => firstStart start items
  | .collection _ start _ _ _ => start
  | .keyValue key _ _ => key.start
  | .comprehension _ start _ _ _ _ => start
  | .forClause pos _ _ _ => pos
  | .ifClause pos _ => pos
  | .paren start _ _ _ => start
  | .defStmt pos _ _ _ _ _ _ _ => pos
  | .forStmt pos _ _ _ => pos
  | .ifStmt pos _ _ _ _ => pos
  | .returnStmt pos _ => pos
  | .branch _ pos => pos
  | .load pos _ _ _ _ _ => pos
  | .commentBlock start => start
  | .verbatim start _ => start
  | .typed name _ _ => name.pos

/-- Where the first of some nodes starts, and `d` when there is none. -/
def firstStart (d : Position) : List Node → Position
  | [] => d
  | x :: _ => x.start

end

mutual

/-- Where the text of a node stops. -/
def Node.stop : Node → Position
  | .mk _ f => f.stop

/-- Where the text of a form stops. -/
def Form.stop : Form → Position
  | .ident pos name => pos.add name
  | .literal start token => start.add token
  | .string lit => lit.stop
  | .dot _ _ namePos name => namePos.add name
  | .index _ _ _ stop => stop.right
  | .slice _ _ _ _ _ _ _ stop => stop.right
  | .unary opPos op none => opPos.add op
  | .unary _ _ (some x) => x.stop
  | .binary _ _ _ _ _ y => y.stop
  | .conditional _ _ _ _ no => no.stop
  | .lambda _ _ _ body => body.stop
  | .call _ _ _ close _ => close.stop
  | .collection .bareTuple start items _ _ => (lastStop items).getD start
  | .collection _ _ _ close _ => close.stop
  | .keyValue _ _ value => value.stop
  | .comprehension _ _ _ _ close _ => close.stop
  | .forClause _ _ _ x => x.stop
  | .ifClause _ cond => cond.stop
  | .paren _ _ close _ => close.stop
  | .defStmt _ _ _ _ _ colon body _ => (lastStop body).getD colon.right
  | .forStmt _ _ x body => (lastStop body).getD x.stop
  | .ifStmt _ cond yesBody _ noBody =>
    (lastStop noBody).getD ((lastStop yesBody).getD cond.stop)
  | .returnStmt pos none => pos.add "return"
  | .returnStmt _ (some x) => x.stop
  | .branch token pos => pos.add token
  | .load _ _ _ _ close _ => close.stop
  | .commentBlock start => start
  | .verbatim start token => start.add token
  | .typed _ _ type => type.stop

/-- Where the last of some nodes stops. -/
def lastStop : List Node → Option Position
  | [] => none
  | [x] => some x.stop
  | _ :: y :: rest => lastStop (y :: rest)

end

/-- Where the text of a name stops. -/
def Name.stop (n : Name) : Position := n.pos.add n.text

/-- Where the text of a node starts and stops. -/
def Node.span (v : Node) : Position × Position := (v.start, v.stop)

end Starlark
