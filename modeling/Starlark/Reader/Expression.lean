import Starlark.Layout
import Starlark.Reader

/-!
# Reading expressions

Expressions are read by layers. A test is a conditional over disjunctions; a
disjunction is a tower of nine layers of binary operators, each grouping to
the left, over signed operands; an operand is an atom followed by attributes,
calls and subscripts.

Inside brackets the grammar starts again. Tests, disjunctions and operands are
the three ways in, and each of them takes a token before it starts again, so
the number of nested starts is bounded by the number of tokens. The readers
are written over the three ways in (`Inner`), and the knot is tied once, at
the end, by a bound on the nesting. The same bound serves for repetitions.
-/

set_option autoImplicit false

namespace Starlark

namespace Node

/-- Two operands joined by an operator or an assignment; the right one may
have begun a new line. -/
def joined (assigns : Bool) (x : Node) (opPos : Position) (op : String) (y : Node) : Node :=
  bare (.binary assigns x opPos op (x.stop.line < y.start.line) y)

/-- A tuple without parentheses. -/
def bareTuple (parts : List Node) : Node :=
  bare (.collection .bareTuple .nowhere parts (.at .nowhere) ⟨true, false⟩)

/-- A collection between two brackets. -/
def collected (kind : Collection) (first : Token) (parts : List Node) (last : Token) : Node :=
  bare (.collection kind first.pos parts (.at last.pos) (.ofParts first.pos parts last.pos))

/-- The identifier that a token is. -/
def ofName (token : Token) : Node := bare (.ident token.pos token.text)

end Node

/-- The string literal that a token is. -/
def StringLit.ofToken (token : Token) : Except Fault StringLit :=
  match Quoted.decode token.text with
  | .ok (value, triple) => .ok ⟨token.pos, value, triple, token.stop, token.text⟩
  | .error fault =>
    .error ⟨token.pos.advance (Text.Utf8.takeBytes fault.offset token.text.toList), .literal fault⟩

namespace Reader

open Token (Kind)

/-- The ways into the grammar from inside brackets. -/
structure Inner where
  /-- A conditional, a lambda or a disjunction. -/
  test : Reader Node
  /-- Binary operators over operands. -/
  disjunction : Reader Node
  /-- An atom with attributes, calls and subscripts. -/
  operand : Reader Node

variable (inner : Inner) (n : Nat)

/-! ## Tests in a row -/

/-- Whether a test can start with a token of this kind. -/
def startsTest : Kind → Bool
  | .ident | .number | .string => true
  | .keyword .load | .keyword .not | .keyword .lambda => true
  | .symbol .lparen | .symbol .lbrack | .symbol .lbrace => true
  | .symbol .minus | .symbol .plus | .symbol .tilde => true
  | _ => false

/-- Commas and tests, as far as they go. A comma may stand at the end. -/
def moreTests (test : Reader Node) : Nat → Reader (List Node)
  | 0 => stuck
  | n + 1 => do
    if ← isAt (.symbol .comma) then
      let _ ← bump
      if startsTest (← peek).kind then
        let x ← test
        return x :: (← moreTests test n)
      else return []
    else return []

/-- One test, or several separated by commas, which form a tuple. -/
def expression (test : Reader Node) (n : Nat) : Reader Node := do
  let first ← test
  if ← isAt (.symbol .comma) then return .bareTuple (first :: (← moreTests test n))
  else return first

/-- Commas and operands up to an `in`. -/
def moreTargets (operand : Reader Node) : Nat → Reader (List Node)
  | 0 => stuck
  | n + 1 => do
    if ← isAt (.symbol .comma) then
      let _ ← bump
      if ← isAt (.keyword .in) then return []
      else
        let x ← operand
        return x :: (← moreTargets operand n)
    else return []

/-- What a `for` binds: an operand, or several separated by commas. -/
def targets (operand : Reader Node) (n : Nat) : Reader Node := do
  let first ← operand
  if ← isAt (.symbol .comma) then return .bareTuple (first :: (← moreTargets operand n))
  else return first

/-! ## Atoms -/

/-- Adjacent string literals, joined by `+`. -/
def strings : Reader Node := do
  let tokens := (← get).takeWhile (·.kind == .string)
  set ((← get).dropWhile (·.kind == .string))
  let lits ← tokens.mapM fun token => (StringLit.ofToken token : Except Fault StringLit)
  match lits with
  | [] => unexpected [.string]
  | first :: rest =>
    return rest.foldl (fun x lit => .joined false x lit.start "+" (.bare (.string lit)))
      (.bare (.string first))

/-- `(x)`; a tuple when nothing stands inside or a comma follows. -/
def parenthesized : Reader Node := do
  let first ← expect (.symbol .lparen)
  if ← isAt (.symbol .rparen) then return .collected .tuple first [] (← bump)
  else
    let x ← inner.test
    if ← isAt (.symbol .rparen) then
      let last ← bump
      return .bare (.paren first.pos x (.at last.pos) (Layout.staysOpen first.pos [x] last.pos))
    else
      let (xs, last) ← moreItems (.symbol .rparen) inner.test n
      return .collected .tuple first (x :: xs) last

/-- The `for` and `if` clauses of a comprehension, as far as they go. -/
def clauses : Nat → Reader (List Node)
  | 0 => stuck
  | m + 1 => do
    let token ← peek
    if token.kind == .keyword .for then
      let _ ← bump
      let vars ← targets inner.operand n
      let inToken ← expect (.keyword .in)
      let x ← inner.disjunction
      return .bare (.forClause token.pos vars inToken.pos x) :: (← clauses m)
    else if token.kind == .keyword .if then
      let _ ← bump
      let cond ← inner.disjunction
      return .bare (.ifClause token.pos cond) :: (← clauses m)
    else return []

/-- A comprehension after its body. -/
def comprehension (first : Token) (body : Node) (close : Symbol) : Reader Node := do
  let parts ← clauses inner n n
  if ← isAt (.symbol close) then
    let last ← bump
    return .bare (.comprehension (close == .rbrace) first.pos body parts (.at last.pos)
      (Layout.comprehensionStaysOpen first.pos body parts last.pos))
  else unexpected [.keyword .for, .keyword .if, .symbol close]

/-- A list, or a comprehension of one. -/
def list : Reader Node := do
  let first ← expect (.symbol .lbrack)
  if ← isAt (.symbol .rbrack) then return .collected .list first [] (← bump)
  else
    let x ← inner.test
    if ← isAt (.keyword .for) then comprehension inner n first x .rbrack
    else
      let (xs, last) ← moreItems (.symbol .rbrack) inner.test n
      return .collected .list first (x :: xs) last

/-- What follows a key: the colon and the value. -/
def entryAfter (key : Node) : Reader Node := do
  let colon ← expect (.symbol .colon)
  let value ← inner.test
  return .bare (.keyValue key colon.pos value)

/-- An entry of a dict. -/
def entry : Reader Node := do entryAfter inner (← inner.test)

/-- A dict, a set, or a comprehension of either. -/
def braced : Reader Node := do
  let first ← expect (.symbol .lbrace)
  if ← isAt (.symbol .rbrace) then return .collected .dict first [] (← bump)
  else
    let x ← inner.test
    if ← isAt (.symbol .colon) then
      let x ← entryAfter inner x
      if ← isAt (.keyword .for) then comprehension inner n first x .rbrace
      else
        let (xs, last) ← moreItems (.symbol .rbrace) (entry inner) n
        return .collected .dict first (x :: xs) last
    else if ← isAt (.keyword .for) then comprehension inner n first x .rbrace
    else
      let (xs, last) ← moreItems (.symbol .rbrace) inner.test n
      return .collected .set first (x :: xs) last

/-- A name, a literal, or something in brackets. -/
def atom : Reader Node := do
  let token ← peek
  match token.kind with
  | .ident | .keyword .load => return .ofName (← bump)
  | .number =>
    let _ ← bump
    return .bare (.literal token.pos token.text)
  | .string => strings
  | .symbol .lparen => parenthesized inner n
  | .symbol .lbrack => list inner n
  | .symbol .lbrace => braced inner n
  | _ => unexpected [.ident, .number, .string, .symbol .lparen]

/-! ## Operands -/

/-- An argument: `*x`, `**x`, `name = x` or `x`. -/
def argument : Reader Node := do
  let token ← peek
  if token.kind == .symbol .star || token.kind == .symbol .starStar then
    let _ ← bump
    return .bare (.unary token.pos token.text (some (← inner.test)))
  else
    let x ← inner.test
    if ← isAt (.symbol .eq) then
      let eq ← bump
      return .joined true x eq.pos eq.text (← inner.test)
    else return x

/-- A call of `x`. -/
def call (x : Node) : Reader Node := do
  let first ← expect (.symbol .lparen)
  let (args, last) ← items (.symbol .rparen) (argument inner) n
  return .bare (.call x first.pos args (.at last.pos) (.ofParts first.pos args last.pos))

/-- What follows the lower bound of a slice, from its first colon on. -/
def sliceAfter (x : Node) (first : Token) (lower : Option Node) : Reader Node := do
  if ← isAt (.symbol .colon) then
    let colon ← bump
    let upper ←
      if (← isAt (.symbol .colon)) || (← isAt (.symbol .rbrack)) then pure none
      else some <$> inner.test
    if ← isAt (.symbol .colon) then
      let second ← bump
      let step ← if ← isAt (.symbol .rbrack) then pure none else some <$> inner.test
      let last ← expect (.symbol .rbrack)
      return .bare (.slice x first.pos lower colon.pos upper (some second.pos) step last.pos)
    else
      let last ← expect (.symbol .rbrack)
      return .bare (.slice x first.pos lower colon.pos upper none none last.pos)
  else unexpected [.symbol .colon, .symbol .rbrack]

/-- `x[i]`, or a slice, each part of which may be missing. -/
def subscript (x : Node) : Reader Node := do
  let first ← expect (.symbol .lbrack)
  if ← isAt (.symbol .colon) then sliceAfter inner x first none
  else
    let y ← expression inner.test n
    if ← isAt (.symbol .rbrack) then
      let last ← bump
      return .bare (.index x first.pos y last.pos)
    else sliceAfter inner x first (some y)

/-- Attributes, calls and subscripts after `x`, as far as they go. -/
def suffixes : Nat → Node → Reader Node
  | 0, _ => stuck
  | m + 1, x => do
    match (← peek).kind with
    | .symbol .dot =>
      let dot ← bump
      let name ← expectName
      suffixes m (.bare (.dot x dot.pos name.pos name.text))
    | .symbol .lparen => suffixes m (← call inner n x)
    | .symbol .lbrack => suffixes m (← subscript inner n x)
    | _ => return x

/-- An atom with attributes, calls and subscripts. -/
def operandWith : Reader Node := do suffixes inner n n (← atom inner n)

/-! ## Operators -/

/-- Whether a token of this kind is a sign in front of an operand. -/
def isSign : Kind → Bool
  | .symbol .minus | .symbol .plus | .symbol .tilde | .keyword .not => true
  | _ => false

/-- An operand behind any number of signs. -/
def signed : Nat → Reader Node
  | 0 => stuck
  | m + 1 => do
    let token ← peek
    if isSign token.kind then
      let _ ← bump
      return .bare (.unary token.pos token.text (some (← signed m)))
    else operandWith inner n

/-- The layer of a binary operator, loosest first. -/
def layer? : Kind → Option Nat
  | .keyword .or => some 1
  | .keyword .and => some 2
  | .symbol .lt | .symbol .gt | .symbol .le | .symbol .ge | .symbol .eqEq | .symbol .ne
  | .keyword .in | .keyword .not | .keyword .is => some 3
  | .symbol .pipe => some 4
  | .symbol .caret => some 5
  | .symbol .amp => some 6
  | .symbol .shl | .symbol .shr => some 7
  | .symbol .plus | .symbol .minus => some 8
  | .symbol .star | .symbol .slash | .symbol .slashSlash | .symbol .percent => some 9
  | _ => none

/-- Takes a binary operator of a layer, if one is next. `not` continues an
expression only as `not in`, and `is` takes a `not` along. -/
def operator? (layer : Nat) : Reader (Option (Position × String)) := do
  let token ← peek
  if layer? token.kind == some layer then
    if token.kind == .keyword .not then
      if (← peekSecond).kind == .keyword .in then
        let _ ← bump
        let _ ← bump
        return some (token.pos, "not in")
      else return none
    else
      let _ ← bump
      if token.kind == .keyword .is && (← isAt (.keyword .not)) then
        let _ ← bump
        return some (token.pos, "is not")
      else return some (token.pos, token.text)
  else return none

/-- Operators of one layer and their right operands after `x`, as far as they
go, grouped to the left. -/
def chain (operand : Reader Node) (layer : Nat) : Nat → Node → Reader Node
  | 0, _ => stuck
  | m + 1, x => do
    match ← operator? layer with
    | some (opPos, op) =>
      let y ← operand
      chain operand layer m (.joined false x opPos op y)
    | none => return x

/-- Binary operators of the tightest `count` of nine layers. -/
def tower : Nat → Reader Node
  | 0 => signed inner n n
  | count + 1 => do chain (tower count) (9 - count) n (← tower count)

/-- Binary operators of all layers. -/
def disjunctionWith : Reader Node := tower inner n 9

/-! ## Parameters and tests -/

/-- A default after a parameter, if one follows. -/
def defaultAfter (x : Node) : Reader Node := do
  if ← isAt (.symbol .eq) then
    let eq ← bump
    return .joined true x eq.pos eq.text (← inner.test)
  else return x

/-- A parameter. `name: type` is one only when `types` is set. -/
def param (types : Bool) (close : Kind) : Reader Node := do
  let token ← peek
  match token.kind with
  | .symbol .starStar =>
    let _ ← bump
    let name ← expectName
    return .bare (.unary token.pos token.text (some (.ofName name)))
  | .symbol .star =>
    let _ ← bump
    if isName (← peek).kind then
      return .bare (.unary token.pos token.text (some (.ofName (← bump))))
    else return .bare (.unary token.pos token.text none)
  | .ident | .keyword .load =>
    let _ ← bump
    if types && (← isAt (.symbol .colon)) then
      let colon ← bump
      let type ← inner.test
      defaultAfter inner (.bare (.typed ⟨token.pos, token.text, .none⟩ colon.pos type))
    else defaultAfter inner (.ofName token)
  | _ => unexpected [.ident, .symbol .star, .symbol .starStar, close]

/-- Parameters up to the closing token, which is not taken. -/
def params (types : Bool) (close : Kind) : Nat → Reader (List Node)
  | 0 => stuck
  | m + 1 => do
    if ← isAt close then return []
    else
      let x ← param inner types close
      if ← isAt (.symbol .comma) then
        let _ ← bump
        return x :: (← params types close m)
      else if ← isAt close then return [x]
      else unexpected [.symbol .comma, close]

/-- A function without a name. -/
def lambda : Reader Node := do
  let token ← expect (.keyword .lambda)
  let parts ← params inner false (.symbol .colon) n
  let colon ← expect (.symbol .colon)
  let body ← inner.test
  return .bare (.lambda token.pos parts colon.pos body)

/-- A conditional, a lambda or a disjunction. -/
def testWith : Reader Node := do
  if ← isAt (.keyword .lambda) then lambda inner n
  else
    let yes ← disjunctionWith inner n
    if ← isAt (.keyword .if) then
      let ifToken ← bump
      let cond ← disjunctionWith inner n
      let elseToken ← expect (.keyword .else)
      let no ← inner.test
      return .bare (.conditional yes ifToken.pos cond elseToken.pos no)
    else return yes

/-! ## The knot -/

mutual

/-- A test, with brackets nested fewer than the bound. -/
def test : Nat → Reader Node
  | 0, tokens => stuck tokens
  | n + 1, tokens => testWith ⟨test n, disjunction n, operand n⟩ (n + 1) tokens

/-- Binary operators, with brackets nested fewer than the bound. -/
def disjunction : Nat → Reader Node
  | 0, tokens => stuck tokens
  | n + 1, tokens => disjunctionWith ⟨test n, disjunction n, operand n⟩ (n + 1) tokens

/-- An operand, with brackets nested fewer than the bound. -/
def operand : Nat → Reader Node
  | 0, tokens => stuck tokens
  | n + 1, tokens => operandWith ⟨test n, disjunction n, operand n⟩ (n + 1) tokens

end

/-- The ways into the grammar under a bound. -/
def innerAt (n : Nat) : Inner := ⟨test n, disjunction n, operand n⟩

end Reader

end Starlark
