import Starlark.Block.Trailing
import Starlark.Reader.Expression

/-!
# Reading statements

A file, and every indented body, is a list of lines: blank lines, comments and
statements. Statements with a body have an indented block of lines inside, so
the reader of lines starts again there; it has taken the header by then, and
the number of nested starts is bounded by the number of tokens.
-/

set_option autoImplicit false

namespace Starlark.Reader

open Token (Kind)

/-! ## Small statements -/

/-- The symbol that a string of a `load` names. It stands at the first
character inside the quotes. -/
def symbolOf (token : Token) : Except Fault Name := do
  let lit ← StringLit.ofToken token
  let marked := match token.text.toList with
    | 'r' :: _ | 'R' :: _ => lit.start.right
    | _ => lit.start
  let pos := if lit.triple then marked.right.right.right else marked.right
  return ⟨pos, lit.value, .none⟩

/-- A symbol of a `load`: a string, or `name = string`. -/
def binding : Reader Binding := do
  let token ← peek
  match token.kind with
  | .string =>
    let _ ← bump
    let symbol ← symbolOf token
    return ⟨symbol, symbol⟩
  | .ident | .keyword .load =>
    let _ ← bump
    let _ ← expect (.symbol .eq)
    let value ← expect .string
    let symbol ← symbolOf value
    return ⟨symbol, ⟨token.pos, token.text, .none⟩⟩
  | _ => unexpected [.string, .ident, .symbol .rparen]

/-- `load(label, symbols)`. -/
def loadStmt (n : Nat) : Reader Node := do
  let first ← expect (.keyword .load)
  let _ ← expect (.symbol .lparen)
  let label ← StringLit.ofToken (← expect .string)
  let (bindings, last) ← moreItems (.symbol .rparen) binding n
  return .bare (.load first.pos label .none bindings (.at last.pos)
    (first.pos.line == last.pos.line))

/-- A statement without a body. -/
def smallStmt (n : Nat) : Reader Node := do
  let token ← peek
  match token.kind with
  | .keyword .return =>
    let _ ← bump
    if (← isAt .newline) || (← isAt (.symbol .semi)) then
      return .bare (.returnStmt token.pos none)
    else return .bare (.returnStmt token.pos (some (← expression (test n) n)))
  | .keyword .pass | .keyword .break | .keyword .continue =>
    let _ ← bump
    return .bare (.branch token.text token.pos)
  | .keyword .load => loadStmt n
  | _ =>
    let x ← expression (test n) n
    if (← isAt (.symbol .eq)) || (← isAt .augmented) then
      let op ← bump
      return .joined true x op.pos op.text (← expression (test n) n)
    else return x

/-- What follows a small statement on its line: more of them after semicolons,
and the end of the line. A semicolon may stand at the end. -/
def moreStmts (n : Nat) : Nat → Reader (List Node)
  | 0 => stuck
  | m + 1 => do
    if ← isAt (.symbol .semi) then
      let _ ← bump
      if ← isAt .newline then
        let _ ← bump
        return []
      else
        let x ← smallStmt n
        return x :: (← moreStmts n m)
    else if ← isAt .newline then
      let _ ← bump
      return []
    else unexpected [.newline, .symbol .semi]

/-- The small statements of one line. -/
def lineOfStmts (n : Nat) : Reader (List Node) := do
  let x ← smallStmt n
  return x :: (← moreStmts n n)

/-! ## Lines of comments -/

/-- A comment and the end of its line. -/
def commentLine : Reader Comment := do
  let token ← expect .comment
  let _ ← expect .newline
  return ⟨token.pos, token.text⟩

/-- Blank lines and comments, as far as they go. -/
def commentLines : Nat → Reader (List Entry)
  | 0 => stuck
  | m + 1 => do
    if ← isAt .comment then
      let c ← commentLine
      return .remark c :: (← commentLines m)
    else if ← isAt .newline then
      let _ ← bump
      return .blank :: (← commentLines m)
    else return []

/-! ## Bodies -/

/-- The body behind the colon of a header. -/
structure Suite where
  /-- Comments left on the line of the header. -/
  header : List Comment
  body : List Node
  /-- Whether a comment on the next line belongs below the last statement. -/
  followed : Bool

/-- Reads a body: small statements on the line of the header, or an indented
block, whose lines `block` reads. -/
def suite (n : Nat) (block : Reader (List Entry)) : Reader Suite := do
  if (← isAt .newline) || (← isAt .comment) then
    let header ←
      if ← isAt .comment then (fun c => [c]) <$> commentLine
      else (fun _ => []) <$> expect .newline
    let leading ← commentLines n
    let _ ← expect .indent
    let lines ← block
    let _ ← expect .unindent
    let body := Block.ofEntries lines
    return ⟨header, (Block.ofEntries leading).precede body.nodes, body.followed⟩
  else return ⟨[], ← lineOfStmts n, true⟩

/-- Whether a comment on the next line belongs below a statement with a body,
and the statement. -/
abbrev Ended := Node × Bool

/-- A function. -/
def defStmt (types : Bool) (n : Nat) (block : Reader (List Entry)) : Reader Ended := do
  let first ← expect (.keyword .define)
  let name ← expectName
  let lparen ← expect (.symbol .lparen)
  let parts ← params (innerAt n) types (.symbol .rparen) n
  let rparen ← expect (.symbol .rparen)
  let colon ← expect (.symbol .colon)
  let s ← suite n block
  return (.mk (.ofSuffix s.header)
    (.defStmt first.pos name.text lparen.pos parts rparen.pos colon.pos s.body
      (.ofParts lparen.pos parts rparen.pos)), s.followed)

/-- A loop. -/
def forStmt (n : Nat) (block : Reader (List Entry)) : Reader Ended := do
  let first ← expect (.keyword .for)
  let vars ← targets (operand n) n
  let _ ← expect (.keyword .in)
  let x ← expression (test n) n
  let _ ← expect (.symbol .colon)
  let s ← suite n block
  return (.mk (.ofSuffix s.header) (.forStmt first.pos vars x s.body), s.followed)

/-- A branch with its condition. -/
structure Arm where
  pos : Position
  cond : Node
  suite : Suite

/-- A condition and the branch it guards, whose keyword has been taken. -/
def arm (n : Nat) (block : Reader (List Entry)) (pos : Position) : Reader Arm := do
  let cond ← expression (test n) n
  let _ ← expect (.symbol .colon)
  return ⟨pos, cond, ← suite n block⟩

/-- The `elif` branches, as far as they go. -/
def elifs (n : Nat) (block : Reader (List Entry)) : Nat → Reader (List Arm)
  | 0 => stuck
  | m + 1 => do
    if ← isAt (.keyword .elif) then
      let token ← bump
      let branch ← arm n block token.pos
      return branch :: (← elifs n block m)
    else return []

/-- An `if` over one branch, given what follows the branch. -/
def Arm.ifStmt (a : Arm) (elsePos : Close) (noBody : List Node) : Node :=
  .mk (.ofSuffix a.suite.header) (.ifStmt a.pos a.cond a.suite.body elsePos noBody)

/-- What follows the first branch of an `if`: each `elif` is an `if` inside
the rest of the branch before it. -/
def nested (elsePos : Close) (noBody : List Node) : List Arm → Close × List Node
  | [] => (elsePos, noBody)
  | a :: rest =>
    let (p, body) := nested elsePos noBody rest
    (.at a.pos, [a.ifStmt p body])

/-- An `if` with its branches. -/
def ifStmt (n : Nat) (block : Reader (List Entry)) : Reader Ended := do
  let token ← expect (.keyword .if)
  let first ← arm n block token.pos
  let rest ← elifs n block n
  let followed := ((rest.getLast?.getD first).suite).followed
  if ← isAt (.keyword .else) then
    let elseToken ← bump
    let _ ← expect (.symbol .colon)
    let s ← suite n block
    let (p, body) := nested ⟨elseToken.pos, .ofSuffix s.header⟩ s.body rest
    return (first.ifStmt p body, s.followed)
  else
    let (p, body) := nested (.at .nowhere) [] rest
    return (first.ifStmt p body, followed)

/-- A statement with a body, followed by the comment blocks cut off its
end. -/
def blockGroup (stmt : Ended) : Entry :=
  match stmt.1.splitTrailing with
  | (v, []) => .group [v] true
  | (v, cut) => .group (v :: cut) stmt.2

/-- The statements of a line, or a statement with a body. -/
def stmt (types : Bool) (n : Nat) (block : Reader (List Entry)) : Reader Entry := do
  match (← peek).kind with
  | .keyword .define => return blockGroup (← defStmt types n block)
  | .keyword .for => return blockGroup (← forStmt n block)
  | .keyword .if => return blockGroup (← ifStmt n block)
  | _ => return .group (← lineOfStmts n) true

/-- The lines up to a token of the kind `close`, which is not taken, with
lines and bodies fewer than the bound. -/
def lines (types : Bool) : Nat → Kind → Reader (List Entry)
  | 0, _, tokens => stuck tokens
  | n + 1, close, tokens => (do
    let token ← peek
    if token.kind == close then return []
    else if token.kind == .newline then
      let _ ← bump
      return .blank :: (← lines types n close)
    else if token.kind == .comment then
      let c ← commentLine
      return .remark c :: (← lines types n close)
    else
      let entry ← stmt types n (lines types n .unindent)
      return entry :: (← lines types n close) : Reader (List Entry)) tokens

/-- The statements of a whole file. -/
def file (types : Bool) (n : Nat) : Reader (List Node) := do
  let entries ← lines types n .eof
  let _ ← expect .eof
  return (Block.ofEntries entries).nodes

/-- The statements that the tokens of a source spell. -/
def statements (types : Bool) (tokens : List Token) : Except Fault (List Node) :=
  (·.1) <$> (file types (tokens.length + 1)).run tokens

end Starlark.Reader
