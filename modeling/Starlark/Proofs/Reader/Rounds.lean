import Starlark.Proofs.Reader
import Starlark.Reader.Statement

/-!
# Rounds

The repetitions of the readers, taken apart into rounds. One round of a
repetition reads what stands there and says whether the repetition is over,
with a value, or goes on, and then what it makes of the value of the rest
(`Round`). Each repetition is the one of its rounds (`Loops`): the number that
bounds it does nothing but count them.
-/

set_option autoImplicit false

namespace Starlark.Reader

open Token (Kind)

/-- What a round of a repetition comes to. -/
inductive Round (σ γ : Type) where
  /-- The repetition is over. -/
  | exit (value : γ)
  /-- Another round follows. `add` puts what this one has read to the value of the rest. -/
  | again (state : σ) (add : γ → γ)

/-- Whether a round takes a token: all do that are not the last, and the last one as `last` says. -/
def Round.strict {σ γ : Type} (last : Bool) : Round σ γ → Bool
  | exit _ => last
  | again _ _ => true

/-- What follows a round, given what the rounds behind it read. -/
def Round.next {σ γ : Type} (rest : σ → Reader γ) : Round σ γ → Reader γ
  | exit value => pure value
  | again state add => add <$> rest state

/-- A bounded repetition of rounds. -/
structure Loops {σ γ : Type} (loop : Nat → σ → Reader γ)
    (round : Nat → σ → Reader (Round σ γ)) : Prop where
  zero : ∀ s, loop 0 s = stuck
  succ : ∀ n s, loop (n + 1) s = round n s >>= Round.next (loop n)

section Laws

variable {α β σ γ : Type}

/-- What follows a choice follows each of its branches. -/
theorem ite_bind {p : Prop} [Decidable p] (r s : Reader α) (k : α → Reader β) :
    (if p then r else s) >>= k = if p then r >>= k else s >>= k := by
  split <;> rfl

/-- Nothing follows a refusal. -/
theorem unexpected_bind (expected : List Kind) (k : α → Reader β) :
    (unexpected expected >>= k) = unexpected expected := rfl

/-- The last round gives its value. -/
@[simp] theorem Round.next_exit (rest : σ → Reader γ) (value : γ) :
    (Round.exit value).next rest = pure value := rfl

/-- Any other round adds to the value of the rest. -/
@[simp] theorem Round.next_again (rest : σ → Reader γ) (state : σ) (add : γ → γ) :
    (Round.again state add).next rest = rest state >>= fun c => pure (add c) :=
  map_eq_pure_bind ..

end Laws

/-! ## Expressions -/

section Expressions

variable {α : Type}

/-- A comma and an item, or the closing token. -/
def itemRound (close : Kind) (item : Reader α) : Reader (Round Unit (List α × Token)) := do
  if ← isAt close then return .exit ([], ← bump)
  else if ← isAt (.symbol .comma) then
    let _ ← bump
    if ← isAt close then return .exit ([], ← bump)
    else
      let x ← item
      return .again () fun (xs, last) => (x :: xs, last)
  else unexpected [.symbol .comma, close]

/-- The items behind the first one are read item by item. -/
theorem loops_moreItems (close : Kind) (item : Reader α) :
    Loops (fun n _ => moreItems close item n) fun _ _ => itemRound close item where
  zero _ := rfl
  succ n _ := by
    simp only [moreItems, itemRound, bind_assoc, ite_bind, pure_bind, unexpected_bind,
      Round.next_exit, Round.next_again]

/-- A comma and a test. -/
def testRound (test : Reader Node) : Reader (Round Unit (List Node)) := do
  if ← isAt (.symbol .comma) then
    let _ ← bump
    if startsTest (← peek).kind then
      let x ← test
      return .again () (x :: ·)
    else return .exit []
  else return .exit []

/-- The tests behind the first one are read test by test. -/
theorem loops_moreTests (test : Reader Node) :
    Loops (fun n _ => moreTests test n) fun _ _ => testRound test where
  zero _ := rfl
  succ n _ := by
    simp only [moreTests, testRound, bind_assoc, ite_bind, pure_bind, Round.next_exit,
      Round.next_again]

/-- A comma and an operand, up to an `in`. -/
def targetRound (operand : Reader Node) : Reader (Round Unit (List Node)) := do
  if ← isAt (.symbol .comma) then
    let _ ← bump
    if ← isAt (.keyword .in) then return .exit []
    else
      let x ← operand
      return .again () (x :: ·)
  else return .exit []

/-- The targets of a `for` are read target by target. -/
theorem loops_moreTargets (operand : Reader Node) :
    Loops (fun n _ => moreTargets operand n) fun _ _ => targetRound operand where
  zero _ := rfl
  succ n _ := by
    simp only [moreTargets, targetRound, bind_assoc, ite_bind, pure_bind, Round.next_exit,
      Round.next_again]

variable (inner : Inner) (n : Nat)

/-- A clause of a comprehension. -/
def clauseRound : Reader (Round Unit (List Node)) := do
  let token ← peek
  if token.kind == .keyword .for then
    let _ ← bump
    let vars ← targets inner.operand n
    let inToken ← expect (.keyword .in)
    let x ← inner.disjunction
    return .again () (.bare (.forClause token.pos vars inToken.pos x) :: ·)
  else if token.kind == .keyword .if then
    let _ ← bump
    let cond ← inner.disjunction
    return .again () (.bare (.ifClause token.pos cond) :: ·)
  else return .exit []

/-- The clauses of a comprehension are read clause by clause. -/
theorem loops_clauses : Loops (fun m _ => clauses inner n m) fun _ _ => clauseRound inner n where
  zero _ := rfl
  succ m _ := by
    simp only [clauses, clauseRound, bind_assoc, ite_bind, pure_bind, Round.next_exit,
      Round.next_again]

/-- An attribute, a call or a subscript after `x`. -/
def suffixRound (x : Node) : Reader (Round Node Node) := do
  match (← peek).kind with
  | .symbol .dot =>
    let dot ← bump
    let name ← expectName
    return .again (.bare (.dot x dot.pos name.pos name.text)) id
  | .symbol .lparen => return .again (← call inner n x) id
  | .symbol .lbrack => return .again (← subscript inner n x) id
  | _ => return .exit x

/-- The suffixes of an operand are read from left to right, each around the one before. -/
theorem loops_suffixes : Loops (suffixes inner n) fun _ => suffixRound inner n where
  zero _ := rfl
  succ m x := by
    simp only [suffixes, suffixRound, bind_assoc]
    congr 1
    funext token
    generalize token.kind = kind
    split <;> simp only [bind_assoc, pure_bind, Round.next_exit, Round.next_again, id, bind_pure]

/-- A sign, or the operand behind the signs. -/
def signRound : Reader (Round Unit Node) := do
  let token ← peek
  if isSign token.kind then
    let _ ← bump
    return .again () fun x => .bare (.unary token.pos token.text (some x))
  else return .exit (← operandWith inner n)

/-- The signs of an operand are read from the outermost inwards. -/
theorem loops_signed : Loops (fun m _ => signed inner n m) fun _ _ => signRound inner n where
  zero _ := rfl
  succ m _ := by
    simp only [signed, signRound, bind_assoc, ite_bind, pure_bind, bind_pure, Round.next_exit,
      Round.next_again]

omit inner n in
/-- An operator of a layer and its right operand after `x`. -/
def operatorRound (operand : Reader Node) (layer : Nat) (x : Node) : Reader (Round Node Node) := do
  match ← operator? layer with
  | some (opPos, op) =>
    let y ← operand
    return .again (.joined false x opPos op y) id
  | none => return .exit x

omit inner n in
/-- The operators of a layer are read from left to right. -/
theorem loops_chain (operand : Reader Node) (layer : Nat) :
    Loops (chain operand layer) fun _ => operatorRound operand layer where
  zero _ := rfl
  succ m x := by
    simp only [chain, operatorRound, bind_assoc]
    congr 1
    funext found
    cases found <;> simp

/-- A parameter and a comma, or the last parameter. -/
def paramRound (types : Bool) (close : Kind) : Reader (Round Unit (List Node)) := do
  if ← isAt close then return .exit []
  else
    let x ← param inner types close
    if ← isAt (.symbol .comma) then
      let _ ← bump
      return .again () (x :: ·)
    else if ← isAt close then return .exit [x]
    else unexpected [.symbol .comma, close]

/-- Parameters are read parameter by parameter. -/
theorem loops_params (types : Bool) (close : Kind) :
    Loops (fun m _ => params inner types close m) fun _ _ => paramRound inner types close where
  zero _ := rfl
  succ m _ := by
    simp only [params, paramRound, bind_assoc, ite_bind, pure_bind, unexpected_bind,
      Round.next_exit, Round.next_again]

end Expressions

/-! ## Statements -/

section Statements

variable (n : Nat)

/-- A semicolon and a small statement, or the end of the line. -/
def stmtRound : Reader (Round Unit (List Node)) := do
  if ← isAt (.symbol .semi) then
    let _ ← bump
    if ← isAt .newline then
      let _ ← bump
      return .exit []
    else
      let x ← smallStmt n
      return .again () (x :: ·)
  else if ← isAt .newline then
    let _ ← bump
    return .exit []
  else unexpected [.newline, .symbol .semi]

/-- The statements of a line are read statement by statement. -/
theorem loops_moreStmts : Loops (fun m _ => moreStmts n m) fun _ _ => stmtRound n where
  zero _ := rfl
  succ m _ := by
    simp only [moreStmts, stmtRound, bind_assoc, ite_bind, pure_bind, unexpected_bind,
      Round.next_exit, Round.next_again]

/-- A line with nothing but a comment, or a blank line. -/
def commentRound : Reader (Round Unit (List Entry)) := do
  if ← isAt .comment then
    let c ← commentLine
    return .again () (.remark c :: ·)
  else if ← isAt .newline then
    let _ ← bump
    return .again () (.blank :: ·)
  else return .exit []

/-- The lines between a header and its body are read line by line. -/
theorem loops_commentLines :
    Loops (fun m (_ : Unit) => commentLines m) fun _ _ => commentRound where
  zero _ := rfl
  succ m _ := by
    simp only [commentLines, commentRound, bind_assoc, ite_bind, pure_bind, Round.next_exit,
      Round.next_again]

/-- An `elif` branch. -/
def elifRound (block : Reader (List Entry)) : Reader (Round Unit (List Arm)) := do
  if ← isAt (.keyword .elif) then
    let token ← bump
    let branch ← arm n block token.pos
    return .again () (branch :: ·)
  else return .exit []

/-- The `elif` branches of an `if` are read branch by branch. -/
theorem loops_elifs (block : Reader (List Entry)) :
    Loops (fun m _ => elifs n block m) fun _ _ => elifRound n block where
  zero _ := rfl
  succ m _ := by
    simp only [elifs, elifRound, bind_assoc, ite_bind, pure_bind, Round.next_exit,
      Round.next_again]

/-- A line of a block, with the readers of statements under the bound `n`. -/
def lineRound (types : Bool) (close : Kind) (n : Nat) : Reader (Round Unit (List Entry)) := do
  let token ← peek
  if token.kind == close then return .exit []
  else if token.kind == .newline then
    let _ ← bump
    return .again () (.blank :: ·)
  else if token.kind == .comment then
    let c ← commentLine
    return .again () (.remark c :: ·)
  else
    let entry ← stmt types n (lines types n .unindent)
    return .again () (entry :: ·)

/-- A block is read line by line. -/
theorem loops_lines (types : Bool) (close : Kind) :
    Loops (fun n _ => lines types n close) fun n _ => lineRound types close n where
  zero _ := rfl
  succ n _ := by
    funext tokens
    simp only [lines, lineRound, bind_assoc, ite_bind, pure_bind, Round.next_exit,
      Round.next_again]

end Statements

end Starlark.Reader
