import Starlark.Proofs.Lexeme.Order
import Starlark.Proofs.Reader.Progress

/-!
# Files are read to an end

The statements, walked through as the expressions have been. A body starts the
reader of lines again, but behind a header, and so the bound on nested bodies
is not met either.

The tokens of a scanned source end once (`endsOnce_of_ofChars`). On such tokens
the reader of files comes to statements, with nothing left, or to a fault that
says what it misses, and any bound above the number of tokens leads there. The
readers of phrases (`Phrase`) take a token when they succeed, and so does each
round of a repetition (`Repetition`) that is not the last one.
-/

set_option autoImplicit false

namespace Starlark.Reader

open Token (Kind)

/-! ## Statements -/

section Statements

variable {k n n' : Nat} (enough : k ≤ n) (enough' : k ≤ n')

theorem symbolOf_eq_error {t : Token} {fault : Fault} (fails : symbolOf t = .error fault) :
    StringLit.ofToken t = .error fault := by
  obtain first | ⟨lit, _, done⟩ := Outcome.bind_eq_error.mp fails
  · exact first
  · cases done

/-- Symbols of a `load` match. A misspelt literal is blamed on a token that was taken. -/
theorem steady_binding : Steady k busy binding binding := by
  have named (t : Token) (real : t.kind ≠ .eof) : SteadyAt k t.kind busy (do
      let _ ← bump
      let _ ← expect (.symbol .eq)
      let value ← expect .string
      let symbol ← symbolOf value
      return ⟨symbol, ⟨t.pos, t.text, .none⟩⟩ : Reader Binding) (do
      let _ ← bump
      let _ ← expect (.symbol .eq)
      let value ← expect .string
      let symbol ← symbolOf value
      return ⟨symbol, ⟨t.pos, t.text, .none⟩⟩) := by
    refine .bump real fun _ _ => .expect nofun fun _ _ => ?_
    exact .string (fun _ _ => symbolOf_eq_error) fun _ _ => .pure rfl
  refine .look fun t => ?_
  split
  next kind =>
    -- the string that is looked at is the one that is taken
    intro us ends
    rw [bump_bind]
    exact .literal ends kind (fun _ => symbolOf_eq_error) fun _ => .pure rfl
  next kind => exact fun us ends => named t (kind ▸ nofun) (t :: us) ends rfl
  next kind => exact fun us ends => named t (kind ▸ nofun) (t :: us) ends rfl
  next => exact fun us ends => Steady.unexpected (t :: us) ends

include enough enough'

theorem steady_ways : (innerAt n).Steady k (innerAt n') :=
  have less : k ≤ min n n' := Nat.le_min.mpr ⟨enough, enough'⟩
  have ways := steady_innerAt n n'
  ⟨ways.test.mono less, ways.disjunction.mono less, ways.operand.mono less⟩

theorem steady_expressionAt :
    Steady k busy (expression (test n) n) (expression (test n') n') :=
  steady_expression enough enough' (steady_ways enough enough').test

theorem steady_loadStmt : Steady k busy (loadStmt n) (loadStmt n') := by
  refine .expect nofun fun _ _ => .expect nofun fun _ _ => .string (fun _ _ => id) fun _ _ => ?_
  exact .bind (steady_moreItems (by omega) (by omega) (by decide) steady_binding) fun _ => .pure rfl

/-- Small statements match, the first token telling them apart. -/
theorem steady_smallStmt : Steady k busy (smallStmt n) (smallStmt n') := by
  have value := steady_expressionAt enough enough'
  refine .peek fun t => ?_
  generalize t.kind = kind
  split
  next =>
    refine .bump nofun fun _ _ => ?_
    exact .isAt_or (Steady.pure rfl).at (Steady.pure rfl).at (.bind value.down fun _ => .pure rfl)
  next => exact .bump nofun fun _ _ => .pure rfl
  next => exact .bump nofun fun _ _ => .pure rfl
  next => exact .bump nofun fun _ _ => .pure rfl
  next => exact (steady_loadStmt enough enough').at
  next =>
    have right {kind : Kind} (real : kind ≠ .eof) {build : Token → Node → Node} :
        SteadyAt (k - 1) kind idle
          (bump >>= fun op => expression (test n) n >>= fun y => pure (build op y))
          (bump >>= fun op => expression (test n') n' >>= fun y => pure (build op y)) :=
      .bump real fun _ _ => .bind value.down.down fun _ => .pure rfl
    refine (Steady.enter value fun _ => ?_).at
    exact .isAt_or (right (by decide)) (right (by decide)) (.pure rfl)

theorem steady_stmtRound : Steady k (Round.strict false) (stmtRound n) (stmtRound n') := by
  refine .isAt (.bump nofun fun _ _ => ?_) ?_
  · refine .isAt (.bump nofun fun _ _ => .pure rfl) ?_
    exact .bind (steady_smallStmt enough enough').down fun _ => .pure rfl
  · exact .isAt (.bump nofun fun _ _ => .pure rfl) .unexpected

theorem steady_moreStmts {m m' : Nat} (many : k ≤ m) (many' : k ≤ m') :
    Steady k idle (moreStmts n m) (moreStmts n' m') :=
  .loop (loops_moreStmts n) (loops_moreStmts n') (fun _ => steady_stmtRound enough enough') many
    many' ()

theorem steady_lineOfStmts : Steady k busy (lineOfStmts n) (lineOfStmts n') :=
  .enter (steady_smallStmt enough enough') fun _ =>
    .bind (steady_moreStmts enough enough' enough enough').down fun _ => .pure rfl

/-! ### Lines of comments -/

omit enough enough' in
theorem steady_commentLine : Steady k busy commentLine commentLine :=
  .expect nofun fun _ _ => .expect nofun fun _ _ => .pure rfl

omit enough enough' in
theorem steady_commentRound : Steady k (Round.strict false) commentRound commentRound := by
  refine .isAt (Steady.at (.enter steady_commentLine fun _ => .pure rfl)) ?_
  exact .isAt (.bump nofun fun _ _ => .pure rfl) (.pure rfl)

theorem steady_commentLines : Steady k idle (commentLines n) (commentLines n') :=
  .loop loops_commentLines loops_commentLines (fun _ => steady_commentRound) enough enough' ()

/-! ### Statements with a body -/

variable {block block' : Reader (List Entry)}

/-- Bodies match when the lines inside them do. -/
theorem steady_suite (inside : Steady k idle block block') :
    Steady k idle (suite n block) (suite n' block') := by
  have header {f f' : List Comment → Reader Suite}
      (next : ∀ cs, Steady k idle (f cs) (f' cs)) : Steady k idle (do
      if ← isAt .comment then (fun c => [c]) <$> commentLine >>= f
      else (fun _ => []) <$> expect .newline >>= f) (do
      if ← isAt .comment then (fun c => [c]) <$> commentLine >>= f'
      else (fun _ => []) <$> expect .newline >>= f') := by
    have line : Steady k busy (expect .newline) (expect .newline) :=
      bind_pure (expect .newline) ▸ Steady.expect nofun fun _ _ => .pure rfl
    exact .isAt (Steady.at (.bind (.map _ steady_commentLine) next)) (.bind (.map _ line) next)
  refine .isAt_or (Steady.at (header fun _ => ?_)) (Steady.at (header fun _ => ?_))
    (.bind (steady_lineOfStmts enough enough') fun _ => .pure rfl)
  all_goals
    refine .bind (steady_commentLines enough enough') fun _ => .expect nofun fun _ _ => ?_
    exact .bind inside.down fun _ => .expect nofun fun _ _ => .pure rfl

theorem steady_arm (inside : Steady k idle block block') (pos : Position) :
    Steady k idle (arm n block pos) (arm n' block' pos) :=
  .bind (steady_expressionAt enough enough') fun _ => .expect nofun fun _ _ =>
    .bind (steady_suite enough enough' inside).down fun _ => .pure rfl

theorem steady_elifRound (inside : Steady k idle block block') :
    Steady k (Round.strict false) (elifRound n block) (elifRound n' block') := by
  refine .isAt (.bump nofun fun t _ => ?_) (.pure rfl)
  exact .bind (steady_arm enough enough' inside t.pos).down fun _ => .pure rfl

theorem steady_elifs (inside : Steady k idle block block') {m m' : Nat} (many : k ≤ m)
    (many' : k ≤ m') : Steady k idle (elifs n block m) (elifs n' block' m') :=
  .loop (loops_elifs n block) (loops_elifs n' block')
    (fun _ => steady_elifRound enough enough' inside) many many' ()

-- the lines of a body stand behind a header, of which a token has been taken
variable (inside : Steady (k - 1) idle block block')
include inside

theorem steady_defStmt (types : Bool) :
    Steady k busy (defStmt types n block) (defStmt types n' block') := by
  have ways := steady_ways enough enough'
  have body : Steady (k - 1) idle (suite n block) (suite n' block') :=
    steady_suite (by omega) (by omega) inside
  refine .expect nofun fun _ _ => .expectName fun _ => .expect nofun fun _ _ => ?_
  refine .bind (steady_params ways types _ enough enough').down.down.down fun _ => ?_
  refine .expect nofun fun _ _ => .expect nofun fun _ _ => ?_
  exact .bind body.down.down.down.down fun _ => .pure rfl

theorem steady_forStmt : Steady k busy (forStmt n block) (forStmt n' block') := by
  have ways := steady_ways enough enough'
  have body : Steady (k - 1) idle (suite n block) (suite n' block') :=
    steady_suite (by omega) (by omega) inside
  refine .expect nofun fun _ _ => ?_
  refine .bind (steady_targets enough enough' ways.operand).down fun _ => ?_
  refine .expect nofun fun _ _ => .bind (steady_expressionAt enough enough').down.down fun _ => ?_
  exact .expect nofun fun _ _ => .bind body.down.down fun _ => .pure rfl

theorem steady_ifStmt : Steady k busy (ifStmt n block) (ifStmt n' block') := by
  have less : k - 1 ≤ n := by omega
  have less' : k - 1 ≤ n' := by omega
  refine .expect nofun fun t _ => .bind (steady_arm less less' inside t.pos) fun _ => ?_
  refine .bind (steady_elifs less less' inside less less') fun _ => ?_
  refine .isAt (.bump nofun fun _ _ => .expect nofun fun _ _ => ?_) (.pure rfl)
  exact .bind (steady_suite less less' inside).down.down fun _ => .pure rfl

theorem steady_stmt (types : Bool) :
    Steady k busy (stmt types n block) (stmt types n' block') := by
  refine .peek fun t => ?_
  split
  next =>
    exact (Steady.enter (steady_defStmt enough enough' inside types) fun _ => .pure rfl).at
  next => exact (Steady.enter (steady_forStmt enough enough' inside) fun _ => .pure rfl).at
  next => exact (Steady.enter (steady_ifStmt enough enough' inside) fun _ => .pure rfl).at
  next => exact (Steady.enter (steady_lineOfStmts enough enough') fun _ => .pure rfl).at

end Statements

/-! ## Files -/

section Files

variable {k n n' : Nat} (types : Bool)

/-- One turn over a line matches when the lines of deeper bodies do. -/
theorem steady_lineRound (enough : k ≤ n) (enough' : k ≤ n')
    (inside : Steady (k - 1) idle (lines types n .unindent) (lines types n' .unindent))
    (close : Kind) :
    Steady k (Round.strict false) (lineRound types close n) (lineRound types close n') := by
  refine .peek fun t => ?_
  split
  next => exact (Steady.pure rfl).at
  split
  next kind => exact .bump (eq_of_beq kind ▸ nofun) fun _ _ => .pure rfl
  split
  next => exact (Steady.enter steady_commentLine fun _ => .pure rfl).at
  next => exact (Steady.enter (steady_stmt enough enough' inside types) fun _ => .pure rfl).at

/-- The bound on lines and bodies is met after as many tokens at the earliest. -/
theorem steady_lines (enough : k ≤ n - 1) (enough' : k ≤ n' - 1) (close : Kind) :
    Steady k idle (lines types n close) (lines types n' close) := by
  induction n generalizing k n' close with
  | zero =>
      obtain rfl : k = 0 := Nat.le_zero.mp enough
      rw [(loops_lines types close).zero ()]
      exact .stuck
  | succ n ih =>
      have whole (m : Nat) (less : k ≤ m) :
          Steady k idle (lines types (n + 1) close) (lines types (m + 1) close) := by
        have others (close : Kind) :
            Steady (k - 1) idle (lines types n close) (lines types m close) :=
          ih (by omega) (by omega) close
        rw [(loops_lines types close).succ n (), (loops_lines types close).succ m ()]
        exact (steady_lineRound types enough less (others .unindent) close).next
          fun _ => others close
      cases n' with
      | zero =>
          obtain rfl : k = 0 := Nat.le_zero.mp enough'
          exact (whole 0 le_rfl).zero
      | succ m => exact whole m enough'

/-- A file is read to the end of the source, or refused by a fault that blames a token and says
what it misses. The bound does not matter if it is above the number of tokens. -/
theorem file_of_endsOnce {ts : List Token} (ends : EndsOnce ts) (enough : ts.length < n)
    (enough' : ts.length < n') :
    file types n ts = file types n' ts ∧
      ((∃ vs, file types n ts = .ok (vs, [])) ∨
        ∃ fault, file types n ts = .error fault ∧ IsPlain fault ∧ Blames ts fault) := by
  have steady : Steady ts.length idle (lines types n .eof) (lines types n' .eof) :=
    steady_lines types (by omega) (by omega) .eof
  have read := steady ts ends
  have same := read.agrees le_rfl
  cases result : lines types n .eof ts with
  | error fault =>
      have fails (m : Nat) (result : lines types m .eof ts = .error fault) :
          file types m ts = .error fault := bind_run_error result
      rw [fails n result, fails n' (same ▸ result)]
      exact ⟨rfl, .inr ⟨fault, rfl, read.plain le_rfl fault result, read.blames fault result⟩⟩
  | ok found =>
      obtain ⟨entries, rest⟩ := found
      have goes (m : Nat) (result : lines types m .eof ts = .ok (entries, rest)) :
          file types m ts = (expect .eof >>= fun _ => pure (Block.ofEntries entries).nodes) rest :=
        bind_run result
      rw [goes n result, goes n' (same ▸ result)]
      refine ⟨rfl, ?_⟩
      -- the end is the only token left, or something stands before it
      have left := read.leaves entries rest result
      cases left.ends with
      | @last t stop =>
          have here : ([t].headD .ended).kind = .eof := stop
          have taken : expect .eof [t] = .ok (t, []) := by
            rw [expect, isAt_ite_pos here]
            rfl
          exact .inl ⟨_, bind_run taken⟩
      | @cons t us real _ =>
          have fails : expect .eof (t :: us) = .error ⟨t.pos, .unexpected t.kind [.eof]⟩ := by
            rw [expect, isAt_ite_neg (by exact real)]
            rfl
          refine .inr ⟨_, bind_run_error fails, isPlain_unexpected, ?_⟩
          exact .unexpected (left.behind.subset List.mem_cons_self) _

/-- When tokens that end once are refused, one of them is to blame. -/
theorem blames_of_statements {types : Bool} {ts : List Token} {fault : Fault} (ends : EndsOnce ts)
    (fails : statements types ts = .error fault) : Blames ts fault := by
  have refused : file types (ts.length + 1) ts = .error fault := Outcome.map_eq_error.mp fails
  have enough := ts.length.lt_succ_self
  obtain ⟨_, read⟩ | ⟨other, read, _, blames⟩ := (file_of_endsOnce types ends enough enough).2
  · cases refused.symm.trans read
  · cases refused.symm.trans read
    exact blames

end Files

/-! ## Phrases and repetitions -/

/-- The reader takes a token when it succeeds, and leaves the end of the source behind. -/
def Advances {α : Type} (r : Reader α) : Prop :=
  ∀ ts, EndsOnce ts → ∀ a rest, r ts = .ok (a, rest) → Leaves true ts rest

/-- The loop is the one of these rounds, and a round takes a token unless it is the last one. -/
structure Repeats {σ γ : Type} (loop : Nat → σ → Reader γ)
    (round : Nat → σ → Reader (Round σ γ)) : Prop where
  loops : Loops loop round
  advances : ∀ n s ts, EndsOnce ts → ∀ result rest, round n s ts = .ok (result, rest) →
    Leaves (Round.strict false result) ts rest

/-- The readers of phrases, under the bounds with which they are called. -/
inductive Phrase (types : Bool) : {α : Type} → Reader α → Prop
  | expression (n : Nat) : Phrase types (expression (test n) n)
  | test (n : Nat) : Phrase types (test n)
  /-- Binary operators, of as many layers. -/
  | binary (n layers : Nat) : Phrase types (tower (innerAt n) (n + 1) layers)
  | unary (n m : Nat) : Phrase types (signed (innerAt n) (n + 1) m)
  | operand (n : Nat) : Phrase types (operandWith (innerAt n) (n + 1))
  | atom (n : Nat) : Phrase types (atom (innerAt n) (n + 1))
  | argument (n : Nat) : Phrase types (argument (innerAt n))
  | param (n : Nat) (close : Kind) : Phrase types (param (innerAt n) types close)
  | smallStmt (n : Nat) : Phrase types (smallStmt n)
  | stmt (n : Nat) : Phrase types (stmt types n (lines types n .unindent))

/-- The repetitions with their rounds. -/
inductive Repetition (types : Bool) :
    {σ γ : Type} → (Nat → σ → Reader γ) → (Nat → σ → Reader (Round σ γ)) → Prop
  /-- Items between brackets, each of which is an argument, a test, an entry or a binding. -/
  | arguments (n : Nat) (close : Symbol) :
      Repetition types (fun m _ => moreItems (.symbol close) (argument (innerAt n)) m)
        fun _ _ => itemRound (.symbol close) (argument (innerAt n))
  | tests (n : Nat) (close : Symbol) :
      Repetition types (fun m _ => moreItems (.symbol close) (test n) m)
        fun _ _ => itemRound (.symbol close) (test n)
  | entries (n : Nat) (close : Symbol) :
      Repetition types (fun m _ => moreItems (.symbol close) (entry (innerAt n)) m)
        fun _ _ => itemRound (.symbol close) (entry (innerAt n))
  | bindings (close : Symbol) :
      Repetition types (fun m _ => moreItems (.symbol close) binding m)
        fun _ _ => itemRound (.symbol close) binding
  /-- The tests of a tuple without brackets. -/
  | bare (n : Nat) :
      Repetition types (fun m _ => moreTests (Reader.test n) m) fun _ _ => testRound (Reader.test n)
  /-- The variables of a loop. -/
  | targets (n : Nat) :
      Repetition types (fun m _ => moreTargets (operand n) m) fun _ _ => targetRound (operand n)
  | clauses (n : Nat) :
      Repetition types (fun m _ => clauses (innerAt n) (n + 1) m)
        fun _ _ => clauseRound (innerAt n) (n + 1)
  | suffixes (n : Nat) :
      Repetition types (suffixes (innerAt n) (n + 1)) fun _ => suffixRound (innerAt n) (n + 1)
  | signs (n : Nat) :
      Repetition types (fun m _ => signed (innerAt n) (n + 1) m)
        fun _ _ => signRound (innerAt n) (n + 1)
  /-- The operators of a layer, between operands of the layers that bind closer. -/
  | operators (n layers layer : Nat) :
      Repetition types (chain (tower (innerAt n) (n + 1) layers) layer)
        fun _ => operatorRound (tower (innerAt n) (n + 1) layers) layer
  | params (n : Nat) (close : Kind) :
      Repetition types (fun m _ => params (innerAt n) types close m)
        fun _ _ => paramRound (innerAt n) types close
  | stmts (n : Nat) : Repetition types (fun m _ => moreStmts n m) fun _ _ => stmtRound n
  | comments : Repetition types (fun m (_ : Unit) => commentLines m) fun _ _ => commentRound
  | elifs (n : Nat) :
      Repetition types (fun m _ => elifs n (lines types n .unindent) m)
        fun _ _ => elifRound n (lines types n .unindent)
  /-- The lines of a file or of a body. -/
  | lines (close : Kind) :
      Repetition types (fun n _ => lines types n close) fun n _ => lineRound types close n

section Conclusions

variable {types : Bool}

theorem Steady.advances {α : Type} {k : Nat} {r r' : Reader α} (steady : Steady k busy r r') :
    Advances r :=
  fun ts ends => (steady ts ends).leaves

theorem steady_innerAt_self (n : Nat) : (innerAt n).Steady 0 (innerAt n) :=
  steady_ways n.zero_le n.zero_le

variable (types) in
theorem steady_lines_self (n : Nat) (close : Kind) :
    Steady 0 idle (lines types n close) (lines types n close) :=
  steady_lines types (Nat.zero_le _) (Nat.zero_le _) close

/-- Where the last round takes a token as well, the others do all the more. -/
theorem Loops.repeats {σ γ : Type} {last : Bool} {k : Nat} {loop : Nat → σ → Reader γ}
    {round : Nat → σ → Reader (Round σ γ)} (loops : Loops loop round)
    (each : ∀ n s, Steady k (Round.strict last) (round n s) (round n s)) : Repeats loop round where
  loops := loops
  advances n s ts ends result rest success := by
    have left := (each n s ts ends).leaves result rest success
    refine ⟨left.ends, left.behind, fun goes => left.taken ?_⟩
    cases result with
    | exit value => cases goes
    | again state add => rfl

/-- The readers of phrases advance, as they match themselves. -/
theorem Phrase.advances {α : Type} {r : Reader α} (phrase : Phrase types r) : Advances r := by
  cases phrase with
  | expression n => exact (steady_expressionAt n.zero_le n.zero_le).advances
  | test n => exact (steady_innerAt_self n).test.advances
  | binary n layers =>
      exact (steady_tower (steady_innerAt_self n) n.succ_pos n.succ_pos layers).advances
  | unary n m =>
      cases m with
      | zero => exact nofun
      | succ m =>
          exact (steady_signed (steady_innerAt_self n) n.succ_pos n.succ_pos m.succ_pos
            m.succ_pos).advances
  | operand n =>
      exact (steady_operandWith (steady_innerAt_self n) n.succ_pos n.succ_pos).advances
  | atom n => exact (steady_atom (steady_innerAt_self n) n.succ_pos n.succ_pos).advances
  | argument n => exact (steady_argument (steady_innerAt_self n)).advances
  | param n close => exact (steady_param (steady_innerAt_self n) types close).advances
  | smallStmt n => exact (steady_smallStmt n.zero_le n.zero_le).advances
  | stmt n =>
      exact (steady_stmt n.zero_le n.zero_le (steady_lines_self types n .unindent) types).advances

/-- Each loop of the reader is its round taken again and again. -/
theorem Repetition.repeats {σ γ : Type} {loop : Nat → σ → Reader γ}
    {round : Nat → σ → Reader (Round σ γ)} (repetition : Repetition types loop round) :
    Repeats loop round := by
  cases repetition with
  | arguments n close =>
      have each := steady_argument (steady_innerAt_self n)
      exact (loops_moreItems _ _).repeats fun _ _ => steady_itemRound nofun each
  | tests n close =>
      have each := (steady_innerAt_self n).test
      exact (loops_moreItems _ _).repeats fun _ _ => steady_itemRound nofun each
  | entries n close =>
      have each := steady_entry (steady_innerAt_self n)
      exact (loops_moreItems _ _).repeats fun _ _ => steady_itemRound nofun each
  | bindings close =>
      exact (loops_moreItems _ _).repeats fun _ _ => steady_itemRound (k := 0) nofun steady_binding
  | bare n =>
      have each := (steady_innerAt_self n).test
      exact (loops_moreTests _).repeats fun _ _ => steady_testRound each
  | targets n =>
      have each := (steady_innerAt_self n).operand
      exact (loops_moreTargets _).repeats fun _ _ => steady_targetRound each
  | clauses n =>
      have each := steady_clauseRound (steady_innerAt_self n) n.succ_pos n.succ_pos
      exact (loops_clauses _ _).repeats fun _ _ => each
  | suffixes n =>
      have each := steady_suffixRound (steady_innerAt_self n) n.succ_pos n.succ_pos
      exact (loops_suffixes _ _).repeats fun _ => each
  | signs n =>
      have each := steady_signRound (steady_innerAt_self n) n.succ_pos n.succ_pos
      exact (loops_signed _ _).repeats fun _ _ => each
  | operators n layers layer =>
      have each := steady_tower (steady_innerAt_self n) n.succ_pos n.succ_pos layers
      exact (loops_chain _ _).repeats fun _ => steady_operatorRound each layer
  | params n close =>
      have each := steady_paramRound (steady_innerAt_self n) types close
      exact (loops_params _ _ _).repeats fun _ _ => each
  | stmts n =>
      exact (loops_moreStmts n).repeats fun _ _ => steady_stmtRound n.zero_le n.zero_le
  | comments => exact loops_commentLines.repeats fun _ _ => steady_commentRound (k := 0)
  | elifs n =>
      have inside := steady_lines_self types n .unindent
      exact (loops_elifs n _).repeats fun _ _ => steady_elifRound n.zero_le n.zero_le inside
  | lines close =>
      have each (n : Nat) := steady_lineRound types n.zero_le n.zero_le
        (steady_lines_self types n .unindent) close
      exact (loops_lines types close).repeats fun n _ => each n

end Conclusions

/-! ## Sources -/

/-- Ordered tokens end once: nothing stands behind the end of the source. -/
theorem EndsOnce.of_ordered {ts : List Token} (ordered : ts.Pairwise Token.Precedes)
    (stops : ∃ t ∈ ts, t.kind = .eof) : EndsOnce ts := by
  induction ts with
  | nil => simp at stops
  | cons t ts ih =>
      obtain ⟨before, ordered⟩ := List.pairwise_cons.mp ordered
      cases ts with
      | nil =>
          obtain ⟨s, member, stop⟩ := stops
          exact .last (List.mem_singleton.mp member ▸ stop)
      | cons u us =>
          have real : t.kind ≠ .eof := (before u List.mem_cons_self).real
          refine .cons real (ih ordered ?_)
          obtain ⟨s, member, stop⟩ := stops
          rcases List.mem_cons.mp member with rfl | later
          · exact absurd stop real
          · exact ⟨s, later, stop⟩

theorem endsOnce_of_ofChars {source : List Char} {stream : TokenStream}
    (scanned : TokenStream.ofChars source = .ok stream) : EndsOnce stream.tokens := by
  obtain ⟨ls, success, rfl⟩ := Outcome.map_eq_ok.mp scanned
  have scans := Lexeme.scans_of_scanFrom success
  obtain ⟨t, member, stop⟩ := scans.exists_eof
  exact .of_ordered scans.ordered ⟨t, Lexeme.mem_tokens.mpr member, stop⟩

/-- Reading comes to an end. -/
structure Halting (types : Bool) : Prop where
  /-- The tokens of a source end once. -/
  scanned : ∀ source stream, TokenStream.ofChars source = .ok stream → EndsOnce stream.tokens
  /-- Tokens that end once are read to their end or refused, and by a fault that says what it
  misses, which is no fault of a bound. -/
  outcome : ∀ ts, EndsOnce ts → ∀ n, ts.length < n →
    (∃ vs, file types n ts = .ok (vs, [])) ∨ ∃ fault, file types n ts = .error fault ∧ IsPlain fault
  /-- All bounds above the number of tokens lead to what `statements` gives. -/
  unbounded : ∀ ts, EndsOnce ts → ∀ n, ts.length < n →
    (·.1) <$> file types n ts = statements types ts
  /-- A reader of a phrase that succeeds has taken a token. -/
  advances : ∀ {α : Type} {r : Reader α}, Phrase types r → Advances r
  /-- A round of a repetition that is not the last one has taken a token. -/
  repeats : ∀ {σ γ : Type} {loop : Nat → σ → Reader γ} {round : Nat → σ → Reader (Round σ γ)},
    Repetition types loop round → Repeats loop round

/-- Reading the tokens of a source comes to an end, and takes tokens on its way there. -/
theorem halting (types : Bool) : Halting types where
  scanned _ _ := endsOnce_of_ofChars
  outcome _ ends _ enough := (file_of_endsOnce types ends enough enough).2.imp id
    fun ⟨fault, fails, plain, _⟩ => ⟨fault, fails, plain⟩
  unbounded ts ends _ enough :=
    congrArg ((·.1) <$> ·) (file_of_endsOnce types ends enough ts.length.lt_succ_self).1
  advances := Phrase.advances
  repeats := Repetition.repeats

end Starlark.Reader
