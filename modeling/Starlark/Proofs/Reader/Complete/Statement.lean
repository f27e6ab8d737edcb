import Starlark.Proofs.Grammar.Statement
import Starlark.Proofs.Reader.Complete

/-!
# The readers of statements read what builds a statement

Tokens that build a statement, a body or a run of lines are read as that, as
long as the bound of the reader is above their number (`builds_read`). What
stands behind them matters only for an `if`, which must not go on with `elif` or
`else`, and for lines, which go on up to the token that closes them. Tokens that
build lines are therefore the statements of a file (`statements_of_builds`).
-/

set_option autoImplicit false

namespace Starlark.Reader

open Token (Kind)

/-! ## Small statements -/

section Small

theorem liftM_run {α β : Type} {x : Except Fault α} {a : α} (value : x = .ok a)
    (k : α → Reader β) (ts : List Token) : ((liftM x : Reader α) >>= k) ts = k a ts := by
  subst value
  rfl

theorem Completes.mono {α : Type} {r : Reader α} {P : List Token → α → Prop} {ends : Kind → Bool}
    {m n : Nat} (completes : Completes r P ends n) (less : m ≤ n) : Completes r P ends m :=
  fun _ _ _ holds short => completes holds (Nat.le_trans short less)

theorem expression_test_run (n : Nat) :
    CompletesPhrase (expression (test (n + 1)) (n + 1)) .expression endsExpression n :=
  expression_run ((innerAt_complete (n + 1)).test.mono (Nat.le_succ n)) (Nat.lt_succ_self n)

/-- A symbol of a `load` is read, whatever follows it. -/
theorem binding_run (n : Nat) : Completes binding BindingTokens (fun _ => true) n := by
  intro ts rest b tokens _ _
  cases tokens with
  | symbol kind value =>
      rw [binding, List.singleton_append, peek_bind, List.headD_cons, kind]
      show (bump >>= _) _ = _
      rw [bump_bind, liftM_run value]
      rfl
  | @renamed t e s x named eq kind value =>
      have behind : (bump >>= fun _ => do
          let _ ← expect (.symbol .eq)
          let value ← expect .string
          let symbol ← symbolOf value
          return ⟨symbol, ⟨t.pos, t.text, .none⟩⟩ : Reader Binding) (t :: e :: s :: rest) =
          .ok (⟨x, ⟨t.pos, t.text, .none⟩⟩, rest) := by
        rw [bump_bind, bind_run (expect_run eq), bind_run (expect_run kind), liftM_run value]
        rfl
      obtain name | load : t.kind = .ident ∨ t.kind = .keyword .load := by
        unfold isName at named
        split at named
        · exact .inl ‹_›
        · exact .inr ‹_›
        · cases named
      · rw [binding]
        show (peek >>= _) (t :: e :: s :: rest) = _
        rw [peek_bind, List.headD_cons, name]
        exact behind
      · rw [binding]
        show (peek >>= _) (t :: e :: s :: rest) = _
        rw [peek_bind, List.headD_cons, load]
        exact behind

/-- A symbol starts with no closing parenthesis. -/
theorem opening_of_binding {ts : List Token} {b : Binding} (tokens : BindingTokens ts b) :
    ts ≠ [] ∧ (ts.headD .ended).kind ≠ .symbol .rparen := by
  cases tokens with
  | symbol kind =>
      refine ⟨by simp, ?_⟩
      rw [List.headD_cons, kind]
      decide
  | renamed named =>
      refine ⟨by simp, fun same => ?_⟩
      rw [List.headD_cons] at same
      rw [same] at named
      cases named

/-- The kinds of token that a statement without a body starts with. -/
def opensSmall (kind : Kind) : Bool :=
  startsTest kind || kind == .keyword .return || kind.isBranch || kind == .keyword .load

/-- A small statement starts with a token that can start one. -/
theorem smallStmt_opens {ts : List Token} {v : Node} (stmt : SmallStmt ts v) :
    ts ≠ [] ∧ opensSmall (ts.headD .ended).kind = true := by
  cases stmt with
  | returnNothing key | returnValue key => exact ⟨by simp, by rw [List.headD_cons, key]; rfl⟩
  | branch key => exact ⟨by simp, by rw [List.headD_cons, opensSmall, key]; simp⟩
  | load key => exact ⟨by simp, by rw [List.headD_cons, key]; rfl⟩
  | assign left =>
      have starts : startsTest _ = true := opens_of_spells left rfl
      refine ⟨by simp, ?_⟩
      rw [headD_append (left.ne_nil rfl), opensSmall, starts]
      rfl
  | value plain =>
      have starts : startsTest _ = true := opens_of_spells plain rfl
      refine ⟨plain.ne_nil rfl, ?_⟩
      rw [opensSmall, starts]
      rfl

/-- Tokens of a kind end a statement without a body. -/
def endsSmall (kind : Kind) : Bool := kind == .newline || kind == .symbol .semi

theorem endsSmall_iff {kind : Kind} :
    endsSmall kind = true ↔ kind = .newline ∨ kind = .symbol .semi := by
  simp [endsSmall]

theorem endsExpression_of_small {kind : Kind} (ends : endsSmall kind = true) :
    endsExpression kind = true := by
  rcases endsSmall_iff.mp ends with rfl | rfl <;> rfl

/-- In front of a token that starts none of the statements with a word of their own, a value or
an assignment is read. -/
theorem smallStmt_value {n : Nat} {ts : List Token}
    (starts : startsTest (ts.headD .ended).kind = true)
    (other : (ts.headD .ended).kind ≠ .keyword .load) :
    smallStmt n ts = (do
      let x ← expression (test n) n
      if (← isAt (.symbol .eq)) || (← isAt .augmented) then
        let op ← bump
        return .joined true x op.pos op.text (← expression (test n) n)
      else return x : Reader Node) ts := by
  rw [smallStmt, peek_bind]
  generalize (ts.headD .ended).kind = kind at starts other
  split
  · cases starts
  · cases starts
  · cases starts
  · cases starts
  · exact absurd rfl other
  · rfl

/-- A small statement is read, by cases of its kind. -/
theorem smallStmt_run (n : Nat) : Completes (smallStmt (n + 1)) SmallStmt endsSmall n := by
  intro ts rest v stmt short stop
  have last := endsExpression_of_small stop
  have ends := endsSmall_iff.mp stop
  cases stmt with
  | returnNothing key =>
      rw [smallStmt, List.singleton_append, peek_bind, List.headD_cons, key]
      show (bump >>= _) _ = _
      rw [bump_bind, isAt_bind, isAt_bind, if_pos (by simpa using ends)]
      rfl
  | @returnValue t ts x key value =>
      rw [List.length_cons] at short
      have starts : startsTest _ = true := opens_of_spells value rfl
      have more : ¬(((ts ++ rest).headD .ended).kind == .newline ||
          ((ts ++ rest).headD .ended).kind == .symbol .semi) = true := by
        rw [headD_append (value.ne_nil rfl)]
        intro ends
        rcases endsSmall_iff.mp ends with same | same <;> rw [same] at starts <;> cases starts
      rw [smallStmt, List.cons_append, peek_bind, List.headD_cons, key]
      show (bump >>= _) _ = _
      rw [bump_bind, isAt_bind, isAt_bind, if_neg more,
        bind_run (expression_test_run n value (by omega) last)]
      rfl
  | @branch t key =>
      rw [smallStmt, List.singleton_append, peek_bind, List.headD_cons]
      unfold Kind.isBranch at key
      split at key
      · rename_i kind; rw [kind]; rfl
      · rename_i kind; rw [kind]; rfl
      · rename_i kind; rw [kind]; rfl
      · cases key
  | @load a b c d ts label bindings key opening kind value symbols closing =>
      simp only [List.length_cons, List.length_append, List.length_nil] at short
      have listed := moreItems_run (binding_run n) opening_of_binding (by decide) rfl rfl symbols
        (by omega) (m := n + 1) (by omega) closing rest
      rw [smallStmt]
      show (peek >>= _) (a :: b :: c :: ((ts ++ [d]) ++ rest)) = _
      rw [peek_bind, List.headD_cons, key, List.append_assoc, List.singleton_append]
      show loadStmt (n + 1) _ = _
      rw [loadStmt, bind_run (expect_run key), bind_run (expect_run opening),
        bind_run (expect_run kind), liftM_run value, bind_run listed]
      rfl
  | @assign e ts us x y left eq right other =>
      simp only [List.length_cons, List.length_append] at short
      have starts : startsTest _ = true := opens_of_spells left rfl
      have stop : endsExpression ((e :: (us ++ rest)).headD .ended).kind = true := by
        rcases eq with kind | kind <;> rw [List.headD_cons, kind] <;> rfl
      rw [List.append_assoc, List.cons_append,
        smallStmt_value (by rwa [headD_append (left.ne_nil rfl)])
          (by rwa [headD_append (left.ne_nil rfl)]),
        bind_run (expression_test_run n left (by omega) stop), isAt_bind, isAt_bind,
        if_pos (by simpa using eq), bump_bind,
        bind_run (expression_test_run n right (by omega) last)]
      rfl
  | value plain other =>
      have starts : startsTest _ = true := opens_of_spells plain rfl
      have alone : ¬((rest.headD .ended).kind == .symbol .eq ||
          (rest.headD .ended).kind == .augmented) = true := by
        rcases ends with same | same <;> rw [same] <;> decide
      rw [smallStmt_value (by rwa [headD_append (plain.ne_nil rfl)])
          (by rwa [headD_append (plain.ne_nil rfl)]),
        bind_run (expression_test_run n plain short last), isAt_bind, isAt_bind, if_neg alone]
      rfl

theorem lineRest_ends {ts : List Token} {vs : List Node} (line : LineRest ts vs) :
    ts ≠ [] ∧ endsSmall (ts.headD .ended).kind = true := by
  cases line with
  | done ends => exact ⟨by simp, by rw [List.headD_cons, ends]; rfl⟩
  | semi semi | next semi => exact ⟨by simp, by rw [List.headD_cons, semi]; rfl⟩

/-- The rest of a line is read, by induction on the line. -/
theorem moreStmts_run {n : Nat} {ts : List Token} {vs : List Node} (line : LineRest ts vs)
    (short : ts.length ≤ n + 1) {m : Nat} (bound : ts.length ≤ m) (rest : List Token) :
    moreStmts (n + 1) m (ts ++ rest) = .ok (vs, rest) := by
  induction line generalizing m with
  | done ends =>
      obtain ⟨m, rfl⟩ := Nat.exists_eq_add_of_lt bound
      rw [moreStmts, isAt_ite_neg (by rw [List.singleton_append, List.headD_cons, ends]; decide),
        isAt_ite_pos (by exact ends)]
      rfl
  | @semi s t semi ends =>
      obtain ⟨m, rfl⟩ := Nat.exists_eq_add_of_lt bound
      rw [moreStmts, isAt_ite_pos (by exact semi)]
      show (bump >>= _) (s :: t :: rest) = _
      rw [bump_bind, isAt_ite_pos (by exact ends)]
      rfl
  | @next s ts us x xs semi first more ih =>
      obtain ⟨m, rfl⟩ := Nat.exists_eq_add_of_lt bound
      obtain ⟨solid, starts⟩ := smallStmt_opens first
      obtain ⟨some, ends⟩ := lineRest_ends more
      simp only [List.length_cons, List.length_append] at short bound
      have inside : ((ts ++ (us ++ rest)).headD .ended).kind ≠ .newline := by
        rw [headD_append solid]
        intro same
        rw [same] at starts
        cases starts
      have one : smallStmt (n + 1) (ts ++ (us ++ rest)) = .ok (x, us ++ rest) :=
        smallStmt_run n first (by omega) (by rwa [headD_append some])
      rw [moreStmts, isAt_ite_pos (by exact semi)]
      show (bump >>= _) (s :: ((ts ++ us) ++ rest)) = _
      rw [bump_bind, List.append_assoc, isAt_ite_neg inside, bind_run one,
        bind_run (ih (by omega) (by simp only [List.length_append]; omega))]
      rfl

theorem lineOfStmts_run {n : Nat} {ts : List Token} {vs : List Node} (line : StmtLine ts vs)
    (short : ts.length ≤ n + 1) (rest : List Token) :
    lineOfStmts (n + 1) (ts ++ rest) = .ok (vs, rest) := by
  obtain @⟨ts, us, x, xs, first, more⟩ := line
  obtain ⟨some, ends⟩ := lineRest_ends more
  rw [List.length_append] at short
  have positive := List.length_pos_iff.mpr some
  have one : smallStmt (n + 1) (ts ++ (us ++ rest)) = .ok (x, us ++ rest) :=
    smallStmt_run n first (by omega) (by rwa [headD_append some])
  rw [lineOfStmts, List.append_assoc, bind_run one,
    bind_run (moreStmts_run more (by omega) (by omega) rest)]
  rfl

theorem stmtLine_opens {ts : List Token} {vs : List Node} (line : StmtLine ts vs) :
    ts ≠ [] ∧ opensSmall (ts.headD .ended).kind = true := by
  obtain ⟨first, _⟩ := line
  obtain ⟨solid, starts⟩ := smallStmt_opens first
  exact ⟨by simp [solid], by rwa [headD_append solid]⟩

end Small

/-! ## Lines of comments -/

theorem commentLine_run {c t : Token} (kind : c.kind = .comment) (ends : t.kind = .newline)
    (rest : List Token) : commentLine (c :: t :: rest) = .ok (c.comment, rest) := by
  rw [commentLine, bind_run (expect_run kind), bind_run (expect_run ends)]
  rfl

/-- Comments below a header are read up to the indentation, by induction on them. -/
theorem commentLines_run {ts : List Token} {entries : List Entry} (lines : CommentLines ts entries)
    {m : Nat} (bound : ts.length < m) {rest : List Token}
    (stop : (rest.headD .ended).kind = .indent) :
    commentLines m (ts ++ rest) = .ok (entries, rest) := by
  induction lines generalizing m with
  | none =>
      obtain ⟨m, rfl⟩ := Nat.exists_eq_add_of_lt bound
      rw [commentLines, List.nil_append, isAt_ite_neg (by rw [stop]; decide),
        isAt_ite_neg (by rw [stop]; decide)]
      rfl
  | @blank t ts entries ends _ ih =>
      obtain ⟨m, rfl⟩ := Nat.exists_eq_add_of_lt bound
      simp only [List.length_cons] at bound
      rw [commentLines, List.cons_append,
        isAt_ite_neg (by rw [List.headD_cons, ends]; decide), isAt_ite_pos (by exact ends),
        bump_bind, bind_run (ih (by simp only [List.length_cons]; omega))]
      rfl
  | @remark c t ts entries kind ends _ ih =>
      obtain ⟨m, rfl⟩ := Nat.exists_eq_add_of_lt bound
      simp only [List.length_cons] at bound
      rw [commentLines, List.cons_append, List.cons_append, isAt_ite_pos (by exact kind),
        bind_run (commentLine_run kind ends _),
        bind_run (ih (by simp only [List.length_cons]; omega))]
      rfl

/-! ## Statements with a body -/

/-- The kinds of token that a line starts with, blank lines and comments too. -/
def opensLine : Kind → Bool
  | .eof | .unindent | .keyword .elif | .keyword .else => false
  | _ => true

/-- A small statement is told from all other lines by its first token. -/
theorem opensLine_of_small {kind : Kind} (starts : opensSmall kind = true) :
    opensLine kind = true ∧ kind ≠ .newline ∧ kind ≠ .comment ∧ kind ≠ .keyword .define ∧
      kind ≠ .keyword .for ∧ kind ≠ .keyword .if := by
  refine ⟨?_, ?_, ?_, ?_, ?_, ?_⟩
  · unfold opensLine
    split <;> first | rfl | cases starts
  all_goals
    rintro rfl
    cases starts

theorem compound_opens {types : Bool} {ts : List Token} {stmt : Ended}
    (builds : Builds types ts (.compound stmt)) :
    ts ≠ [] ∧ ((ts.headD .ended).kind = .keyword .define ∨
      (ts.headD .ended).kind = .keyword .for ∨ (ts.headD .ended).kind = .keyword .if) := by
  cases builds with
  | define key => exact ⟨by simp, .inl key⟩
  | loop key => exact ⟨by simp, .inr (.inl key)⟩
  | choice key | choiceElse key => exact ⟨by simp, .inr (.inr key)⟩

/-- Behind the last branch of an `if`, other lines or the end of the block follow. -/
theorem lines_opens {types : Bool} {ts : List Token} {entries : List Entry}
    (builds : Builds types ts (.lines entries)) {rest : List Token} {close : Kind}
    (closes : close = .eof ∨ close = .unindent) (stop : (rest.headD .ended).kind = close) :
    ((ts ++ rest).headD .ended).kind ≠ .keyword .elif ∧
      ((ts ++ rest).headD .ended).kind ≠ .keyword .else := by
  cases builds with
  | noLine =>
      rw [List.nil_append, stop]
      rcases closes with rfl | rfl <;> decide
  | blank ends =>
      rw [List.cons_append, List.headD_cons, ends]
      decide
  | remark kind =>
      rw [List.cons_append, List.headD_cons, kind]
      decide
  | compound first =>
      obtain ⟨solid, key⟩ := compound_opens first
      rw [List.append_assoc, headD_append solid]
      rcases key with key | key | key <;> rw [key] <;> decide
  | stmts first =>
      obtain ⟨solid, starts⟩ := stmtLine_opens first
      have opens := (opensLine_of_small starts).1
      rw [List.append_assoc, headD_append solid]
      constructor
      · intro same
        rw [same] at opens
        cases opens
      · intro same
        rw [same] at opens
        cases opens

/-- The readers read the tokens as the reading. -/
def IsRead (types : Bool) (ts : List Token) : Reading → Prop
  | .suite s => ∀ ⦃n : Nat⦄ ⦃rest : List Token⦄, ts.length ≤ n →
      suite (n + 1) (lines types (n + 1) .unindent) (ts ++ rest) = .ok (s, rest)
  | .compound stmt => ∀ ⦃n : Nat⦄ ⦃rest : List Token⦄, ts.length ≤ n + 1 →
      (rest.headD .ended).kind ≠ .keyword .elif → (rest.headD .ended).kind ≠ .keyword .else →
      Reader.stmt types (n + 1) (lines types (n + 1) .unindent) (ts ++ rest) =
        .ok (blockGroup stmt, rest)
  | .arms arms => ∀ ⦃n m : Nat⦄ ⦃rest : List Token⦄, ts.length ≤ n → ts.length < m →
      (rest.headD .ended).kind ≠ .keyword .elif →
      elifs (n + 1) (lines types (n + 1) .unindent) m (ts ++ rest) = .ok (arms, rest)
  | .lines entries => ∀ ⦃n : Nat⦄ ⦃close : Kind⦄ ⦃rest : List Token⦄, ts.length < n →
      (close = .eof ∨ close = .unindent) → (rest.headD .ended).kind = close →
      lines types n close (ts ++ rest) = .ok (entries, rest)

section Bodies

variable {types : Bool} {ts rest : List Token} {n : Nat}

theorem lineSuite_run {vs : List Node} (line : StmtLine ts vs) :
    IsRead types ts (.suite ⟨[], vs, true⟩) := by
  intro n rest short
  obtain ⟨solid, starts⟩ := stmtLine_opens line
  obtain ⟨_, newline, comment, _⟩ := opensLine_of_small starts
  have inside : ¬(((ts ++ rest).headD .ended).kind == .newline ||
      ((ts ++ rest).headD .ended).kind == .comment) = true := by
    rw [headD_append solid, Bool.or_eq_true, beq_iff_eq, beq_iff_eq, not_or]
    exact ⟨newline, comment⟩
  rw [suite, isAt_bind, isAt_bind, if_neg inside, bind_run (lineOfStmts_run line (by omega) rest)]
  rfl

/-- An indented body is read, with the comments between it and its header. -/
theorem blockSuite_run {a b : Token} {hs ls : List Token} {header : List Comment}
    {leading entries : List Entry} (ends : HeaderEnd hs header) (above : CommentLines ls leading)
    (opening : a.kind = .indent) (body : IsRead types ts (.lines entries))
    (closing : b.kind = .unindent) :
    IsRead types (hs ++ ls ++ a :: (ts ++ [b]))
      (.suite ⟨header, (Block.ofEntries leading).precede (Block.ofEntries entries).nodes,
        (Block.ofEntries entries).followed⟩) := by
  intro n rest short
  simp only [List.length_append, List.length_cons, List.length_nil] at short
  have inside : lines types (n + 1) .unindent (ts ++ b :: rest) = .ok (entries, b :: rest) :=
    body (by omega) (.inr rfl) closing
  have comments : commentLines (n + 1) (ls ++ a :: (ts ++ b :: rest)) =
      .ok (leading, a :: (ts ++ b :: rest)) :=
    commentLines_run above (by omega) opening
  have split : hs ++ ls ++ a :: (ts ++ [b]) ++ rest = hs ++ (ls ++ a :: (ts ++ b :: rest)) := by
    simp
  have behind : (do
      let leading ← commentLines (n + 1)
      let _ ← expect .indent
      let entries ← lines types (n + 1) .unindent
      let _ ← expect .unindent
      let body := Block.ofEntries entries
      return ⟨header, (Block.ofEntries leading).precede body.nodes, body.followed⟩ : Reader Suite)
      (ls ++ a :: (ts ++ b :: rest)) =
        .ok (⟨header, (Block.ofEntries leading).precede (Block.ofEntries entries).nodes,
          (Block.ofEntries entries).followed⟩, rest) := by
    rw [bind_run comments, bind_run (expect_run opening), bind_run inside,
      bind_run (expect_run closing)]
    rfl
  rw [split, suite, isAt_bind, isAt_bind]
  cases ends with
  | @plain t ends =>
      rw [List.singleton_append, if_pos (by simp [ends]), isAt_ite_neg (by simp [ends]),
        map_eq_pure_bind, bind_assoc, bind_run (expect_run ends), pure_bind]
      exact behind
  | @commented c t kind ends =>
      rw [List.cons_append, List.singleton_append, if_pos (by simp [kind]),
        isAt_ite_pos (by exact kind), map_eq_pure_bind, bind_assoc,
        bind_run (commentLine_run kind ends _), pure_bind]
      exact behind

theorem arm_run {b : Token} {cs : List Token} {cond : Node} {s : Suite} (pos : Position)
    (test : Spells .expression cs [cond]) (colon : b.kind = .symbol .colon)
    (body : IsRead types ts (.suite s)) (short : cs.length + ts.length ≤ n) :
    arm (n + 1) (lines types (n + 1) .unindent) pos (cs ++ b :: (ts ++ rest)) =
      .ok (⟨pos, cond, s⟩, rest) := by
  have stop : endsExpression ((b :: (ts ++ rest)).headD .ended).kind = true := by
    rw [List.headD_cons, colon]
    rfl
  rw [arm, bind_run (expression_test_run n test (by omega) stop), bind_run (expect_run colon),
    bind_run (body (by omega))]
  rfl

/-- A function is read when its body is. -/
theorem define_run {a t b c d : Token} {ps : List Token} {params : List Node} {s : Suite}
    (key : a.kind = .keyword .define) (named : isName t.kind = true)
    (opening : b.kind = .symbol .lparen) (parts : Spells (.params types) ps params)
    (closing : c.kind = .symbol .rparen) (colon : d.kind = .symbol .colon)
    (body : IsRead types ts (.suite s)) :
    IsRead types (a :: t :: b :: (ps ++ c :: d :: ts))
      (.compound (.mk (.ofSuffix s.header)
        (.defStmt a.pos t.text b.pos params c.pos d.pos s.body (.ofParts b.pos params c.pos)),
        s.followed)) := by
  intro n rest short _ _
  simp only [List.length_append, List.length_cons] at short
  have close : endsParam types (.symbol .rparen) = true := by cases types <;> rfl
  have arguments := params_run (innerAt_complete (n + 1)) (by decide) close rfl parts (by omega)
    (m := n + 1) (by omega) closing (d :: (ts ++ rest))
  have whole : defStmt types (n + 1) (lines types (n + 1) .unindent)
      (a :: t :: b :: (ps ++ c :: d :: (ts ++ rest))) = .ok ((.mk (.ofSuffix s.header)
        (.defStmt a.pos t.text b.pos params c.pos d.pos s.body (.ofParts b.pos params c.pos)),
        s.followed), rest) := by
    rw [defStmt, bind_run (expect_run key), bind_run (expectName_run named),
      bind_run (expect_run opening), bind_run arguments, bind_run (expect_run closing),
      bind_run (expect_run colon), bind_run (body (by omega))]
    rfl
  simp only [List.cons_append, List.append_assoc]
  rw [stmt, peek_bind, List.headD_cons, key]
  exact bind_run whole

/-- A loop is read when its body is. -/
theorem loop_run {a b c : Token} {vs xs : List Token} {vars x : Node} {s : Suite}
    (key : a.kind = .keyword .for) (bound : Spells .targets vs [vars])
    (inside : b.kind = .keyword .in) (range : Spells .expression xs [x])
    (colon : c.kind = .symbol .colon) (body : IsRead types ts (.suite s)) :
    IsRead types (a :: (vs ++ b :: (xs ++ c :: ts)))
      (.compound (.mk (.ofSuffix s.header) (.forStmt a.pos vars x s.body), s.followed)) := by
  intro n rest short _ _
  simp only [List.length_append, List.length_cons] at short
  have operands : CompletesPhrase (operand (n + 1)) .operand endsOperand n :=
    (innerAt_complete (n + 1)).operand.mono (Nat.le_succ n)
  have names : targets (operand (n + 1)) (n + 1) (vs ++ b :: (xs ++ c :: (ts ++ rest))) =
      .ok (vars, b :: (xs ++ c :: (ts ++ rest))) :=
    targets_run operands (Nat.lt_succ_self n) bound (by omega) (beq_of_eq inside)
  have stop : endsExpression ((c :: (ts ++ rest)).headD .ended).kind = true := by
    rw [List.headD_cons, colon]
    rfl
  have whole : forStmt (n + 1) (lines types (n + 1) .unindent)
      (a :: (vs ++ b :: (xs ++ c :: (ts ++ rest)))) =
        .ok ((.mk (.ofSuffix s.header) (.forStmt a.pos vars x s.body), s.followed), rest) := by
    rw [forStmt, bind_run (expect_run key), bind_run names, bind_run (expect_run inside),
      bind_run (expression_test_run n range (by omega) stop), bind_run (expect_run colon),
      bind_run (body (by omega))]
    rfl
  simp only [List.cons_append, List.append_assoc]
  rw [stmt, peek_bind, List.headD_cons, key]
  exact bind_run whole

theorem stmt_if {a : Token} {us : List Token} (key : a.kind = .keyword .if) {e : Ended}
    (whole : ifStmt (n + 1) (lines types (n + 1) .unindent) (a :: us) = .ok (e, rest)) :
    Reader.stmt types (n + 1) (lines types (n + 1) .unindent) (a :: us) =
      .ok (blockGroup e, rest) := by
  rw [stmt, peek_bind, List.headD_cons, key]
  exact bind_run whole

variable {a b : Token} {cs us : List Token} {cond : Node} {s : Suite} {arms : List Arm}

/-- A choice without `else` is read when its branches are. -/
theorem choice_run (key : a.kind = .keyword .if) (test : Spells .expression cs [cond])
    (colon : b.kind = .symbol .colon) (body : IsRead types ts (.suite s))
    (more : IsRead types us (.arms arms)) :
    IsRead types (a :: (cs ++ b :: (ts ++ us)))
      (.compound ((⟨a.pos, cond, s⟩ : Arm).ifStmt (nested (.at .nowhere) [] arms).1
          (nested (.at .nowhere) [] arms).2,
        (arms.getLast?.getD ⟨a.pos, cond, s⟩).suite.followed)) := by
  intro n rest short noElif noElse
  simp only [List.length_append, List.length_cons] at short
  have others : elifs (n + 1) (lines types (n + 1) .unindent) (n + 1) (us ++ rest) =
      .ok (arms, rest) := more (by omega) (by omega) noElif
  simp only [List.cons_append, List.append_assoc]
  refine stmt_if key ?_
  rw [ifStmt, bind_run (expect_run key), bind_run (arm_run a.pos test colon body (by omega)),
    bind_run others, isAt_ite_neg noElse]
  rfl

/-- The same with an `else`, whose body becomes that of the innermost branch. -/
theorem choiceElse_run {e c : Token} {vs : List Token} {s' : Suite} (key : a.kind = .keyword .if)
    (test : Spells .expression cs [cond]) (colon : b.kind = .symbol .colon)
    (body : IsRead types ts (.suite s)) (more : IsRead types us (.arms arms))
    (otherwise : e.kind = .keyword .else) (second : c.kind = .symbol .colon)
    (last : IsRead types vs (.suite s')) :
    IsRead types (a :: (cs ++ b :: (ts ++ us ++ e :: c :: vs)))
      (.compound ((⟨a.pos, cond, s⟩ : Arm).ifStmt
          (nested ⟨e.pos, .ofSuffix s'.header⟩ s'.body arms).1
          (nested ⟨e.pos, .ofSuffix s'.header⟩ s'.body arms).2,
        s'.followed)) := by
  intro n rest short _ _
  simp only [List.length_append, List.length_cons] at short
  have others : elifs (n + 1) (lines types (n + 1) .unindent) (n + 1)
      (us ++ e :: c :: (vs ++ rest)) = .ok (arms, e :: c :: (vs ++ rest)) :=
    more (by omega) (by omega) (by rw [List.headD_cons, otherwise]; decide)
  simp only [List.cons_append, List.append_assoc]
  refine stmt_if key ?_
  rw [ifStmt, bind_run (expect_run key), bind_run (arm_run a.pos test colon body (by omega)),
    bind_run others, isAt_ite_pos (by exact otherwise), bump_bind, bind_run (expect_run second),
    bind_run (last (by omega))]
  rfl

theorem elif_run (key : a.kind = .keyword .elif) (test : Spells .expression cs [cond])
    (colon : b.kind = .symbol .colon) (body : IsRead types ts (.suite s))
    (more : IsRead types us (.arms arms)) :
    IsRead types (a :: (cs ++ b :: (ts ++ us))) (.arms (⟨a.pos, cond, s⟩ :: arms)) := by
  intro n m rest short bound noElif
  obtain ⟨m, rfl⟩ := Nat.exists_eq_add_of_lt bound
  simp only [List.length_append, List.length_cons] at short
  have others : elifs (n + 1) (lines types (n + 1) .unindent)
      ((a :: (cs ++ b :: (ts ++ us))).length + m) (us ++ rest) = .ok (arms, rest) :=
    more (by omega) (by simp only [List.length_append, List.length_cons]; omega) noElif
  rw [elifs]
  simp only [List.cons_append, List.append_assoc]
  rw [isAt_ite_pos (by exact key), bump_bind,
    bind_run (arm_run a.pos test colon body (by omega)), bind_run others]
  rfl

end Bodies

/-! ## Lines -/

section Lines

variable {types : Bool} {ts us rest : List Token} {n : Nat} {close : Kind} {entries : List Entry}

/-- A line that is neither blank nor a comment is a statement. -/
theorem lines_stmt (closes : close = .eof ∨ close = .unindent)
    (starts : opensLine (ts.headD .ended).kind = true)
    (newline : (ts.headD .ended).kind ≠ .newline) (comment : (ts.headD .ended).kind ≠ .comment) :
    lines types (n + 1) close ts = (do
      let entry ← Reader.stmt types n (lines types n .unindent)
      return entry :: (← lines types n close) : Reader (List Entry)) ts := by
  have inside : ¬((ts.headD .ended).kind == close) = true := by
    intro same
    rw [eq_of_beq same] at starts
    rcases closes with rfl | rfl <;> cases starts
  rw [lines, peek_bind, if_neg inside, if_neg (by simpa using newline),
    if_neg (by simpa using comment)]

/-- A statement with a body is read in front of lines that are. -/
theorem compoundLine_run {stmt : Ended} (first : Builds types ts (.compound stmt))
    (read : IsRead types ts (.compound stmt)) (later : Builds types us (.lines entries))
    (more : IsRead types us (.lines entries)) :
    IsRead types (ts ++ us) (.lines (blockGroup stmt :: entries)) := by
  intro n close rest short closes stop
  obtain ⟨solid, key⟩ := compound_opens first
  obtain ⟨noElif, noElse⟩ := lines_opens later closes stop
  have positive := List.length_pos_iff.mpr solid
  rw [List.length_append] at short
  obtain ⟨n, rfl⟩ : ∃ k, n = k + 1 + 1 := ⟨n - 2, by omega⟩
  have start : ((ts ++ (us ++ rest)).headD .ended).kind = .keyword .define ∨
      ((ts ++ (us ++ rest)).headD .ended).kind = .keyword .for ∨
      ((ts ++ (us ++ rest)).headD .ended).kind = .keyword .if := by
    rwa [headD_append solid]
  have one : Reader.stmt types (n + 1) (lines types (n + 1) .unindent) (ts ++ (us ++ rest)) =
      .ok (blockGroup stmt, us ++ rest) := read (by omega) noElif noElse
  rw [List.append_assoc,
    lines_stmt closes (by rcases start with start | start | start <;> rw [start] <;> rfl)
      (by rcases start with start | start | start <;> rw [start] <;> decide)
      (by rcases start with start | start | start <;> rw [start] <;> decide), bind_run one,
    bind_run (more (by omega) closes stop)]
  rfl

/-- A line of small statements is read in front of lines that are. -/
theorem stmtLine_run {vs : List Node} (first : StmtLine ts vs)
    (more : IsRead types us (.lines entries)) :
    IsRead types (ts ++ us) (.lines (.group vs true :: entries)) := by
  intro n close rest short closes stop
  obtain ⟨solid, starts⟩ := stmtLine_opens first
  obtain ⟨opens, newline, comment, define, loop, choice⟩ := opensLine_of_small starts
  have positive := List.length_pos_iff.mpr solid
  rw [List.length_append] at short
  obtain ⟨n, rfl⟩ : ∃ k, n = k + 1 + 1 := ⟨n - 2, by omega⟩
  have head : (ts ++ (us ++ rest)).headD .ended = ts.headD .ended := headD_append solid
  rw [← head] at opens newline comment define loop choice
  have one : Reader.stmt types (n + 1) (lines types (n + 1) .unindent) (ts ++ (us ++ rest)) =
      .ok (.group vs true, us ++ rest) := by
    have line : lineOfStmts (n + 1) (ts ++ (us ++ rest)) = .ok (vs, us ++ rest) :=
      lineOfStmts_run first (by omega) (us ++ rest)
    rw [stmt, peek_bind]
    generalize ((ts ++ (us ++ rest)).headD .ended).kind = kind at define loop choice
    split
    · exact absurd rfl define
    · exact absurd rfl loop
    · exact absurd rfl choice
    · exact bind_run line
  rw [List.append_assoc, lines_stmt closes opens newline comment, bind_run one,
    bind_run (more (by omega) closes stop)]
  rfl

/-- What tokens build is read. -/
theorem builds_read {r : Reading} (builds : Builds types ts r) : IsRead types ts r := by
  induction builds with
  | lineSuite line => exact lineSuite_run line
  | blockSuite ends above opening _ closing ih => exact blockSuite_run ends above opening ih closing
  | define key named opening parts closing colon _ ih =>
      exact define_run key named opening parts closing colon ih
  | loop key bound inside range colon _ ih => exact loop_run key bound inside range colon ih
  | choice key test colon _ _ body more => exact choice_run key test colon body more
  | choiceElse key test colon _ _ otherwise second _ body more last =>
      exact choiceElse_run key test colon body more otherwise second last
  | noArm =>
      intro n m rest _ bound noElif
      obtain ⟨m, rfl⟩ := Nat.exists_eq_add_of_lt bound
      rw [elifs, List.nil_append, isAt_ite_neg noElif]
      rfl
  | arm key test colon _ _ body more => exact elif_run key test colon body more
  | noLine =>
      intro n close rest bound _ stop
      obtain ⟨n, rfl⟩ := Nat.exists_eq_add_of_lt bound
      rw [lines, List.nil_append, peek_bind, if_pos (beq_of_eq stop)]
      rfl
  | @blank t ts entries ends _ ih =>
      intro n close rest bound closes stop
      obtain ⟨n, rfl⟩ := Nat.exists_eq_add_of_lt bound
      have inside : ¬(t.kind == close) = true := by
        rw [ends]
        rcases closes with rfl | rfl <;> decide
      rw [lines, List.cons_append, peek_bind, List.headD_cons, if_neg inside,
        if_pos (beq_of_eq ends), bump_bind,
        bind_run (ih (by simp only [List.length_cons]; omega) closes stop)]
      rfl
  | @remark c t ts entries kind ends _ ih =>
      intro n close rest bound closes stop
      obtain ⟨n, rfl⟩ := Nat.exists_eq_add_of_lt bound
      have inside : ¬(c.kind == close) = true := by
        rw [kind]
        rcases closes with rfl | rfl <;> decide
      rw [lines, List.cons_append, List.cons_append, peek_bind, List.headD_cons, if_neg inside,
        if_neg (by rw [kind]; decide), if_pos (beq_of_eq kind),
        bind_run (commentLine_run kind ends _),
        bind_run (ih (by simp only [List.length_cons]; omega) closes stop)]
      rfl
  | compound first later read more => exact compoundLine_run first read later more
  | stmts first _ more => exact stmtLine_run first more

/-- Lines up to the end of a source are the statements of a file. -/
theorem statements_of_builds (builds : Builds types ts (.lines entries))
    (stop : (rest.headD .ended).kind = .eof) :
    statements types (ts ++ rest) = .ok (Block.ofEntries entries).nodes := by
  have read : lines types ((ts ++ rest).length + 1) .eof (ts ++ rest) = .ok (entries, rest) :=
    builds_read builds (by rw [List.length_append]; omega) (.inl rfl) stop
  have last : ∃ t us, expect .eof rest = .ok (t, us) := by
    rw [expect, isAt_ite_pos stop]
    exact ⟨_, _, rfl⟩
  obtain ⟨t, us, ends⟩ := last
  have whole : (file types ((ts ++ rest).length + 1)).run (ts ++ rest) =
      .ok ((Block.ofEntries entries).nodes, us) := by
    show file types ((ts ++ rest).length + 1) (ts ++ rest) = _
    rw [file, bind_run read, bind_run ends]
    rfl
  rw [statements, whole]
  rfl

end Lines

end Starlark.Reader
