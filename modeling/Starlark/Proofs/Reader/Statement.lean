import Starlark.Proofs.Grammar.Statement
import Starlark.Proofs.Reader.Expression

/-!
# What the readers of statements accept

Every reader of statements takes only tokens that build what it gives. A body
is sound as soon as the reader of its lines is, and the bound on the nesting
is removed by induction (`lines_takes`). The tokens of a source that is read
are the lines of the file and the end of the source (`statements_eq_ok`).
-/

set_option autoImplicit false

namespace Starlark.Reader

open Token (Kind)

/-! ## Small statements -/

/-- Something that takes no tokens succeeds before the rest does. -/
theorem liftM_bind_eq_ok {α β : Type} {x : Except Fault α} {k : α → Reader β}
    {ts rest : List Token} {b : β} :
    ((liftM x : Reader α) >>= k) ts = .ok (b, rest) ↔
      ∃ a, x = .ok a ∧ k a ts = .ok (b, rest) := by
  cases x with
  | error fault =>
      constructor
      · intro success
        cases success
      · rintro ⟨a, same, _⟩
        cases same
  | ok a =>
      constructor
      · intro success
        exact ⟨a, rfl, success⟩
      · rintro ⟨a, same, success⟩
        cases same
        exact success

/-- The tokens taken for a symbol of a `load` are those of the symbol. -/
theorem binding_takes : Takes binding BindingTokens := by
  intro ts rest v success
  rw [binding, peek_bind] at success
  generalize next : (ts.headD .ended).kind = kind at success
  have renamed : ∀ {t : Token} {us : List Token}, isName t.kind = true →
      (do
        let _ ← expect (.symbol .eq)
        let value ← expect .string
        let symbol ← symbolOf value
        return ⟨symbol, ⟨t.pos, t.text, .none⟩⟩ : Reader Binding) us = .ok (v, rest) →
      ∃ used, t :: us = used ++ rest ∧ BindingTokens used v := by
    intro t us named success
    rw [expect_bind_eq_ok (by decide)] at success
    obtain ⟨e, us, rfl, eq, success⟩ := success
    rw [expect_bind_eq_ok (by decide)] at success
    obtain ⟨s, us, rfl, kind, success⟩ := success
    rw [liftM_bind_eq_ok] at success
    obtain ⟨x, value, ends⟩ := success
    cases ends
    exact ⟨[t, e, s], rfl, .renamed named eq kind value⟩
  split at success
  · obtain ⟨t, us, rfl, kind⟩ := exists_cons_of_kind next (by decide)
    rw [bump_bind, liftM_bind_eq_ok] at success
    obtain ⟨x, value, ends⟩ := success
    cases ends
    exact ⟨[t], rfl, .symbol kind value⟩
  · obtain ⟨t, us, rfl, kind⟩ := exists_cons_of_kind next (by decide)
    exact renamed (by rw [kind]; rfl) success
  · obtain ⟨t, us, rfl, kind⟩ := exists_cons_of_kind next (by decide)
    exact renamed (by rw [kind]; rfl) success
  · cases success

theorem loadStmt_takes (n : Nat) : Takes (loadStmt n) SmallStmt := by
  intro ts rest v success
  rw [loadStmt, expect_bind_eq_ok (by decide)] at success
  obtain ⟨a, ts, rfl, key, success⟩ := success
  rw [expect_bind_eq_ok (by decide)] at success
  obtain ⟨b, ts, rfl, opening, success⟩ := success
  rw [expect_bind_eq_ok (by decide)] at success
  obtain ⟨c, ts, rfl, kind, success⟩ := success
  rw [liftM_bind_eq_ok] at success
  obtain ⟨label, value, success⟩ := success
  obtain ⟨⟨bindings, d⟩, _, mid, rfl, ⟨symbols, rfl, closing, listed⟩, ends⟩ :=
    (moreItems_takes (by decide) binding_takes n).bind_eq_ok success
  cases ends
  exact ⟨a :: b :: c :: (symbols ++ [d]), by simp, .load key opening kind value listed closing⟩

theorem expression_test_reads (n : Nat) : Reads (expression (test n) n) .expression :=
  expression_reads (innerAt_sound n).test n

/-- The tokens taken for a small statement are those of the statement. -/
theorem smallStmt_takes (n : Nat) : Takes (smallStmt n) SmallStmt := by
  intro ts rest v success
  rw [smallStmt, peek_bind] at success
  generalize next : (ts.headD .ended).kind = kind at success
  have branch : ∀ {t : Token} {us : List Token}, t.kind.isBranch = true →
      (pure (.bare (.branch t.text t.pos)) : Reader Node) us = .ok (v, rest) →
      ∃ used, t :: us = used ++ rest ∧ SmallStmt used v := by
    intro t us key ends
    cases ends
    exact ⟨[t], rfl, .branch key⟩
  split at success
  · obtain ⟨t, us, rfl, key⟩ := exists_cons_of_kind next (by decide)
    rw [bump_bind, isAt_bind, isAt_bind] at success
    split at success
    · cases success
      exact ⟨[t], rfl, .returnNothing key⟩
    · obtain ⟨x, used, mid, rfl, value, ends⟩ := (expression_test_reads n).bind_eq_ok success
      cases ends
      exact ⟨t :: used, rfl, .returnValue key value⟩
  · obtain ⟨t, us, rfl, key⟩ := exists_cons_of_kind next (by decide)
    exact branch (by rw [key]; rfl) success
  · obtain ⟨t, us, rfl, key⟩ := exists_cons_of_kind next (by decide)
    exact branch (by rw [key]; rfl) success
  · obtain ⟨t, us, rfl, key⟩ := exists_cons_of_kind next (by decide)
    exact branch (by rw [key]; rfl) success
  · exact loadStmt_takes n success
  · rename_i noLoad
    obtain ⟨x, used, mid, rfl, left, follows⟩ := (expression_test_reads n).bind_eq_ok success
    have other : (used.headD .ended).kind ≠ .keyword .load := by
      obtain ⟨t, used, rfl⟩ := List.exists_cons_of_ne_nil (left.ne_nil rfl)
      exact fun same => noLoad (next.symm.trans same)
    rw [isAt_bind, isAt_bind] at follows
    split at follows
    · rename_i assigns
      have kinds :
          (mid.headD .ended).kind = .symbol .eq ∨ (mid.headD .ended).kind = .augmented := by
        simpa using assigns
      obtain ⟨e, mid, rfl⟩ : ∃ e us, mid = e :: us := by
        obtain kind | kind := kinds
        · exact (exists_cons_of_kind kind (by decide)).imp fun _ => .imp fun _ => And.left
        · exact (exists_cons_of_kind kind (by decide)).imp fun _ => .imp fun _ => And.left
      rw [bump_bind] at follows
      obtain ⟨y, used', mid', rfl, right, ends⟩ := (expression_test_reads n).bind_eq_ok follows
      cases ends
      exact ⟨used ++ e :: used', by simp, .assign left kinds right other⟩
    · cases follows
      exact ⟨used, rfl, .value left other⟩

/-- The tokens taken for the rest of a line are that rest, by induction on the bound. -/
theorem moreStmts_takes (n m : Nat) : Takes (moreStmts n m) LineRest := by
  induction m with
  | zero =>
      intro ts rest xs success
      cases success
  | succ m ih =>
      intro ts rest xs success
      rw [moreStmts, isAt_ite_eq_ok (by decide)] at success
      obtain ⟨s, us, rfl, semi, success⟩ | ⟨_, success⟩ := success
      · rw [bump_bind, isAt_ite_eq_ok (by decide)] at success
        obtain ⟨t, us, rfl, ends, success⟩ | ⟨_, success⟩ := success
        · cases success
          exact ⟨[s, t], rfl, .semi semi ends⟩
        · obtain ⟨x, used, mid, rfl, first, follows⟩ := (smallStmt_takes n).bind_eq_ok success
          obtain ⟨xs, used', mid', rfl, more, ends⟩ := ih.bind_eq_ok follows
          cases ends
          exact ⟨s :: (used ++ used'), by simp, .next semi first more⟩
      · rw [isAt_ite_eq_ok (by decide)] at success
        obtain ⟨t, us, rfl, ends, success⟩ | ⟨_, success⟩ := success
        · cases success
          exact ⟨[t], rfl, .done ends⟩
        · cases success

theorem lineOfStmts_takes (n : Nat) : Takes (lineOfStmts n) StmtLine := by
  intro ts rest xs success
  obtain ⟨x, used, mid, rfl, first, follows⟩ := (smallStmt_takes n).bind_eq_ok success
  obtain ⟨xs, used', mid', rfl, more, ends⟩ := (moreStmts_takes n n).bind_eq_ok follows
  cases ends
  exact ⟨used ++ used', by simp, .mk first more⟩

/-! ## Lines of comments -/

/-- A line with a comment is the comment and the line end. -/
theorem commentLine_bind_eq_ok {β : Type} {k : Comment → Reader β} {ts rest : List Token} {b : β} :
    (commentLine >>= k) ts = .ok (b, rest) ↔
      ∃ c t us, ts = c :: t :: us ∧ c.kind = .comment ∧ t.kind = .newline ∧
        k c.comment us = .ok (b, rest) := by
  rw [commentLine, bind_assoc, expect_bind_eq_ok (by decide)]
  constructor
  · rintro ⟨c, us, rfl, kind, success⟩
    rw [bind_assoc, expect_bind_eq_ok (by decide)] at success
    obtain ⟨t, us, rfl, ends, success⟩ := success
    exact ⟨c, t, us, rfl, kind, ends, success⟩
  · rintro ⟨c, t, us, rfl, kind, ends, success⟩
    refine ⟨c, t :: us, rfl, kind, ?_⟩
    rw [bind_assoc, expect_bind_eq_ok (by decide)]
    exact ⟨t, us, rfl, ends, success⟩

/-- Below a header, lines with comments and empty ones are taken. -/
theorem commentLines_takes (m : Nat) : Takes (commentLines m) CommentLines := by
  induction m with
  | zero =>
      intro ts rest xs success
      cases success
  | succ m ih =>
      intro ts rest xs success
      rw [commentLines, isAt_ite_eq_ok (by decide)] at success
      obtain ⟨c, us, rfl, _, success⟩ | ⟨_, success⟩ := success
      · rw [commentLine_bind_eq_ok] at success
        obtain ⟨c, t, us, split, kind, ends, success⟩ := success
        rw [split]
        obtain ⟨entries, used, mid, rfl, more, done⟩ := ih.bind_eq_ok success
        cases done
        exact ⟨c :: t :: used, rfl, .remark kind ends more⟩
      rw [isAt_ite_eq_ok (by decide)] at success
      obtain ⟨t, us, rfl, ends, success⟩ | ⟨_, success⟩ := success
      · rw [bump_bind] at success
        obtain ⟨entries, used, mid, rfl, more, done⟩ := ih.bind_eq_ok success
        cases done
        exact ⟨t :: used, rfl, .blank ends more⟩
      · cases success
        exact ⟨[], rfl, .none⟩

/-! ## Bodies -/

variable {types : Bool} {block : Reader (List Entry)}
  (sound : Takes block fun used entries => Builds types used (.lines entries)) (n : Nat)
include sound

/-- The tokens taken for a body build it, on the line of its header or below it. -/
theorem suite_takes : Takes (suite n block) fun used s => Builds types used (.suite s) := by
  intro ts rest s success
  rw [suite, isAt_bind, isAt_bind] at success
  have blockAfter : ∀ {header : List Comment} {hs us : List Token}, HeaderEnd hs header →
      (do
        let leading ← commentLines n
        let _ ← expect .indent
        let lines ← block
        let _ ← expect .unindent
        let body := Block.ofEntries lines
        return ⟨header, (Block.ofEntries leading).precede body.nodes, body.followed⟩ :
          Reader Suite) us = .ok (s, rest) →
      ∃ used, hs ++ us = used ++ rest ∧ Builds types used (.suite s) := by
    intro header hs us ends success
    obtain ⟨leading, ls, mid, rfl, above, follows⟩ := (commentLines_takes n).bind_eq_ok success
    rw [expect_bind_eq_ok (by decide)] at follows
    obtain ⟨a, mid, rfl, opening, follows⟩ := follows
    obtain ⟨entries, used, mid', rfl, body, more⟩ := sound.bind_eq_ok follows
    rw [expect_bind_eq_ok (by decide)] at more
    obtain ⟨b, mid', rfl, closing, done⟩ := more
    cases done
    exact ⟨hs ++ ls ++ a :: (used ++ [b]), by simp, .blockSuite ends above opening body closing⟩
  split at success
  · rw [isAt_ite_eq_ok (by decide)] at success
    obtain ⟨c, us, rfl, _, success⟩ | ⟨_, success⟩ := success
    · rw [map_eq_pure_bind, bind_assoc, commentLine_bind_eq_ok] at success
      obtain ⟨c, t, us, split, kind, ends, success⟩ := success
      rw [split]
      exact blockAfter (.commented kind ends) success
    · rw [map_eq_pure_bind, bind_assoc, expect_bind_eq_ok (by decide)] at success
      obtain ⟨t, us, rfl, ends, success⟩ := success
      exact blockAfter (.plain ends) success
  · obtain ⟨vs, used, mid, rfl, line, done⟩ := (lineOfStmts_takes n).bind_eq_ok success
    cases done
    exact ⟨used, rfl, .lineSuite line⟩

theorem defStmt_takes :
    Takes (defStmt types n block) fun used stmt => Builds types used (.compound stmt) := by
  intro ts rest stmt success
  rw [defStmt, expect_bind_eq_ok (by decide)] at success
  obtain ⟨a, ts, rfl, key, success⟩ := success
  rw [expectName_bind_eq_ok] at success
  obtain ⟨t, ts, rfl, named, success⟩ := success
  rw [expect_bind_eq_ok (by decide)] at success
  obtain ⟨b, ts, rfl, opening, success⟩ := success
  obtain ⟨params, ps, mid, rfl, parts, follows⟩ :=
    (params_takes (innerAt_sound n) types (by decide) n).bind_eq_ok success
  rw [expect_bind_eq_ok (by decide)] at follows
  obtain ⟨c, mid, rfl, closing, follows⟩ := follows
  rw [expect_bind_eq_ok (by decide)] at follows
  obtain ⟨d, mid, rfl, colon, follows⟩ := follows
  obtain ⟨s, used, mid', rfl, body, done⟩ := (suite_takes sound n).bind_eq_ok follows
  cases done
  exact ⟨a :: t :: b :: (ps ++ c :: d :: used), by simp,
    .define key named opening parts closing colon body⟩

theorem forStmt_takes :
    Takes (forStmt n block) fun used stmt => Builds types used (.compound stmt) := by
  intro ts rest stmt success
  rw [forStmt, expect_bind_eq_ok (by decide)] at success
  obtain ⟨a, ts, rfl, key, success⟩ := success
  obtain ⟨vars, vs, mid, rfl, bound, follows⟩ :=
    (targets_reads (innerAt_sound n).operand n).bind_eq_ok success
  rw [expect_bind_eq_ok (by decide)] at follows
  obtain ⟨b, mid, rfl, inside, follows⟩ := follows
  obtain ⟨x, xs, mid', rfl, range, more⟩ := (expression_test_reads n).bind_eq_ok follows
  rw [expect_bind_eq_ok (by decide)] at more
  obtain ⟨c, mid', rfl, colon, more⟩ := more
  obtain ⟨s, used, mid'', rfl, body, done⟩ := (suite_takes sound n).bind_eq_ok more
  cases done
  exact ⟨a :: (vs ++ b :: (xs ++ c :: used)), by simp, .loop key bound inside range colon body⟩

/-- A condition, a colon and a body, behind the keyword of a branch. -/
theorem arm_takes (pos : Position) :
    Takes (arm n block pos) fun used a =>
      ∃ cs b ts, used = cs ++ b :: ts ∧ a.pos = pos ∧ Spells .expression cs [a.cond] ∧
        b.kind = .symbol .colon ∧ Builds types ts (.suite a.suite) := by
  intro ts rest a success
  obtain ⟨cond, cs, mid, rfl, test, follows⟩ := (expression_test_reads n).bind_eq_ok success
  rw [expect_bind_eq_ok (by decide)] at follows
  obtain ⟨b, mid, rfl, colon, follows⟩ := follows
  obtain ⟨s, used, mid', rfl, body, done⟩ := (suite_takes sound n).bind_eq_ok follows
  cases done
  exact ⟨cs ++ b :: used, by simp, cs, b, used, rfl, rfl, test, colon, body⟩

/-- The tokens taken for more branches build them, by induction on the bound. -/
theorem elifs_takes (m : Nat) :
    Takes (elifs n block m) fun used arms => Builds types used (.arms arms) := by
  induction m with
  | zero =>
      intro ts rest arms success
      cases success
  | succ m ih =>
      intro ts rest arms success
      rw [elifs, isAt_ite_eq_ok (by decide)] at success
      obtain ⟨a, us, rfl, key, success⟩ | ⟨_, success⟩ := success
      · rw [bump_bind] at success
        obtain ⟨⟨_, cond, s⟩, _, mid, rfl, ⟨cs, b, used, rfl, rfl, test, colon, body⟩, follows⟩ :=
          (arm_takes sound n a.pos).bind_eq_ok success
        obtain ⟨arms, used', mid', rfl, more, done⟩ := ih.bind_eq_ok follows
        cases done
        exact ⟨a :: (cs ++ b :: (used ++ used')), by simp, .arm key test colon body more⟩
      · cases success
        exact ⟨[], rfl, .noArm⟩

theorem ifStmt_takes :
    Takes (ifStmt n block) fun used stmt => Builds types used (.compound stmt) := by
  intro ts rest stmt success
  rw [ifStmt, expect_bind_eq_ok (by decide)] at success
  obtain ⟨a, ts, rfl, key, success⟩ := success
  obtain ⟨⟨_, cond, s⟩, _, mid, rfl, ⟨cs, b, used, rfl, rfl, test, colon, body⟩, follows⟩ :=
    (arm_takes sound n a.pos).bind_eq_ok success
  obtain ⟨arms, used', mid', rfl, more, ends⟩ := (elifs_takes sound n n).bind_eq_ok follows
  rw [isAt_ite_eq_ok (by decide)] at ends
  obtain ⟨e, mid', rfl, otherwise, ends⟩ | ⟨_, ends⟩ := ends
  · rw [bump_bind, expect_bind_eq_ok (by decide)] at ends
    obtain ⟨c, mid', rfl, second, ends⟩ := ends
    obtain ⟨s', used'', mid'', rfl, last, done⟩ := (suite_takes sound n).bind_eq_ok ends
    cases done
    exact ⟨a :: (cs ++ b :: (used ++ used' ++ e :: c :: used'')), by simp,
      .choiceElse key test colon body more otherwise second last⟩
  · cases ends
    exact ⟨a :: (cs ++ b :: (used ++ used')), by simp, .choice key test colon body more⟩

/-- A statement with its body, or the statements of a line, in front of more
lines. -/
theorem stmt_takes :
    Takes (stmt types n block) fun used entry =>
      ∀ {us : List Token} {entries : List Entry}, Builds types us (.lines entries) →
        Builds types (used ++ us) (.lines (entry :: entries)) := by
  intro ts rest entry success
  rw [stmt, peek_bind] at success
  generalize (ts.headD .ended).kind = kind at success
  split at success
  · obtain ⟨e, used, mid, rfl, first, done⟩ := (defStmt_takes sound n).bind_eq_ok success
    cases done
    exact ⟨used, rfl, fun more => .compound first more⟩
  · obtain ⟨e, used, mid, rfl, first, done⟩ := (forStmt_takes sound n).bind_eq_ok success
    cases done
    exact ⟨used, rfl, fun more => .compound first more⟩
  · obtain ⟨e, used, mid, rfl, first, done⟩ := (ifStmt_takes sound n).bind_eq_ok success
    cases done
    exact ⟨used, rfl, fun more => .compound first more⟩
  · obtain ⟨vs, used, mid, rfl, first, done⟩ := (lineOfStmts_takes n).bind_eq_ok success
    cases done
    exact ⟨used, rfl, fun more => .stmts first more⟩

/-! ## Files -/

omit sound n in
/-- The tokens taken for lines build them, by induction on the bound. -/
theorem lines_takes (types : Bool) (n : Nat) :
    ∀ close : Kind, Takes (lines types n close) fun used entries =>
      Builds types used (.lines entries) := by
  induction n with
  | zero =>
      intro close ts rest entries success
      cases success
  | succ n ih =>
      intro close ts rest entries success
      rw [lines, peek_bind] at success
      split at success
      · cases success
        exact ⟨[], rfl, .noLine⟩
      split at success
      · rename_i next
        obtain ⟨t, us, rfl, ends⟩ := exists_cons_of_kind (eq_of_beq next) (by decide)
        rw [bump_bind] at success
        obtain ⟨entries, used, mid, rfl, more, done⟩ := (ih close).bind_eq_ok success
        cases done
        exact ⟨t :: used, rfl, .blank ends more⟩
      split at success
      · rw [commentLine_bind_eq_ok] at success
        obtain ⟨c, t, us, rfl, kind, ends, success⟩ := success
        obtain ⟨entries, used, mid, rfl, more, done⟩ := (ih close).bind_eq_ok success
        cases done
        exact ⟨c :: t :: used, rfl, .remark kind ends more⟩
      · obtain ⟨entry, used, mid, rfl, first, follows⟩ :=
          (stmt_takes (ih .unindent) n).bind_eq_ok success
        obtain ⟨entries, used', mid', rfl, more, done⟩ := (ih close).bind_eq_ok follows
        cases done
        exact ⟨used ++ used', by simp, first more⟩

omit sound n in
/-- A source that is read consists of lines and its end. -/
theorem statements_eq_ok {types : Bool} {tokens : List Token} {vs : List Node}
    (success : statements types tokens = .ok vs) :
    ∃ used rest entries, tokens = used ++ rest ∧ (rest.headD .ended).kind = .eof ∧
      Builds types used (.lines entries) ∧ vs = (Block.ofEntries entries).nodes := by
  rw [statements] at success
  cases read : (file types (tokens.length + 1)).run tokens with
  | error fault =>
      rw [read] at success
      cases success
  | ok result =>
      rw [read] at success
      cases success
      obtain ⟨vs, left⟩ := result
      obtain ⟨entries, used, rest, split, lines, follows⟩ :=
        (lines_takes types (tokens.length + 1) .eof).bind_eq_ok read
      rw [bind_eq_ok] at follows
      obtain ⟨t, mid, expected, done⟩ := follows
      cases done
      refine ⟨used, rest, entries, split, ?_, lines, rfl⟩
      rw [expect, isAt_bind] at expected
      split at expected
      · rename_i next
        exact eq_of_beq next
      · cases expected

end Starlark.Reader
