import Starlark.Proofs.Reader

/-!
# What the readers of expressions accept

Every reader of the expression grammar takes only tokens that spell the node
it gives. The readers are written over the ways into the grammar from inside
brackets (`Inner`); each is sound as soon as these are, and the bound on the
nesting is then removed by induction (`test_reads`, `disjunction_reads`,
`operand_reads`).
-/

set_option autoImplicit false

namespace Starlark.Reader

open Token (Kind)

/-- Whenever `r` succeeds, the tokens it took spell its node. -/
abbrev Reads (r : Reader Node) (p : Phrase) : Prop := Takes r fun used v => Spells p used [v]

theorem Listed.spells {p : Phrase} {us : List Token} {xs : List Node}
    (listed : Listed (fun used v => Spells p used [v]) us xs) : Spells (.tail p) us xs := by
  induction listed with
  | none => exact .noMore
  | comma comma => exact .lastComma comma
  | item comma first _ ih => exact .oneMore comma first ih

/-! ## Tests in a row -/

/-- More tests take nothing only when no comma is next. -/
theorem moreTests_spells {test : Reader Node} {p : Phrase} (each : Reads test p) (n : Nat) :
    ∀ {ts rest : List Token} {xs : List Node}, moreTests test n ts = .ok (xs, rest) →
      ∃ used, ts = used ++ rest ∧ Spells (.tail p) used xs ∧
        ((ts.headD .ended).kind = .symbol .comma → used ≠ []) := by
  induction n with
  | zero =>
      intro ts rest xs success
      cases success
  | succ n ih =>
      intro ts rest xs success
      rw [moreTests, isAt_ite_eq_ok (by decide)] at success
      obtain ⟨c, us, rfl, comma, success⟩ | ⟨other, success⟩ := success
      · rw [bump_bind, peek_bind] at success
        split at success
        · obtain ⟨x, used, mid, rfl, spells, follows⟩ := each.bind_eq_ok success
          obtain ⟨xs, mid', more, ends⟩ := bind_eq_ok.mp follows
          cases ends
          obtain ⟨used', rfl, spells', _⟩ := ih more
          exact ⟨c :: (used ++ used'), by simp, .oneMore comma spells spells', by simp⟩
        · cases success
          exact ⟨[c], rfl, .lastComma comma, by simp⟩
      · cases success
        exact ⟨[], rfl, .noMore, fun comma => absurd comma other⟩

theorem expression_reads {test : Reader Node} (each : Reads test .test) (n : Nat) :
    Reads (expression test n) .expression := by
  intro ts rest v success
  obtain ⟨x, used, mid, rfl, spells, follows⟩ := each.bind_eq_ok success
  rw [isAt_ite_eq_ok (by decide)] at follows
  obtain ⟨c, us, rfl, comma, follows⟩ | ⟨_, follows⟩ := follows
  · obtain ⟨xs, mid', more, ends⟩ := bind_eq_ok.mp follows
    cases ends
    obtain ⟨used', split, spells', commas⟩ := moreTests_spells each n more
    rw [split]
    exact ⟨used ++ used', by simp, .several spells spells' (commas comma)⟩
  · cases follows
    exact ⟨used, rfl, .single spells⟩

/-- More variables of a loop are spelled by the tokens taken, at least the comma if there is one. -/
theorem moreTargets_spells {operand : Reader Node} {p : Phrase} (each : Reads operand p)
    (n : Nat) :
    ∀ {ts rest : List Token} {xs : List Node}, moreTargets operand n ts = .ok (xs, rest) →
      ∃ used, ts = used ++ rest ∧ Spells (.tail p) used xs ∧
        ((ts.headD .ended).kind = .symbol .comma → used ≠ []) := by
  induction n with
  | zero =>
      intro ts rest xs success
      cases success
  | succ n ih =>
      intro ts rest xs success
      rw [moreTargets, isAt_ite_eq_ok (by decide)] at success
      obtain ⟨c, us, rfl, comma, success⟩ | ⟨other, success⟩ := success
      · rw [bump_bind, isAt_ite_eq_ok (by decide)] at success
        obtain ⟨_, _, rfl, _, success⟩ | ⟨_, success⟩ := success
        · cases success
          exact ⟨[c], rfl, .lastComma comma, by simp⟩
        · obtain ⟨x, used, mid, rfl, spells, follows⟩ := each.bind_eq_ok success
          obtain ⟨xs, mid', more, ends⟩ := bind_eq_ok.mp follows
          cases ends
          obtain ⟨used', rfl, spells', _⟩ := ih more
          exact ⟨c :: (used ++ used'), by simp, .oneMore comma spells spells', by simp⟩
      · cases success
        exact ⟨[], rfl, .noMore, fun comma => absurd comma other⟩

theorem targets_reads {operand : Reader Node} (each : Reads operand .operand) (n : Nat) :
    Reads (targets operand n) .targets := by
  intro ts rest v success
  obtain ⟨x, used, mid, rfl, spells, follows⟩ := each.bind_eq_ok success
  rw [isAt_ite_eq_ok (by decide)] at follows
  obtain ⟨c, us, rfl, comma, follows⟩ | ⟨_, follows⟩ := follows
  · obtain ⟨xs, mid', more, ends⟩ := bind_eq_ok.mp follows
    cases ends
    obtain ⟨used', split, spells', commas⟩ := moreTargets_spells each n more
    rw [split]
    exact ⟨used ++ used', by simp, .severalTargets spells spells' (commas comma)⟩
  · cases follows
    exact ⟨used, rfl, .target spells⟩

/-! ## Strings -/

/-- Steps that cannot look at the tokens leave them alone. -/
theorem mapM_lift_run {α β : Type} (f : α → Except Fault β) (xs : List α) (ts : List Token) :
    xs.mapM (fun x => (liftM (f x) : Reader β)) ts =
      (match xs.mapM f with
      | .ok ys => .ok (ys, ts)
      | .error fault => .error fault) := by
  induction xs with
  | nil => rfl
  | cons x xs ih =>
      rw [List.mapM_cons, List.mapM_cons]
      cases first : f x with
      | error fault => rfl
      | ok y =>
          have run : (liftM (Except.ok y : Except Fault β) : Reader β) ts = .ok (y, ts) := rfl
          rw [bind_run run]
          cases others : xs.mapM f with
          | error fault =>
              rw [others] at ih
              rw [bind_run_error ih]
              rfl
          | ok ys =>
              rw [others] at ih
              rw [bind_run ih]
              rfl

/-- The strings at the front are taken all at once. -/
theorem strings_run (ts : List Token) :
    strings ts =
      (match ((ts.takeWhile (·.kind == .string)).mapM StringLit.ofToken :
          Except Fault (List StringLit)) with
      | .error fault => .error fault
      | .ok [] => (unexpected [.string] : Reader Node) (ts.dropWhile (·.kind == .string))
      | .ok (first :: others) =>
        .ok (.ofStrings first others, ts.dropWhile (·.kind == .string))) := by
  have lifted := mapM_lift_run StringLit.ofToken (ts.takeWhile (·.kind == .string))
    (ts.dropWhile (·.kind == .string))
  have seen : (get : Reader (List Token)) ts = .ok (ts, ts) := rfl
  have left : (set (ts.dropWhile (·.kind == .string)) : Reader PUnit) ts =
      .ok (⟨⟩, ts.dropWhile (·.kind == .string)) := rfl
  rw [strings, bind_run seen, bind_run seen, bind_run left]
  cases read : (ts.takeWhile (·.kind == .string)).mapM StringLit.ofToken with
  | error fault =>
      rw [read] at lifted
      exact bind_run_error lifted
  | ok lits =>
      rw [read] at lifted
      rw [bind_run lifted]
      cases lits <;> rfl

theorem strings_reads : Reads strings .atom := by
  intro ts rest v success
  rw [strings_run] at success
  split at success
  · cases success
  · cases success
  · rename_i first others literals
    cases success
    refine ⟨ts.takeWhile (·.kind == .string), (List.takeWhile_append_dropWhile).symm,
      .strings ?_ literals⟩
    intro t member
    simpa using List.all_eq_true.mp List.all_takeWhile t member

/-! ## Atoms -/

/-- The ways into the grammar from inside brackets read what they are for. -/
structure Inner.Sound (inner : Inner) : Prop where
  test : Reads inner.test .test
  disjunction : Reads inner.disjunction (.layer 9)
  operand : Reads inner.operand .operand

theorem isSign_ne_eof {kind : Kind} (sign : isSign kind = true) : kind ≠ .eof := by
  rintro rfl
  cases sign

theorem layer?_ne_eof {kind : Kind} {layer : Nat} (known : layer? kind = some layer) :
    kind ≠ .eof := by
  rintro rfl
  cases known

variable {inner : Inner} (sound : inner.Sound) (n : Nat)
include sound

/-- What is read in parentheses is a test or a tuple. -/
theorem parenthesized_reads : Reads (parenthesized inner n) .atom := by
  intro ts rest v success
  rw [parenthesized, expect_bind_eq_ok (by decide)] at success
  obtain ⟨a, ts, rfl, opening, success⟩ := success
  rw [isAt_ite_eq_ok (by decide)] at success
  obtain ⟨b, us, rfl, closing, success⟩ | ⟨_, success⟩ := success
  · cases success
    exact ⟨[a, b], rfl, .unit opening closing⟩
  obtain ⟨x, used, mid, rfl, spells, follows⟩ := sound.test.bind_eq_ok success
  rw [isAt_ite_eq_ok (by decide)] at follows
  obtain ⟨b, us, rfl, closing, follows⟩ | ⟨other, follows⟩ := follows
  · cases follows
    exact ⟨a :: (used ++ [b]), by simp, .paren opening closing spells⟩
  · obtain ⟨⟨xs, b⟩, _, mid', rfl, ⟨items, rfl, closing, listed⟩, ends⟩ :=
      (moreItems_takes (by decide) sound.test n).bind_eq_ok follows
    cases ends
    refine ⟨a :: (used ++ items ++ [b]), by simp, .tuple opening closing spells listed.spells ?_⟩
    rintro rfl
    exact other closing

/-- The tokens taken for clauses spell them, by induction on the bound. -/
theorem clauses_takes (m : Nat) :
    Takes (clauses inner n m) fun used xs => Spells .clauses used xs := by
  induction m with
  | zero =>
      intro ts rest xs success
      cases success
  | succ m ih =>
      intro ts rest xs success
      rw [clauses, peek_bind] at success
      split at success
      · rename_i next
        obtain ⟨a, us, rfl, loops⟩ := exists_cons_of_kind (eq_of_beq next) (by decide)
        rw [bump_bind] at success
        obtain ⟨x, used, mid, rfl, bound, follows⟩ :=
          (targets_reads sound.operand n).bind_eq_ok success
        rw [expect_bind_eq_ok (by decide)] at follows
        obtain ⟨b, mid, rfl, inside, follows⟩ := follows
        obtain ⟨y, used', mid', rfl, range, more⟩ := sound.disjunction.bind_eq_ok follows
        obtain ⟨zs, used'', mid'', rfl, others, ends⟩ := ih.bind_eq_ok more
        cases ends
        exact ⟨a :: (used ++ b :: (used' ++ used'')), by simp,
          .forClause loops bound inside range others⟩
      · split at success
        · rename_i next
          obtain ⟨a, us, rfl, tests⟩ := exists_cons_of_kind (eq_of_beq next) (by decide)
          rw [bump_bind] at success
          obtain ⟨x, used, mid, rfl, cond, follows⟩ := sound.disjunction.bind_eq_ok success
          obtain ⟨zs, used', mid', rfl, others, ends⟩ := ih.bind_eq_ok follows
          cases ends
          exact ⟨a :: (used ++ used'), by simp, .ifClause tests cond others⟩
        · cases success
          exact ⟨[], rfl, .noClause⟩

/-- The tokens and the clauses of a comprehension behind its body. -/
theorem comprehension_spells {first : Token} {body v : Node} {close : Symbol}
    {t : Token} {ts rest : List Token} (loops : t.kind = .keyword .for)
    (success : comprehension inner n first body close (t :: ts) = .ok (v, rest)) :
    ∃ us b xs, t :: ts = us ++ b :: rest ∧ b.kind = .symbol close ∧ Spells .clauses us xs ∧
      (us.headD .ended).kind = .keyword .for ∧
      v = .bare (.comprehension (close == .rbrace) first.pos body xs (.at b.pos)
        (Layout.comprehensionStaysOpen first.pos body xs b.pos)) := by
  obtain ⟨xs, us, mid, split, spells, follows⟩ := (clauses_takes sound n n).bind_eq_ok success
  rw [isAt_ite_eq_ok (by simp)] at follows
  obtain ⟨b, mid, rfl, closing, follows⟩ | ⟨_, follows⟩ := follows
  · cases follows
    refine ⟨us, b, xs, split, closing, spells, ?_, rfl⟩
    cases us with
    | nil =>
        obtain ⟨rfl, rfl⟩ := List.cons.inj split
        rw [closing] at loops
        cases loops
    | cons a us =>
        obtain ⟨rfl, rfl⟩ := List.cons.inj split
        exact loops
  · cases follows

/-- What is read in square brackets is a list or a comprehension. -/
theorem list_reads : Reads (list inner n) .atom := by
  intro ts rest v success
  rw [list, expect_bind_eq_ok (by decide)] at success
  obtain ⟨a, ts, rfl, opening, success⟩ := success
  rw [isAt_ite_eq_ok (by decide)] at success
  obtain ⟨b, us, rfl, closing, success⟩ | ⟨_, success⟩ := success
  · cases success
    exact ⟨[a, b], rfl, .list opening closing .noItem⟩
  obtain ⟨x, used, mid, rfl, spells, follows⟩ := sound.test.bind_eq_ok success
  rw [isAt_ite_eq_ok (by decide)] at follows
  obtain ⟨t, us, rfl, loops, follows⟩ | ⟨_, follows⟩ := follows
  · obtain ⟨us', b, xs, split, closing, parts, loops, rfl⟩ :=
      comprehension_spells sound n loops follows
    rw [split]
    exact ⟨a :: (used ++ us' ++ [b]), by simp,
      .listComprehension opening closing spells parts loops⟩
  · obtain ⟨⟨xs, b⟩, _, mid', rfl, ⟨items, rfl, closing, listed⟩, ends⟩ :=
      (moreItems_takes (by decide) sound.test n).bind_eq_ok follows
    cases ends
    exact ⟨a :: (used ++ items ++ [b]), by simp,
      .list opening closing (.someItems spells listed.spells)⟩

omit n in
theorem entryAfter_takes {key : Node} {ts : List Token} (before : Spells .test ts [key]) :
    Takes (entryAfter inner key) fun used v => Spells .entry (ts ++ used) [v] := by
  intro us rest v success
  rw [entryAfter, expect_bind_eq_ok (by decide)] at success
  obtain ⟨c, us, rfl, colon, success⟩ := success
  obtain ⟨y, used, mid, rfl, value, ends⟩ := sound.test.bind_eq_ok success
  cases ends
  exact ⟨c :: used, rfl, .entry before colon value⟩

omit n in
theorem entry_reads : Reads (entry inner) .entry := by
  intro ts rest v success
  obtain ⟨key, used, mid, rfl, spells, follows⟩ := sound.test.bind_eq_ok success
  obtain ⟨used', rfl, spells'⟩ := entryAfter_takes sound spells follows
  exact ⟨used ++ used', by simp, spells'⟩

/-- What is read in braces is a set, a dictionary or a comprehension over either. -/
theorem braced_reads : Reads (braced inner n) .atom := by
  intro ts rest v success
  rw [braced, expect_bind_eq_ok (by decide)] at success
  obtain ⟨a, ts, rfl, opening, success⟩ := success
  rw [isAt_ite_eq_ok (by decide)] at success
  obtain ⟨b, us, rfl, closing, success⟩ | ⟨_, success⟩ := success
  · cases success
    exact ⟨[a, b], rfl, .dict opening closing .noItem⟩
  obtain ⟨x, used, mid, rfl, spells, follows⟩ := sound.test.bind_eq_ok success
  rw [isAt_ite_eq_ok (by decide)] at follows
  obtain ⟨c, us, rfl, _, follows⟩ | ⟨_, follows⟩ := follows
  · obtain ⟨y, mid', more, follows'⟩ := bind_eq_ok.mp follows
    obtain ⟨used', split, pair⟩ := entryAfter_takes sound spells more
    rw [split]
    rw [isAt_ite_eq_ok (by decide)] at follows'
    obtain ⟨t, us, rfl, loops, follows'⟩ | ⟨_, follows'⟩ := follows'
    · obtain ⟨us', b, xs, split', closing, parts, loops, rfl⟩ :=
        comprehension_spells sound n loops follows'
      rw [split']
      exact ⟨a :: (used ++ used' ++ us' ++ [b]), by simp,
        .braceComprehension opening closing (.inr rfl) pair parts loops⟩
    · obtain ⟨⟨xs, b⟩, _, mid'', rfl, ⟨items, rfl, closing, listed⟩, ends⟩ :=
        (moreItems_takes (by decide) (entry_reads sound) n).bind_eq_ok follows'
      cases ends
      exact ⟨a :: (used ++ used' ++ items ++ [b]), by simp,
        .dict opening closing (.someItems pair listed.spells)⟩
  · rw [isAt_ite_eq_ok (by decide)] at follows
    obtain ⟨t, us, rfl, loops, follows⟩ | ⟨_, follows⟩ := follows
    · obtain ⟨us', b, xs, split, closing, parts, loops, rfl⟩ :=
        comprehension_spells sound n loops follows
      rw [split]
      exact ⟨a :: (used ++ us' ++ [b]), by simp,
        .braceComprehension opening closing (.inl rfl) spells parts loops⟩
    · obtain ⟨⟨xs, b⟩, _, mid', rfl, ⟨items, rfl, closing, listed⟩, ends⟩ :=
        (moreItems_takes (by decide) sound.test n).bind_eq_ok follows
      cases ends
      exact ⟨a :: (used ++ items ++ [b]), by simp, .set opening closing spells listed.spells⟩

theorem atom_reads : Reads (atom inner n) .atom := by
  intro ts rest v success
  rw [atom, peek_bind] at success
  generalize next : (ts.headD .ended).kind = kind at success
  split at success
  · obtain ⟨t, us, rfl, kind⟩ := exists_cons_of_kind next (by decide)
    cases success
    exact ⟨[t], rfl, .name (by rw [kind]; rfl)⟩
  · obtain ⟨t, us, rfl, kind⟩ := exists_cons_of_kind next (by decide)
    cases success
    exact ⟨[t], rfl, .name (by rw [kind]; rfl)⟩
  · obtain ⟨t, us, rfl, kind⟩ := exists_cons_of_kind next (by decide)
    cases success
    exact ⟨[t], rfl, .number kind⟩
  · exact strings_reads success
  · exact parenthesized_reads sound n success
  · exact list_reads sound n success
  · exact braced_reads sound n success
  · cases success

/-! ## Operands -/

omit n in
/-- A name is read as the name of an argument only in front of `=`. -/
theorem argument_reads : Reads (argument inner) .argument := by
  intro ts rest v success
  rw [argument, peek_bind] at success
  split at success
  · rename_i star
    have stars : (ts.headD .ended).kind = .symbol .star ∨
        (ts.headD .ended).kind = .symbol .starStar := by simpa using star
    obtain ⟨t, us, rfl, _⟩ : ∃ t us, ts = t :: us ∧ True := by
      obtain kind | kind := stars
      · obtain ⟨t, us, split, _⟩ := exists_cons_of_kind kind (by decide)
        exact ⟨t, us, split, trivial⟩
      · obtain ⟨t, us, split, _⟩ := exists_cons_of_kind kind (by decide)
        exact ⟨t, us, split, trivial⟩
    rw [bump_bind] at success
    obtain ⟨x, used, mid, rfl, spells, ends⟩ := sound.test.bind_eq_ok success
    cases ends
    exact ⟨t :: used, rfl, .starred stars spells⟩
  · obtain ⟨x, used, mid, rfl, spells, follows⟩ := sound.test.bind_eq_ok success
    rw [isAt_ite_eq_ok (by decide)] at follows
    obtain ⟨e, us, rfl, eq, follows⟩ | ⟨_, follows⟩ := follows
    · rw [bump_bind] at follows
      obtain ⟨y, used', mid', rfl, spells', ends⟩ := sound.test.bind_eq_ok follows
      cases ends
      exact ⟨used ++ e :: used', by simp, .keyword spells eq spells'⟩
    · cases follows
      exact ⟨used, rfl, .positional spells⟩

theorem call_takes {x : Node} {ts : List Token} (callee : Spells .operand ts [x]) :
    Takes (call inner n x) fun used v => Spells .operand (ts ++ used) [v] := by
  intro us rest v success
  rw [call, expect_bind_eq_ok (by decide)] at success
  obtain ⟨a, us, rfl, opening, success⟩ := success
  obtain ⟨⟨xs, b⟩, _, mid, rfl, args, ends⟩ :=
    (items_takes (by decide) (argument_reads sound) n).bind_eq_ok success
  cases ends
  obtain ⟨rfl, closing, rfl⟩ | ⟨y, ys, first, more, rfl, rfl, closing, spells, listed⟩ := args
  · exact ⟨[a, b], rfl, .call callee opening .noItem closing⟩
  · exact ⟨a :: (first ++ more ++ [b]), by simp,
      .call callee opening (.someItems spells listed.spells) closing⟩

omit sound n in
/-- A part that is left out when another token stands in its place. -/
theorem Takes.maybe_eq_ok {β : Type} {r : Reader Node} {p : Phrase} (each : Reads r p)
    {missing : Bool} {k : Option Node → Reader β} {ts rest : List Token} {b : β}
    (success : (if missing = true then pure none >>= k else some <$> r >>= k) ts =
      .ok (b, rest)) :
    ∃ xs used mid, ts = used ++ mid ∧ Spells (.maybe p) used xs ∧
      k xs.head? mid = .ok (b, rest) := by
  split at success
  · exact ⟨[], [], ts, rfl, .missing, success⟩
  · rw [map_eq_pure_bind, bind_assoc] at success
    obtain ⟨x, used, mid, split, spells, follows⟩ := each.bind_eq_ok success
    exact ⟨[x], used, mid, split, .present spells, follows⟩

omit n in
/-- From its first colon on, a slice is spelled by the tokens taken for it. -/
theorem sliceAfter_takes {x : Node} {a : Token} {ts us : List Token} {lower : List Node}
    (before : Spells .operand ts [x]) (opening : a.kind = .symbol .lbrack)
    (start : Spells (.maybe .expression) us lower) :
    Takes (sliceAfter inner x a lower.head?) fun used v =>
      Spells .operand (ts ++ a :: (us ++ used)) [v] := by
  intro vs rest v success
  rw [sliceAfter, isAt_ite_eq_ok (by decide)] at success
  obtain ⟨c, vs, rfl, colon, success⟩ | ⟨_, success⟩ := success
  · rw [bump_bind, isAt_bind, isAt_bind] at success
    obtain ⟨upper, used, mid, rfl, stop, follows⟩ := Takes.maybe_eq_ok sound.test success
    rw [isAt_ite_eq_ok (by decide)] at follows
    obtain ⟨d, mid, rfl, second, follows⟩ | ⟨_, follows⟩ := follows
    · rw [bump_bind, isAt_bind] at follows
      obtain ⟨step, used', mid', rfl, stride, ends⟩ := Takes.maybe_eq_ok sound.test follows
      rw [expect_bind_eq_ok (by decide)] at ends
      obtain ⟨b, mid', rfl, closing, ends⟩ := ends
      cases ends
      exact ⟨c :: (used ++ d :: (used' ++ [b])), by simp,
        .stepSlice before opening start colon stop second stride closing⟩
    · rw [expect_bind_eq_ok (by decide)] at follows
      obtain ⟨b, mid, rfl, closing, ends⟩ := follows
      cases ends
      exact ⟨c :: (used ++ [b]), by simp, .slice before opening start colon stop closing⟩
  · cases success

theorem subscript_takes {x : Node} {ts : List Token} (before : Spells .operand ts [x]) :
    Takes (subscript inner n x) fun used v => Spells .operand (ts ++ used) [v] := by
  intro us rest v success
  rw [subscript, expect_bind_eq_ok (by decide)] at success
  obtain ⟨a, us, rfl, opening, success⟩ := success
  rw [isAt_ite_eq_ok (by decide)] at success
  obtain ⟨c, us, rfl, _, success⟩ | ⟨_, success⟩ := success
  · obtain ⟨used, split, spells⟩ := sliceAfter_takes sound before opening .missing success
    rw [split]
    exact ⟨a :: used, rfl, spells⟩
  · obtain ⟨y, used, mid, rfl, place, follows⟩ :=
      (expression_reads sound.test n).bind_eq_ok success
    rw [isAt_ite_eq_ok (by decide)] at follows
    obtain ⟨b, mid, rfl, closing, follows⟩ | ⟨_, follows⟩ := follows
    · cases follows
      exact ⟨a :: (used ++ [b]), by simp, .index before opening place closing⟩
    · obtain ⟨used', rfl, spells⟩ :=
        sliceAfter_takes sound before opening (.present place) follows
      exact ⟨a :: (used ++ used'), by simp, spells⟩

/-- With the tokens taken for its suffixes an operand is spelled, by induction on the bound. -/
theorem suffixes_takes (m : Nat) :
    ∀ {x : Node} {ts : List Token}, Spells .operand ts [x] →
      Takes (suffixes inner n m x) fun used v => Spells .operand (ts ++ used) [v] := by
  induction m with
  | zero =>
      intro x ts _ us rest v success
      cases success
  | succ m ih =>
      intro x ts before us rest v success
      rw [suffixes, peek_bind] at success
      generalize next : (us.headD .ended).kind = kind at success
      split at success
      · obtain ⟨d, us, rfl, dot⟩ := exists_cons_of_kind next (by decide)
        rw [bump_bind, expectName_bind_eq_ok] at success
        obtain ⟨t, us, rfl, named, success⟩ := success
        obtain ⟨used, rfl, spells⟩ := ih (.dot before dot named) success
        exact ⟨d :: t :: used, rfl, by simpa using spells⟩
      · obtain ⟨y, used, mid, rfl, spells, follows⟩ :=
          (call_takes sound n before).bind_eq_ok success
        obtain ⟨used', rfl, spells'⟩ := ih spells follows
        exact ⟨used ++ used', by simp, by simpa using spells'⟩
      · obtain ⟨y, used, mid, rfl, spells, follows⟩ :=
          (subscript_takes sound n before).bind_eq_ok success
        obtain ⟨used', rfl, spells'⟩ := ih spells follows
        exact ⟨used ++ used', by simp, by simpa using spells'⟩
      · cases success
        exact ⟨[], rfl, by simpa using before⟩

theorem operandWith_reads : Reads (operandWith inner n) .operand := by
  intro ts rest v success
  obtain ⟨x, used, mid, rfl, spells, follows⟩ := (atom_reads sound n).bind_eq_ok success
  obtain ⟨used', rfl, spells'⟩ := suffixes_takes sound n n (.atom spells) follows
  exact ⟨used ++ used', by simp, spells'⟩

/-! ## Operators -/

theorem signed_reads (m : Nat) : Reads (signed inner n m) (.layer 0) := by
  induction m with
  | zero =>
      intro ts rest v success
      cases success
  | succ m ih =>
      intro ts rest v success
      rw [signed, peek_bind] at success
      split at success
      · rename_i sign
        obtain ⟨t, us, rfl, _⟩ := exists_cons_of_kind rfl (isSign_ne_eof sign)
        rw [bump_bind] at success
        obtain ⟨x, used, mid, rfl, spells, ends⟩ := ih.bind_eq_ok success
        cases ends
        exact ⟨t :: used, rfl, .sign sign spells⟩
      · obtain ⟨used, rfl, spells⟩ := operandWith_reads sound n success
        exact ⟨used, rfl, .operand spells⟩

omit sound n in
/-- Either no operator of the layer stands there, and nothing is taken, or its tokens are. -/
theorem operator?_eq_ok {layer : Nat} {ts rest : List Token} {found : Option (Position × String)}
    (success : operator? layer ts = .ok (found, rest)) :
    (found = none ∧ rest = ts) ∨
      ∃ os pos op, found = some (pos, op) ∧ ts = os ++ rest ∧
        OperatorTokens layer (rest.headD .ended).kind os pos op := by
  rw [operator?, peek_bind] at success
  split at success
  · rename_i known
    have known := eq_of_beq known
    obtain ⟨t, us, rfl, _⟩ := exists_cons_of_kind rfl (layer?_ne_eof known)
    split at success
    · rename_i first
      rw [peekSecond_bind] at success
      split at success
      · rename_i second
        obtain ⟨s, us, rfl, _⟩ := exists_cons_of_kind (eq_of_beq second) (by decide)
        cases success
        exact .inr ⟨[t, s], t.pos, "not in", rfl, rfl,
          .notIn known (eq_of_beq first) (eq_of_beq second)⟩
      · cases success
        exact .inl ⟨rfl, rfl⟩
    · rename_i other
      rw [bump_bind, isAt_bind] at success
      split at success
      · rename_i both
        obtain ⟨first, second⟩ := Bool.and_eq_true_iff.mp both
        obtain ⟨s, us, rfl, _⟩ := exists_cons_of_kind (eq_of_beq second) (by decide)
        cases success
        exact .inr ⟨[t, s], t.pos, "is not", rfl, rfl,
          .isNot known (eq_of_beq first) (eq_of_beq second)⟩
      · rename_i alone
        cases success
        refine .inr ⟨[t], t.pos, t.text, rfl, rfl, .single known ?_ ?_⟩
        · exact fun word => other (beq_of_eq word)
        · intro first second
          exact alone (Bool.and_eq_true_iff.mpr ⟨beq_of_eq first, beq_of_eq second⟩)
  · cases success
    exact .inl ⟨rfl, rfl⟩

omit sound n in
/-- Chains group to the left: what was read so far is the left operand of the
next operator. -/
theorem chain_takes {operand : Reader Node} {count : Nat} (each : Reads operand (.layer count))
    (m : Nat) :
    ∀ {x : Node} {ts : List Token}, Spells (.layer (count + 1)) ts [x] →
      Takes (chain operand (9 - count) m x) fun used v =>
        Spells (.layer (count + 1)) (ts ++ used) [v] := by
  induction m with
  | zero =>
      intro x ts _ us rest v success
      cases success
  | succ m ih =>
      intro x ts before us rest v success
      rw [chain, bind_eq_ok] at success
      obtain ⟨found, mid, operator, success⟩ := success
      obtain ⟨rfl, rfl⟩ | ⟨os, pos, op, rfl, rfl, tokens⟩ := operator?_eq_ok operator
      · cases success
        exact ⟨[], rfl, by simpa using before⟩
      · obtain ⟨y, used, mid', rfl, right, follows⟩ := each.bind_eq_ok success
        obtain ⟨t, used, rfl⟩ := List.exists_cons_of_ne_nil (right.ne_nil rfl)
        have tokens : OperatorTokens (9 - count) ((t :: used).headD .ended).kind os pos op := tokens
        obtain ⟨used', rfl, spells⟩ := ih (.binary before tokens right) follows
        exact ⟨os ++ (t :: used) ++ used', by simp, by simpa using spells⟩

theorem tower_reads (count : Nat) : Reads (tower inner n count) (.layer count) := by
  induction count with
  | zero => exact signed_reads sound n n
  | succ count ih =>
      intro ts rest v success
      obtain ⟨x, used, mid, rfl, spells, follows⟩ := ih.bind_eq_ok success
      obtain ⟨used', rfl, spells'⟩ := chain_takes ih n (.tighter spells) follows
      exact ⟨used ++ used', by simp, spells'⟩

theorem disjunctionWith_reads : Reads (disjunctionWith inner n) (.layer 9) :=
  tower_reads sound n 9

/-! ## Parameters and tests -/

omit n in
/-- A default value may be taken behind a parameter. -/
theorem defaultAfter_takes {types : Bool} {x : Node} {ts : List Token}
    (plain : Spells (.param types) ts [x])
    (valued : ∀ {e : Token} {us : List Token} {y : Node}, e.kind = .symbol .eq →
      Spells .test us [y] → Spells (.param types) (ts ++ e :: us) [.joined true x e.pos e.text y]) :
    Takes (defaultAfter inner x) fun used v => Spells (.param types) (ts ++ used) [v] := by
  intro us rest v success
  rw [defaultAfter, isAt_ite_eq_ok (by decide)] at success
  obtain ⟨e, us, rfl, eq, success⟩ | ⟨_, success⟩ := success
  · rw [bump_bind] at success
    obtain ⟨y, used, mid, rfl, value, ends⟩ := sound.test.bind_eq_ok success
    cases ends
    exact ⟨e :: used, rfl, valued eq value⟩
  · cases success
    exact ⟨[], rfl, by simpa using plain⟩

omit n in
/-- A parameter that starts with its name. -/
theorem named_takes (types : Bool) {t : Token} (named : isName t.kind = true) :
    Takes (isAt (.symbol .colon) >>= fun colon =>
      if (types && colon) = true then
        bump >>= fun colon => inner.test >>= fun type =>
          defaultAfter inner (.bare (.typed ⟨t.pos, t.text, .none⟩ colon.pos type))
      else defaultAfter inner (.ofName t))
      fun used v => Spells (.param types) (t :: used) [v] := by
  intro ts rest v success
  rw [isAt_bind] at success
  split at success
  · rename_i both
    obtain ⟨rfl, next⟩ := Bool.and_eq_true_iff.mp both
    obtain ⟨c, us, rfl, colon⟩ := exists_cons_of_kind (eq_of_beq next) (by decide)
    rw [bump_bind] at success
    obtain ⟨x, used, mid, rfl, type, follows⟩ := sound.test.bind_eq_ok success
    obtain ⟨used', rfl, spells⟩ := defaultAfter_takes sound (.typedParam named colon type)
      (fun eq value => .typedDefaultParam named colon type eq value) follows
    exact ⟨c :: (used ++ used'), by simp, spells⟩
  · have plain : Spells (.param types) [t] [.ofName t] := .plainParam named
    obtain ⟨used, rfl, spells⟩ := defaultAfter_takes sound plain
      (fun eq value => .defaultParam named eq value) success
    exact ⟨used, rfl, spells⟩

omit n in
/-- The tokens taken for a parameter spell it. -/
theorem param_reads (types : Bool) (close : Kind) :
    Reads (param inner types close) (.param types) := by
  intro ts rest v success
  rw [param, peek_bind] at success
  generalize next : (ts.headD .ended).kind = kind at success
  split at success
  · obtain ⟨s, us, rfl, star⟩ := exists_cons_of_kind next (by decide)
    rw [bump_bind, expectName_bind_eq_ok] at success
    obtain ⟨t, us, rfl, named, success⟩ := success
    cases success
    exact ⟨[s, t], rfl, .starStarParam star named⟩
  · obtain ⟨s, us, rfl, star⟩ := exists_cons_of_kind next (by decide)
    rw [bump_bind, peek_bind] at success
    split at success
    · rename_i named
      obtain ⟨t, us, rfl, _⟩ := exists_cons_of_kind rfl (isName_ne_eof named)
      cases success
      exact ⟨[s, t], rfl, .starParam star named⟩
    · cases success
      exact ⟨[s], rfl, .bareStar star⟩
  · obtain ⟨t, us, rfl, kind⟩ := exists_cons_of_kind next (by decide)
    have named : isName t.kind = true := by rw [kind]; rfl
    rw [bump_bind] at success
    obtain ⟨used, rfl, spells⟩ := named_takes sound types named success
    exact ⟨t :: used, rfl, spells⟩
  · obtain ⟨t, us, rfl, kind⟩ := exists_cons_of_kind next (by decide)
    have named : isName t.kind = true := by rw [kind]; rfl
    rw [bump_bind] at success
    obtain ⟨used, rfl, spells⟩ := named_takes sound types named success
    exact ⟨t :: used, rfl, spells⟩
  · cases success

omit n in
/-- The tokens taken for parameters spell them, by induction on the bound. -/
theorem params_takes (types : Bool) {close : Kind} (real : close ≠ .eof) (m : Nat) :
    Takes (params inner types close m) fun used xs => Spells (.params types) used xs := by
  induction m with
  | zero =>
      intro ts rest xs success
      cases success
  | succ m ih =>
      intro ts rest xs success
      rw [params, isAt_ite_eq_ok real] at success
      obtain ⟨t, us, rfl, _, success⟩ | ⟨_, success⟩ := success
      · cases success
        exact ⟨[], rfl, .noParam⟩
      obtain ⟨x, used, mid, rfl, spells, follows⟩ :=
        (param_reads sound types close).bind_eq_ok success
      rw [isAt_ite_eq_ok (by decide)] at follows
      obtain ⟨c, us, rfl, comma, follows⟩ | ⟨_, follows⟩ := follows
      · rw [bump_bind] at follows
        obtain ⟨xs, used', mid', rfl, spells', ends⟩ := ih.bind_eq_ok follows
        cases ends
        exact ⟨used ++ c :: used', by simp, .moreParams spells comma spells'⟩
      rw [isAt_ite_eq_ok real] at follows
      obtain ⟨t, us, rfl, _, follows⟩ | ⟨_, follows⟩ := follows
      · cases follows
        exact ⟨used, rfl, .lastParam spells⟩
      · cases follows

theorem lambda_reads : Reads (lambda inner n) .test := by
  intro ts rest v success
  rw [lambda, expect_bind_eq_ok (by decide)] at success
  obtain ⟨a, ts, rfl, opening, success⟩ := success
  obtain ⟨xs, used, mid, rfl, parts, follows⟩ :=
    (params_takes sound false (by decide) n).bind_eq_ok success
  rw [expect_bind_eq_ok (by decide)] at follows
  obtain ⟨c, mid, rfl, colon, follows⟩ := follows
  obtain ⟨y, used', mid', rfl, body, ends⟩ := sound.test.bind_eq_ok follows
  cases ends
  exact ⟨a :: (used ++ c :: used'), by simp, .lambda opening parts colon body⟩

theorem testWith_reads : Reads (testWith inner n) .test := by
  intro ts rest v success
  rw [testWith, isAt_ite_eq_ok (by decide)] at success
  obtain ⟨t, us, rfl, _, success⟩ | ⟨_, success⟩ := success
  · exact lambda_reads sound n success
  obtain ⟨x, used, mid, rfl, yes, follows⟩ := (disjunctionWith_reads sound n).bind_eq_ok success
  rw [isAt_ite_eq_ok (by decide)] at follows
  obtain ⟨a, mid, rfl, tests, follows⟩ | ⟨_, follows⟩ := follows
  · rw [bump_bind] at follows
    obtain ⟨y, used', mid', rfl, cond, more⟩ := (disjunctionWith_reads sound n).bind_eq_ok follows
    rw [expect_bind_eq_ok (by decide)] at more
    obtain ⟨b, mid', rfl, otherwise, more⟩ := more
    obtain ⟨z, used'', mid'', rfl, no, ends⟩ := sound.test.bind_eq_ok more
    cases ends
    exact ⟨used ++ a :: (used' ++ b :: used''), by simp, .conditional yes tests cond otherwise no⟩
  · cases follows
    exact ⟨used, rfl, .disjunction yes⟩

/-! ## The knot -/

omit sound n in
theorem test_succ (n : Nat) (ts : List Token) :
    test (n + 1) ts = testWith (innerAt n) (n + 1) ts := by
  rw [test, innerAt]

omit sound n in
theorem disjunction_succ (n : Nat) (ts : List Token) :
    disjunction (n + 1) ts = disjunctionWith (innerAt n) (n + 1) ts := by
  rw [disjunction, innerAt]

omit sound n in
theorem operand_succ (n : Nat) (ts : List Token) :
    operand (n + 1) ts = operandWith (innerAt n) (n + 1) ts := by
  rw [operand, innerAt]

omit sound n in
/-- The ways into the grammar are sound under every bound. -/
theorem innerAt_sound (n : Nat) : (innerAt n).Sound := by
  induction n with
  | zero =>
      constructor <;> (intro ts rest v success; cases success)
  | succ n ih =>
      constructor
      · intro ts rest v success
        exact testWith_reads ih (n + 1) ((test_succ n ts).symm.trans success)
      · intro ts rest v success
        exact disjunctionWith_reads ih (n + 1) ((disjunction_succ n ts).symm.trans success)
      · intro ts rest v success
        exact operandWith_reads ih (n + 1) ((operand_succ n ts).symm.trans success)

end Starlark.Reader
