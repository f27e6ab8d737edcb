import Starlark.Proofs.Grammar

/-!
# Running readers

What the small readers do to a list of tokens, as equations, and what the
success of a compound reader says about its parts. A reader that succeeds has
taken some tokens from the front; `Takes r P` says of what it took and of what
it made of it.
-/

set_option autoImplicit false

namespace Starlark.Reader

open Token (Kind)

variable {α β : Type} {ts rest : List Token}

/-! ## Equations -/

@[simp] theorem pure_run (a : α) (ts : List Token) : (pure a : Reader α) ts = .ok (a, ts) := rfl

@[simp] theorem unexpected_run (expected : List Kind) (ts : List Token) :
    (unexpected expected : Reader α) ts =
      .error ⟨(ts.headD .ended).pos, .unexpected (ts.headD .ended).kind expected⟩ := rfl

@[simp] theorem stuck_run (ts : List Token) :
    (stuck : Reader α) ts = .error ⟨(ts.headD .ended).pos, .unexpected (ts.headD .ended).kind []⟩ :=
  rfl

@[simp] theorem peek_bind (k : Token → Reader β) (ts : List Token) :
    (peek >>= k) ts = k (ts.headD .ended) ts := rfl

@[simp] theorem peekSecond_bind (k : Token → Reader β) (ts : List Token) :
    (peekSecond >>= k) ts = k ((ts.drop 1).headD .ended) ts := rfl

@[simp] theorem isAt_bind (kind : Kind) (k : Bool → Reader β) (ts : List Token) :
    (isAt kind >>= k) ts = k ((ts.headD .ended).kind == kind) ts := rfl

@[simp] theorem bump_bind (k : Token → Reader β) (t : Token) (ts : List Token) :
    (bump >>= k) (t :: ts) = k t ts := rfl

/-- After a reader that succeeds, the next one goes on where it stopped. -/
theorem bind_run {r : Reader α} {k : α → Reader β} {a : α} {mid : List Token}
    (first : r ts = .ok (a, mid)) : (r >>= k) ts = k a mid := by
  show StateT.bind r k ts = _
  simp only [StateT.bind, first]
  rfl

theorem bind_run_error {r : Reader α} {k : α → Reader β} {fault : Fault}
    (first : r ts = .error fault) : (r >>= k) ts = .error fault := by
  show StateT.bind r k ts = _
  simp only [StateT.bind, first]
  rfl

/-! ## Inversion -/

/-- Two readers in turn succeed when each does. -/
theorem bind_eq_ok {r : Reader α} {k : α → Reader β} {b : β} :
    (r >>= k) ts = .ok (b, rest) ↔ ∃ a mid, r ts = .ok (a, mid) ∧ k a mid = .ok (b, rest) := by
  constructor
  · intro success
    cases first : r ts with
    | error fault =>
        rw [bind_run_error first] at success
        cases success
    | ok read => exact ⟨read.1, read.2, rfl, (bind_run first).symm.trans success⟩
  · rintro ⟨a, mid, first, second⟩
    rw [bind_run first, second]

/-- A next token of a kind other than the end is really there. -/
theorem exists_cons_of_kind {kind : Kind} (next : (ts.headD .ended).kind = kind)
    (real : kind ≠ .eof) : ∃ t us, ts = t :: us ∧ t.kind = kind := by
  cases ts with
  | nil => exact absurd next.symm real
  | cons t ts => exact ⟨t, ts, rfl, next⟩

/-- Looking for a kind of token and acting on the answer. -/
theorem isAt_ite_eq_ok {kind : Kind} (real : kind ≠ .eof) {r s : Reader β} {b : β} :
    (isAt kind >>= fun found => if found = true then r else s) ts = .ok (b, rest) ↔
      (∃ t us, ts = t :: us ∧ t.kind = kind ∧ r (t :: us) = .ok (b, rest)) ∨
        ((ts.headD .ended).kind ≠ kind ∧ s ts = .ok (b, rest)) := by
  rw [isAt_bind]
  constructor
  · intro success
    split at success
    · rename_i found
      obtain ⟨t, us, rfl, next⟩ := exists_cons_of_kind (eq_of_beq found) real
      exact .inl ⟨t, us, rfl, next, success⟩
    · rename_i other
      exact .inr ⟨fun next => other (beq_of_eq next), success⟩
  · rintro (⟨t, us, rfl, rfl, success⟩ | ⟨other, success⟩)
    · simpa using success
    · rwa [if_neg (fun found => other (eq_of_beq found))]

/-- Insisting on a kind of token. -/
theorem expect_bind_eq_ok {kind : Kind} (real : kind ≠ .eof) {k : Token → Reader β} {b : β} :
    (expect kind >>= k) ts = .ok (b, rest) ↔
      ∃ t us, ts = t :: us ∧ t.kind = kind ∧ k t us = .ok (b, rest) := by
  rw [bind_eq_ok]
  constructor
  · rintro ⟨t, mid, expected, success⟩
    rw [expect, isAt_ite_eq_ok real] at expected
    obtain ⟨t, us, rfl, same, ends⟩ | ⟨_, fails⟩ := expected
    · cases ends
      exact ⟨t, us, rfl, same, success⟩
    · cases fails
  · rintro ⟨t, us, rfl, rfl, success⟩
    exact ⟨t, us, (isAt_ite_eq_ok real).mpr (.inl ⟨t, us, rfl, rfl, rfl⟩), success⟩

theorem isName_ne_eof {kind : Kind} (named : isName kind = true) : kind ≠ .eof := by
  rintro rfl
  cases named

/-- Insisting on a name. -/
theorem expectName_bind_eq_ok {k : Token → Reader β} {b : β} :
    (expectName >>= k) ts = .ok (b, rest) ↔
      ∃ t us, ts = t :: us ∧ isName t.kind = true ∧ k t us = .ok (b, rest) := by
  rw [bind_eq_ok]
  constructor
  · rintro ⟨t, mid, expected, success⟩
    rw [expectName, peek_bind] at expected
    split at expected
    · rename_i named
      obtain ⟨s, us, rfl, next⟩ := exists_cons_of_kind rfl (isName_ne_eof named)
      cases expected
      exact ⟨s, us, rfl, named, success⟩
    · cases expected
  · rintro ⟨t, us, rfl, named, success⟩
    refine ⟨t, us, ?_, success⟩
    rw [expectName, peek_bind, List.headD_cons, if_pos named]
    rfl

/-! ## What a reader takes -/

/-- Whenever `r` succeeds, the tokens it took and the value it gives are
related by `P`. -/
def Takes (r : Reader α) (P : List Token → α → Prop) : Prop :=
  ∀ ⦃ts rest : List Token⦄ ⦃v : α⦄, r ts = .ok (v, rest) →
    ∃ used, ts = used ++ rest ∧ P used v

/-- What the first of two readers took stands in front of what the second one
sees. -/
theorem Takes.bind_eq_ok {r : Reader α} {P : List Token → α → Prop} (each : Takes r P)
    {k : α → Reader β} {b : β} (success : (r >>= k) ts = .ok (b, rest)) :
    ∃ a used mid, ts = used ++ mid ∧ P used a ∧ k a mid = .ok (b, rest) := by
  obtain ⟨a, mid, first, second⟩ := Reader.bind_eq_ok.mp success
  obtain ⟨used, split, holds⟩ := each first
  exact ⟨a, used, mid, split, holds, second⟩

/-- Commas and items, as `moreItems` takes them before the closing token. -/
inductive Listed (P : List Token → α → Prop) : List Token → List α → Prop
  | none : Listed P [] []
  | comma {c : Token} (comma : c.kind = .symbol .comma) : Listed P [c] []
  | item {c : Token} {used more : List Token} {x : α} {xs : List α}
      (comma : c.kind = .symbol .comma) (first : P used x) (rest : Listed P more xs) :
      Listed P (c :: (used ++ more)) (x :: xs)

/-- Items with commas between them, up to the closing token. -/
theorem moreItems_takes {close : Kind} {item : Reader α} {P : List Token → α → Prop}
    (real : close ≠ .eof) (each : Takes item P) (n : Nat) :
    Takes (moreItems close item n) fun used v =>
      ∃ items, used = items ++ [v.2] ∧ v.2.kind = close ∧ Listed P items v.1 := by
  induction n with
  | zero =>
      intro ts rest v success
      cases success
  | succ n ih =>
      intro ts rest v success
      rw [moreItems, isAt_ite_eq_ok real] at success
      obtain ⟨t, us, rfl, closes, success⟩ | ⟨_, success⟩ := success
      · cases success
        exact ⟨[t], rfl, [], rfl, closes, .none⟩
      rw [isAt_ite_eq_ok (by decide)] at success
      obtain ⟨c, us, rfl, comma, success⟩ | ⟨_, success⟩ := success
      · rw [bump_bind, isAt_ite_eq_ok real] at success
        obtain ⟨t, us, rfl, closes, success⟩ | ⟨_, success⟩ := success
        · cases success
          exact ⟨[c, t], rfl, [c], rfl, closes, .comma comma⟩
        · obtain ⟨x, used, mid, rfl, holds, follows⟩ := each.bind_eq_ok success
          obtain ⟨⟨xs, last⟩, _, mid', rfl, ⟨items, rfl, closes, listed⟩, ends⟩ :=
            ih.bind_eq_ok follows
          cases ends
          exact ⟨c :: (used ++ (items ++ [last])), by simp, c :: (used ++ items), by simp, closes,
            .item comma holds listed⟩
      · cases success

/-- Either nothing stands before the closing token, or a first item and more
of them. -/
theorem items_takes {close : Kind} {item : Reader α} {P : List Token → α → Prop}
    (real : close ≠ .eof) (each : Takes item P) (n : Nat) :
    Takes (items close item n) fun used v =>
      (used = [v.2] ∧ v.2.kind = close ∧ v.1 = []) ∨
      ∃ x xs first more, v.1 = x :: xs ∧ used = first ++ more ++ [v.2] ∧ v.2.kind = close ∧
        P first x ∧ Listed P more xs := by
  intro ts rest v success
  rw [items, isAt_ite_eq_ok real] at success
  obtain ⟨t, us, rfl, closes, success⟩ | ⟨_, success⟩ := success
  · cases success
    exact ⟨[t], rfl, .inl ⟨rfl, closes, rfl⟩⟩
  · obtain ⟨x, used, mid, rfl, holds, follows⟩ := each.bind_eq_ok success
    obtain ⟨⟨xs, last⟩, _, mid', rfl, ⟨items, rfl, closes, listed⟩, ends⟩ :=
      (moreItems_takes real each n).bind_eq_ok follows
    cases ends
    exact ⟨used ++ items ++ [last], by simp,
      .inr ⟨x, xs, used, items, rfl, rfl, closes, holds, listed⟩⟩

end Starlark.Reader
