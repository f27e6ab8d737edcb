import Starlark.Proofs.Reader.Complete
import Starlark.Proofs.Reader.Rounds

/-!
# Readers come to an end

The readers are bounded by a number: it is the bound on the nesting of brackets
and of blocks, and on the rounds of each repetition. On tokens that end once,
as those of a scanned source do, this number is never met. A reader that goes
into brackets has taken the bracket, and a round that is not the last has taken
a token, so that a number as large as the number of tokens will do. A larger
one makes no difference, and whoever refuses the tokens names what could have
stood there, which a reader that has met its bound does not.

A reader that fails blames one of the tokens it was given: the token stands
where it cannot, or it is a misspelt string (`Blames`). The token that is
looked at beyond the last one is never blamed, since no reader takes the end
of the source before the whole file has been read.

`Steady k strict r r'` says what this comes to for one reader under two bounds,
`r` and `r'`, in front of at most `k` tokens. What is left behind a success
always holds the end of the source, and it is shorter where `strict` says so.
As in the other theories of the readers, the rules follow the ways in which
readers are put together, and each reader is walked through once.
-/

set_option autoImplicit false

namespace Starlark.Reader

open Token (Kind)

/-! ## What is left, and what is refused -/

/-- Tokens of which the last one, and no other, is the end of the source. -/
inductive EndsOnce : List Token → Prop
  | last {t : Token} (stop : t.kind = .eof) : EndsOnce [t]
  | cons {t : Token} {ts : List Token} (real : t.kind ≠ .eof) (rest : EndsOnce ts) :
      EndsOnce (t :: ts)

/-- A fault that says what it misses. A reader that has met its bound gives none. -/
def IsPlain (fault : Fault) : Prop := ∀ found, fault.cause ≠ .unexpected found []

/-- A fault that is found in some tokens. -/
inductive Blames (ts : List Token) : Fault → Prop
  | unexpected {t : Token} (member : t ∈ ts) (expected : List Kind) :
      Blames ts ⟨t.pos, .unexpected t.kind expected⟩
  | literal {t : Token} {fault : Fault} (member : t ∈ ts) (kind : t.kind = .string)
      (misspelt : StringLit.ofToken t = .error fault) : Blames ts fault

/-- What is left of tokens that end once. -/
structure Leaves (strict : Bool) (ts rest : List Token) : Prop where
  /-- The end of the source has not been taken. -/
  ends : EndsOnce rest
  /-- Tokens have been taken from the front. -/
  behind : rest <:+ ts
  /-- Some have, where `strict` is set. -/
  taken : strict = true → rest.length < ts.length

/-- What comes of two readers in front of some tokens: the first one takes tokens as it should or
blames one of them, and if there are at most `k` of them, the same comes of the second one. -/
structure Matches {α : Type} (k : Nat) (strict : α → Bool) (ts : List Token)
    (one two : Except Fault (α × List Token)) : Prop where
  leaves : ∀ a rest, one = .ok (a, rest) → Leaves (strict a) ts rest
  blames : ∀ fault, one = .error fault → Blames ts fault
  agrees : ts.length ≤ k → one = two
  plain : ts.length ≤ k → ∀ fault, one = .error fault → IsPlain fault

/-- The two readers match in front of all tokens that end once. -/
def Steady {α : Type} (k : Nat) (strict : α → Bool) (r r' : Reader α) : Prop :=
  ∀ ts, EndsOnce ts → Matches k strict ts (r ts) (r' ts)

/-- They do while the next token is of a kind. -/
def SteadyAt {α : Type} (k : Nat) (kind : Kind) (strict : α → Bool) (r r' : Reader α) : Prop :=
  ∀ ts, EndsOnce ts → (ts.headD .ended).kind = kind → Matches k strict ts (r ts) (r' ts)

/-- They do while the next token is this one. -/
def SteadyFrom {α : Type} (k : Nat) (t : Token) (strict : α → Bool) (r r' : Reader α) : Prop :=
  ∀ ts, EndsOnce (t :: ts) → Matches k strict (t :: ts) (r (t :: ts)) (r' (t :: ts))

/-- Nothing has to be taken. -/
abbrev idle {α : Type} : α → Bool := fun _ => false

/-- A token has to be taken. -/
abbrev busy {α : Type} : α → Bool := fun _ => true

section Rules

variable {α β : Type} {k j : Nat} {kind : Kind} {strict : α → Bool} {r r' : Reader α}
  {ts rest : List Token}

namespace EndsOnce

theorem length_pos (ends : EndsOnce ts) : 0 < ts.length := by
  cases ends <;> exact Nat.succ_pos _

theorem headD_mem (ends : EndsOnce ts) : ts.headD .ended ∈ ts := by
  cases ends <;> exact List.mem_cons_self

theorem tail {t : Token} (ends : EndsOnce (t :: ts)) (real : t.kind ≠ .eof) : EndsOnce ts := by
  cases ends with
  | last stop => exact absurd stop real
  | cons _ rest => exact rest

/-- What is left of tokens that end once ends once, if the end was not dropped. -/
theorem dropWhile {p : Token → Bool} (stops : ∀ t, t.kind = .eof → p t = false)
    (ends : EndsOnce ts) : EndsOnce (ts.dropWhile p) := by
  induction ends with
  | last stop =>
      rw [List.dropWhile_cons_of_neg (by simp [stops _ stop])]
      exact .last stop
  | @cons t ts real rest ih =>
      rw [List.dropWhile_cons]
      split
      · exact ih
      · exact .cons real rest

end EndsOnce

/-- A refusal that names a kind it expected is plain. -/
theorem isPlain_unexpected {p : Position} {found first : Kind} {expected : List Kind} :
    IsPlain ⟨p, .unexpected found (first :: expected)⟩ := by
  intro other same
  injection same with _ none
  cases none

theorem isPlain_of_ofToken {t : Token} {fault : Fault}
    (fails : StringLit.ofToken t = .error fault) : IsPlain fault := by
  unfold StringLit.ofToken at fails
  split at fails
  · cases fails
  · cases fails
    exact fun _ => nofun

theorem Blames.mono {fault : Fault} (blames : Blames rest fault) (inside : rest ⊆ ts) :
    Blames ts fault := by
  cases blames with
  | unexpected member expected => exact .unexpected (inside member) expected
  | literal member kind misspelt => exact .literal (inside member) kind misspelt

namespace Leaves

theorem refl (ends : EndsOnce ts) : Leaves false ts ts := ⟨ends, List.suffix_refl ts, nofun⟩

/-- What is left of what is left is left. -/
theorem trans {first second all : Bool} {mid : List Token} (one : Leaves first ts mid)
    (two : Leaves second mid rest) (some' : all = true → first = true ∨ second = true) :
    Leaves all ts rest := by
  refine ⟨two.ends, two.behind.trans one.behind, fun strict => ?_⟩
  have less := one.behind.length_le
  have less' := two.behind.length_le
  rcases some' strict with strict | strict
  · exact Nat.lt_of_le_of_lt less' (one.taken strict)
  · exact Nat.lt_of_lt_of_le (two.taken strict) less

theorem cons {strict : Bool} {t : Token} (ends : EndsOnce (t :: ts)) (real : t.kind ≠ .eof) :
    Leaves strict (t :: ts) ts :=
  ⟨ends.tail real, List.suffix_cons t ts, fun _ => Nat.lt_succ_self _⟩

end Leaves

/-! ## Rules -/

theorem Steady.at (steady : Steady k strict r r') : SteadyAt k kind strict r r' :=
  fun ts ends _ => steady ts ends

theorem Matches.mono {strict' : α → Bool} {one two : Except Fault (α × List Token)}
    (both : Matches k strict ts one two) (less : j ≤ k)
    (weaker : ∀ a, strict' a = true → strict a = true) : Matches j strict' ts one two where
  leaves a rest success :=
    have left := both.leaves a rest success
    ⟨left.ends, left.behind, fun must => left.taken (weaker a must)⟩
  blames := both.blames
  agrees short := both.agrees (short.trans less)
  plain short := both.plain (short.trans less)

theorem Steady.mono (steady : Steady k strict r r') (less : j ≤ k) : Steady j strict r r' :=
  fun ts ends => (steady ts ends).mono less fun _ => id

/-- A token fewer. -/
theorem Steady.down (steady : Steady k strict r r') : Steady (k - 1) strict r r' :=
  steady.mono (Nat.sub_le k 1)

/-- In front of no tokens at all there is nothing to compare. -/
theorem Steady.zero {r'' : Reader α} (steady : Steady k strict r r') : Steady 0 strict r r'' := by
  intro ts ends
  have some' := ends.length_pos
  have one := steady ts ends
  exact ⟨one.leaves, one.blames, fun none => by omega, fun none => by omega⟩

theorem Steady.stuck : Steady 0 strict Reader.stuck r' := by
  intro ts ends
  have some' := ends.length_pos
  refine ⟨nofun, fun fault fails => ?_, fun none => by omega, fun none => by omega⟩
  cases fails
  exact .unexpected ends.headD_mem []

theorem Steady.pure {a : α} (none : strict a = false) : Steady k strict (pure a) (pure a) := by
  intro ts ends
  refine ⟨fun b rest success => ?_, nofun, fun _ => rfl, nofun⟩
  cases success
  rw [none]
  exact .refl ends

theorem Steady.unexpected {first : Kind} {expected : List Kind} :
    Steady k strict (unexpected (first :: expected)) (unexpected (first :: expected)) := by
  refine fun ts ends => ⟨nofun, fun fault fails => ?_, fun _ => rfl, fun _ fault fails => ?_⟩
  · cases fails
    exact .unexpected ends.headD_mem _
  · cases fails
    exact isPlain_unexpected

/-- One reader after another. Behind a first one that has taken a token, the second one has fewer
of them in front of it, and need not take one itself. -/
theorem Matches.bind {strict' : β → Bool} {f f' : α → Reader β}
    (first : Matches k strict ts (r ts) (r' ts))
    (second : ∀ a mid, r ts = .ok (a, mid) → EndsOnce mid →
      Matches (if strict a then k - 1 else k) (fun b => strict' b && !strict a) mid
        (f a mid) (f' a mid)) :
    Matches k strict' ts ((r >>= f) ts) ((r' >>= f') ts) := by
  have same (short : ts.length ≤ k) : r' ts = r ts := (first.agrees short).symm
  cases result : r ts with
  | error fault =>
      have fails : (r >>= f) ts = .error fault := bind_run_error result
      refine ⟨fun b rest success => ?_, fun other fails' => ?_, fun short => ?_,
        fun short other fails' => ?_⟩
      · rw [fails] at success
        cases success
      · rw [fails] at fails'
        cases fails'
        exact first.blames fault result
      · rw [fails, bind_run_error ((same short).trans result)]
      · rw [fails] at fails'
        cases fails'
        exact first.plain short fault result
  | ok read =>
      obtain ⟨a, mid⟩ := read
      have left := first.leaves a mid result
      have more := second a mid result left.ends
      have goes : (r >>= f) ts = f a mid := bind_run result
      have short' (short : ts.length ≤ k) : mid.length ≤ if strict a then k - 1 else k := by
        split
        next strict => exact Nat.le_sub_one_of_lt (Nat.lt_of_lt_of_le (left.taken strict) short)
        next => exact left.behind.length_le.trans short
      refine ⟨fun b rest success => ?_, fun fault fails => ?_, fun short => ?_, fun short => ?_⟩
      · rw [goes] at success
        refine left.trans (more.leaves b rest success) fun must => ?_
        cases strict a with
        | true => exact .inl rfl
        | false => exact .inr (by rw [must]; rfl)
      · rw [goes] at fails
        exact (more.blames fault fails).mono left.behind.subset
      · rw [goes, bind_run ((same short).trans result)]
        exact more.agrees (short' short)
      · rw [goes]
        exact more.plain (short' short)

section Sequence

variable {strict' : β → Bool} {f f' : α → Reader β}

theorem Steady.bind (first : Steady k strict r r') (second : ∀ a, Steady k strict' (f a) (f' a)) :
    Steady k strict' (r >>= f) (r' >>= f') := by
  refine fun ts ends => (first ts ends).bind fun a mid _ ends => (second a mid ends).mono ?_ ?_
  · split <;> omega
  · exact fun b must => (Bool.and_eq_true_iff.mp must).1

/-- Behind a reader that takes a token there is a token fewer. -/
theorem Steady.enter (first : Steady k busy r r')
    (second : ∀ a, Steady (k - 1) idle (f a) (f' a)) : Steady k strict' (r >>= f) (r' >>= f') := by
  refine fun ts ends => (first ts ends).bind fun a mid _ ends => (second a mid ends).mono le_rfl ?_
  exact fun b must => by simp at must

theorem Steady.map (g : α → β) (steady : Steady k busy r r') :
    Steady k busy (g <$> r) (g <$> r') := by
  rw [map_eq_pure_bind, map_eq_pure_bind]
  exact .enter steady fun _ => .pure rfl

/-- A round and those behind it. -/
theorem Steady.next {σ γ : Type} {last : Bool} {round round' : Reader (Round σ γ)}
    {loop loop' : σ → Reader γ} (first : Steady k (Round.strict last) round round')
    (others : ∀ s, Steady (k - 1) idle (loop s) (loop' s)) :
    Steady k (fun _ => last) (round >>= Round.next loop) (round' >>= Round.next loop') := by
  refine fun ts ends => (first ts ends).bind fun a mid _ ends => ?_
  cases a with
  | exit value => exact Steady.pure (by simp [Round.strict]) mid ends
  | again state add =>
      have behind : Steady (k - 1) idle ((Round.again state add).next loop)
          ((Round.again state add).next loop') := by
        rw [Round.next_again, Round.next_again]
        exact (others state).bind fun _ => .pure rfl
      exact (behind mid ends).mono le_rfl fun _ must => by simp [Round.strict] at must

/-- A repetition with as many rounds as there are tokens. -/
theorem Steady.loop {σ γ : Type} {last : Bool} {loop loop' : Nat → σ → Reader γ}
    {round round' : σ → Reader (Round σ γ)} (one : Loops loop fun _ => round)
    (two : Loops loop' fun _ => round')
    (each : ∀ s, Steady k (Round.strict last) (round s) (round' s)) {n n' : Nat} (enough : k ≤ n)
    (enough' : k ≤ n') (s : σ) : Steady k (fun _ => last) (loop n s) (loop' n' s) := by
  induction n generalizing k n' s with
  | zero =>
      obtain rfl : k = 0 := Nat.le_zero.mp enough
      rw [one.zero]
      exact .stuck
  | succ n ih =>
      have others (m : Nat) (less : k - 1 ≤ n) (less' : k - 1 ≤ m) (s : σ) :
          Steady (k - 1) idle (loop n s) (loop' m s) := fun ts ends =>
        (ih (fun s => (each s).down) less less' s ts ends).mono le_rfl nofun
      cases n' with
      | zero =>
          have none : k = 0 := Nat.le_zero.mp enough'
          have whole := (each s).next (others 0 (by omega) (by omega))
          rw [one.succ]
          exact none ▸ whole.zero
      | succ m =>
          rw [one.succ, two.succ]
          exact (each s).next (others m (by omega) (by omega))

end Sequence

/-! ### Single tokens -/

section Tokens

variable {strict : β → Bool} {f f' : Token → Reader β} {r r' s s' : Reader β}

/-- A token other than the end may be taken. -/
theorem SteadyAt.bump (real : kind ≠ .eof)
    (next : ∀ t, t.kind = kind → Steady (k - 1) idle (f t) (f' t)) :
    SteadyAt k kind strict (Reader.bump >>= f) (Reader.bump >>= f') := by
  intro ts ends head
  obtain ⟨t, us, rfl, same⟩ := exists_cons_of_kind head real
  have taken : Matches k busy (t :: us) (Reader.bump (t :: us)) (Reader.bump (t :: us)) := by
    refine ⟨fun a rest success => ?_, nofun, fun _ => rfl, nofun⟩
    cases success
    exact .cons ends (same ▸ real)
  refine taken.bind fun a mid success ends => ?_
  cases success
  exact (next t same us ends).mono le_rfl fun _ must => by simp at must

/-- The token that is looked at is the next one. -/
theorem Steady.look (each : ∀ t, SteadyFrom k t strict (f t) (f' t)) :
    Steady k strict (Reader.peek >>= f) (Reader.peek >>= f') := by
  intro ts ends
  obtain ⟨t, us, rfl⟩ := List.exists_cons_of_ne_nil (List.ne_nil_of_mem ends.headD_mem)
  exact each t us ends

/-- In most cases its kind is all that matters. -/
theorem Steady.peek (each : ∀ t, SteadyAt k t.kind strict (f t) (f' t)) :
    Steady k strict (Reader.peek >>= f) (Reader.peek >>= f') :=
  fun ts ends => each _ ts ends rfl

/-- Looking for a token of a kind and acting on the answer. -/
theorem Steady.isAt (found : SteadyAt k kind strict r r') (other : Steady k strict s s') :
    Steady k strict (Reader.isAt kind >>= fun found => if found = true then r else s)
      (Reader.isAt kind >>= fun found => if found = true then r' else s') := by
  intro ts ends
  rw [Reader.isAt_bind, Reader.isAt_bind]
  split
  next same => exact found ts ends (eq_of_beq same)
  next => exact other ts ends

/-- The same, for two kinds that are treated alike. -/
theorem Steady.isAt_or {kind' : Kind} (first : SteadyAt k kind strict r r')
    (second : SteadyAt k kind' strict r r') (neither : Steady k strict s s') :
    Steady k strict
      (Reader.isAt kind >>= fun x => Reader.isAt kind' >>= fun y =>
        if (x || y) = true then r else s)
      (Reader.isAt kind >>= fun x => Reader.isAt kind' >>= fun y =>
        if (x || y) = true then r' else s') := by
  intro ts ends
  simp only [Reader.isAt_bind]
  split
  next same =>
    rcases Bool.or_eq_true_iff.mp same with same | same
    · exact first ts ends (eq_of_beq same)
    · exact second ts ends (eq_of_beq same)
  next => exact neither ts ends

/-- The same, under a condition. -/
theorem Steady.and_isAt {holds : Bool} (found : SteadyAt k kind strict r r')
    (other : Steady k strict s s') :
    Steady k strict (Reader.isAt kind >>= fun x => if (holds && x) = true then r else s)
      (Reader.isAt kind >>= fun x => if (holds && x) = true then r' else s') := by
  intro ts ends
  simp only [Reader.isAt_bind]
  split
  next same => exact found ts ends (eq_of_beq (Bool.and_eq_true_iff.mp same).2)
  next => exact other ts ends

theorem expect_bind (kind : Kind) (f : Token → Reader β) : Reader.expect kind >>= f =
    Reader.isAt kind >>= fun found =>
      if found = true then Reader.bump >>= f else Reader.unexpected [kind] := by
  simp only [Reader.expect, bind_assoc, ite_bind, unexpected_bind]

theorem Steady.expect (real : kind ≠ .eof)
    (next : ∀ t, t.kind = kind → Steady (k - 1) idle (f t) (f' t)) :
    Steady k strict (Reader.expect kind >>= f) (Reader.expect kind >>= f') := by
  rw [expect_bind, expect_bind]
  exact .isAt (.bump real next) .unexpected

theorem Steady.expectName (next : ∀ t, Steady (k - 1) idle (f t) (f' t)) :
    Steady k strict (Reader.expectName >>= f) (Reader.expectName >>= f') := by
  have whole (g : Token → Reader β) : Reader.expectName >>= g =
      Reader.peek >>= fun t =>
        if isName t.kind = true then Reader.bump >>= g else Reader.unexpected [.ident] := by
    simp only [Reader.expectName, bind_assoc, ite_bind, unexpected_bind]
  rw [whole, whole]
  refine .peek fun t => ?_
  split
  next name => exact .bump (isName_ne_eof name) fun t _ => next t
  next => exact Steady.unexpected.at

/-- A string that has just been taken may be misspelt, and is blamed for it. -/
theorem Matches.literal {t : Token} {us : List Token} (ends : EndsOnce (t :: us))
    (kind : t.kind = .string) {e : Except Fault α}
    (faults : ∀ fault, e = .error fault → StringLit.ofToken t = .error fault) {g g' : α → Reader β}
    (next : ∀ a, Steady (k - 1) idle (g a) (g' a)) :
    Matches k strict (t :: us) (((liftM e : Reader α) >>= g) us)
      (((liftM e : Reader α) >>= g') us) := by
  cases e with
  | error fault =>
      have misspelt := faults fault rfl
      refine ⟨nofun, fun other fails => ?_, fun _ => rfl, fun _ other fails => ?_⟩
      · cases fails
        exact .literal List.mem_cons_self kind misspelt
      · cases fails
        exact isPlain_of_ofToken misspelt
  | ok a =>
      have left : Leaves true (t :: us) us := .cons ends (kind ▸ nofun)
      have rest := next a us left.ends
      refine ⟨fun b mid success => ?_, fun fault fails => ?_, fun short => ?_, fun short => ?_⟩
      · exact left.trans (rest.leaves b mid success) fun _ => .inl rfl
      · exact (rest.blames fault fails).mono left.behind.subset
      · exact rest.agrees (Nat.le_sub_one_of_lt short)
      · exact rest.plain (Nat.le_sub_one_of_lt short)

/-- A string has to stand here, and is read. -/
theorem Steady.string {e : Token → Except Fault α}
    (faults : ∀ t fault, e t = .error fault → StringLit.ofToken t = .error fault)
    {g g' : Token → α → Reader β} (next : ∀ t a, Steady (k - 1) idle (g t a) (g' t a)) :
    Steady k strict (Reader.expect .string >>= fun t => (liftM (e t) : Reader α) >>= g t)
      (Reader.expect .string >>= fun t => (liftM (e t) : Reader α) >>= g' t) := by
  rw [expect_bind, expect_bind]
  refine .isAt (fun ts ends head => ?_) .unexpected
  obtain ⟨t, us, rfl, same⟩ := exists_cons_of_kind head nofun
  exact .literal ends same (faults t) (next t)

end Tokens

end Rules

/-! ## Items -/

section Items

variable {α : Type} {k n n' : Nat} (enough : k ≤ n) (enough' : k ≤ n')

theorem steady_itemRound {close : Kind} {item item' : Reader α} (real : close ≠ .eof)
    (each : Steady k busy item item') :
    Steady k (Round.strict false) (itemRound close item) (itemRound close item') := by
  refine .isAt (.bump real fun _ _ => .pure rfl) ?_
  refine .isAt (.bump nofun fun _ _ => ?_) .unexpected
  exact .isAt (.bump real fun _ _ => .pure rfl) (.bind each.down fun _ => .pure rfl)

theorem steady_testRound {test test' : Reader Node} (each : Steady k busy test test') :
    Steady k (Round.strict false) (testRound test) (testRound test') := by
  refine .isAt (.bump nofun fun _ _ => .peek fun t => ?_) (.pure rfl)
  split
  · exact (Steady.bind each.down fun _ => .pure rfl).at
  · exact (Steady.pure rfl).at

theorem steady_targetRound {operand operand' : Reader Node}
    (each : Steady k busy operand operand') :
    Steady k (Round.strict false) (targetRound operand) (targetRound operand') := by
  refine .isAt (.bump nofun fun _ _ => .isAt (Steady.pure rfl).at ?_) (.pure rfl)
  exact .bind each.down fun _ => .pure rfl

include enough enough'

theorem steady_moreItems {close : Kind} {item item' : Reader α} (real : close ≠ .eof)
    (each : Steady k busy item item') :
    Steady k idle (moreItems close item n) (moreItems close item' n') :=
  .loop (loops_moreItems close item) (loops_moreItems close item')
    (fun _ => steady_itemRound real each) enough enough' ()

theorem steady_items {close : Kind} {item item' : Reader α} (real : close ≠ .eof)
    (each : Steady k busy item item') :
    Steady k busy (items close item n) (items close item' n') := by
  refine .isAt (.bump real fun _ _ => .pure rfl) (.enter each fun _ => ?_)
  exact .bind (steady_moreItems enough enough' real each).down fun _ => .pure rfl

theorem steady_moreTests {test test' : Reader Node} (each : Steady k busy test test') :
    Steady k idle (moreTests test n) (moreTests test' n') :=
  .loop (loops_moreTests test) (loops_moreTests test') (fun _ => steady_testRound each) enough
    enough' ()

theorem steady_expression {test test' : Reader Node} (each : Steady k busy test test') :
    Steady k busy (expression test n) (expression test' n') := by
  refine .enter each fun _ => .isAt (Steady.at ?_) (.pure rfl)
  exact .bind (steady_moreTests enough enough' each).down fun _ => .pure rfl

theorem steady_moreTargets {operand operand' : Reader Node}
    (each : Steady k busy operand operand') :
    Steady k idle (moreTargets operand n) (moreTargets operand' n') :=
  .loop (loops_moreTargets operand) (loops_moreTargets operand')
    (fun _ => steady_targetRound each) enough enough' ()

theorem steady_targets {operand operand' : Reader Node} (each : Steady k busy operand operand') :
    Steady k busy (targets operand n) (targets operand' n') := by
  refine .enter each fun _ => .isAt (Steady.at ?_) (.pure rfl)
  exact .bind (steady_moreTargets enough enough' each).down fun _ => .pure rfl

end Items

/-- The strings at the front are all taken, and there is one at least. -/
theorem steady_strings {k : Nat} : SteadyAt k .string busy strings strings := by
  intro ts ends head
  obtain ⟨t, us, rfl, kind⟩ := exists_cons_of_kind head nofun
  have here : (t.kind == Kind.string) = true := beq_of_eq kind
  have left : Leaves true (t :: us) (us.dropWhile (·.kind == .string)) := by
    have rest : EndsOnce us := ends.tail (kind ▸ nofun)
    have behind : us.dropWhile (·.kind == .string) <:+ us := List.dropWhile_suffix _
    refine ⟨rest.dropWhile fun s stop => ?_, behind.trans (List.suffix_cons t us), fun _ => ?_⟩
    · rw [stop]
      rfl
    · exact Nat.lt_succ_of_le behind.length_le
  have same : (t :: us).dropWhile (·.kind == .string) = us.dropWhile (·.kind == .string) := by
    rw [List.dropWhile_cons, if_pos here]
  have refused (fault : Fault) (fails : strings (t :: us) = .error fault) :
      Blames (t :: us) fault ∧ IsPlain fault := by
    rw [strings_run, same] at fails
    split at fails
    next fault' misspelt =>
      cases fails
      obtain ⟨s, member, misspelt⟩ := Outcome.exists_of_mapM_eq_error misspelt
      have kind : s.kind = .string := by
        simpa using List.all_eq_true.mp List.all_takeWhile s member
      exact ⟨.literal ((List.takeWhile_sublist _).subset member) kind misspelt,
        isPlain_of_ofToken misspelt⟩
    next =>
      cases fails
      exact ⟨.unexpected (left.behind.subset left.ends.headD_mem) _, isPlain_unexpected⟩
    next => cases fails
  refine ⟨fun a rest success => ?_, fun fault fails => (refused fault fails).1, fun _ => rfl,
    fun _ fault fails => (refused fault fails).2⟩
  rw [strings_run, same] at success
  split at success
  · cases success
  · cases success
  · cases success
    exact left

/-! ## Expressions -/

/-- The ways into the grammar from inside brackets match under two bounds. -/
structure Inner.Steady (k : Nat) (inner inner' : Inner) : Prop where
  test : Reader.Steady k busy inner.test inner'.test
  disjunction : Reader.Steady k busy inner.disjunction inner'.disjunction
  operand : Reader.Steady k busy inner.operand inner'.operand

section Expressions

variable {k n n' : Nat} {inner inner' : Inner} (ways : inner.Steady k inner') (enough : k < n)
  (enough' : k < n')
include ways enough enough'

theorem steady_parenthesized :
    Steady (k + 1) busy (parenthesized inner n) (parenthesized inner' n') := by
  refine .expect nofun fun _ _ => .isAt (.bump nofun fun _ _ => .pure rfl) ?_
  refine .bind ways.test fun _ => .isAt (.bump nofun fun _ _ => .pure rfl) ?_
  exact .bind (steady_moreItems enough.le enough'.le (by decide) ways.test) fun _ => .pure rfl

theorem steady_clauseRound :
    Steady k (Round.strict false) (clauseRound inner n) (clauseRound inner' n') := by
  refine .peek fun t => ?_
  split
  next kind =>
    refine .bump (eq_of_beq kind ▸ nofun) fun _ _ => ?_
    refine .bind (steady_targets enough.le enough'.le ways.operand).down fun _ => ?_
    exact .expect nofun fun _ _ => .bind ways.disjunction.down.down fun _ => .pure rfl
  split
  next kind =>
    refine .bump (eq_of_beq kind ▸ nofun) fun _ _ => ?_
    exact .bind ways.disjunction.down fun _ => .pure rfl
  next => exact (Steady.pure rfl).at

/-- The clauses stand behind the bracket, so each way in has been entered before. -/
theorem steady_clauses {m m' : Nat} (many : k ≤ m) (many' : k ≤ m') :
    Steady k idle (clauses inner n m) (clauses inner' n' m') :=
  .loop (loops_clauses inner n) (loops_clauses inner' n')
    (fun _ => steady_clauseRound ways enough enough') many many' ()

theorem steady_comprehension (first : Token) (body : Node) (close : Symbol) :
    Steady k idle (comprehension inner n first body close)
      (comprehension inner' n' first body close) :=
  .bind (steady_clauses ways enough enough' enough.le enough'.le) fun _ =>
    .isAt (.bump nofun fun _ _ => .pure rfl) .unexpected

theorem steady_list : Steady (k + 1) busy (list inner n) (list inner' n') := by
  refine .expect nofun fun _ _ => .isAt (.bump nofun fun _ _ => .pure rfl) ?_
  refine .bind ways.test fun _ =>
    .isAt (steady_comprehension ways enough enough' _ _ _).at ?_
  exact .bind (steady_moreItems enough.le enough'.le (by decide) ways.test) fun _ => .pure rfl

omit enough enough' in
theorem steady_entryAfter (key : Node) :
    Steady k idle (entryAfter inner key) (entryAfter inner' key) :=
  .expect nofun fun _ _ => .bind ways.test.down fun _ => .pure rfl

omit enough enough' in
theorem steady_entry : Steady k busy (entry inner) (entry inner') :=
  .enter ways.test fun _ => (steady_entryAfter ways _).down

theorem steady_braced : Steady (k + 1) busy (braced inner n) (braced inner' n') := by
  refine .expect nofun fun _ _ => .isAt (.bump nofun fun _ _ => .pure rfl) ?_
  refine .bind ways.test fun x => .isAt (Steady.at ?_) ?_
  · refine .bind (steady_entryAfter ways x) fun _ => ?_
    refine .isAt (steady_comprehension ways enough enough' _ _ _).at ?_
    exact .bind (steady_moreItems enough.le enough'.le (by decide) (steady_entry ways)) fun _ =>
      .pure rfl
  · refine .isAt (steady_comprehension ways enough enough' _ _ _).at ?_
    exact .bind (steady_moreItems enough.le enough'.le (by decide) ways.test) fun _ => .pure rfl

/-- Atoms match, each kind of first token leading to a reader of its own. -/
theorem steady_atom : Steady (k + 1) busy (atom inner n) (atom inner' n') := by
  refine .peek fun t => ?_
  generalize t.kind = kind
  split
  · exact .bump nofun fun _ _ => .pure rfl
  · exact .bump nofun fun _ _ => .pure rfl
  · exact .bump nofun fun _ _ => .pure rfl
  · exact steady_strings
  · exact (steady_parenthesized ways enough enough').at
  · exact (steady_list ways enough enough').at
  · exact (steady_braced ways enough enough').at
  · exact Steady.unexpected.at

/-! ### Operands -/

omit enough enough' in
theorem steady_argument : Steady k busy (argument inner) (argument inner') := by
  refine .peek fun t => ?_
  split
  next kind =>
    refine .bump (fun same => ?_) fun _ _ => .bind ways.test.down fun _ => .pure rfl
    rw [same] at kind
    cases kind
  next =>
    refine (Steady.enter ways.test fun _ => .isAt ?_ (.pure rfl)).at
    exact .bump nofun fun _ _ => .bind ways.test.down.down fun _ => .pure rfl

theorem steady_call (x : Node) : Steady (k + 1) busy (call inner n x) (call inner' n' x) :=
  .expect nofun fun _ _ =>
    .bind (steady_items enough.le enough'.le (by decide) (steady_argument ways)) fun _ => .pure rfl

omit enough enough' in
theorem steady_sliceAfter (x : Node) (first : Token) (lower : Option Node) :
    Steady k idle (sliceAfter inner x first lower) (sliceAfter inner' x first lower) := by
  have missing {j : Nat} : Steady j idle (pure (none : Option Node)) (pure none) := .pure rfl
  refine .isAt (.bump nofun fun _ _ => ?_) .unexpected
  -- whichever way the upper bound is read, the same follows
  refine .isAt_or (Steady.at (.bind missing fun _ => ?_)) (Steady.at (.bind missing fun _ => ?_))
    (.bind (.map _ ways.test.down) fun _ => ?_)
  all_goals
    refine .isAt (.bump nofun fun _ _ => ?_) (.expect nofun fun _ _ => .pure rfl)
    refine .isAt (Steady.at (.bind missing fun _ => ?_))
      (.bind (.map _ ways.test.down.down) fun _ => ?_)
    all_goals exact .expect nofun fun _ _ => .pure rfl

theorem steady_subscript (x : Node) :
    Steady (k + 1) busy (subscript inner n x) (subscript inner' n' x) := by
  refine .expect nofun fun _ _ => .isAt (steady_sliceAfter ways x _ none).at ?_
  refine .bind (steady_expression enough.le enough'.le ways.test) fun y => ?_
  exact .isAt (.bump nofun fun _ _ => .pure rfl) (steady_sliceAfter ways x _ (some y))

theorem steady_suffixRound (x : Node) :
    Steady (k + 1) (Round.strict false) (suffixRound inner n x) (suffixRound inner' n' x) := by
  refine .peek fun t => ?_
  generalize t.kind = kind
  split
  · exact .bump nofun fun _ _ => .expectName fun _ => .pure rfl
  · exact (Steady.enter (steady_call ways enough enough' x) fun _ => .pure rfl).at
  · exact (Steady.enter (steady_subscript ways enough enough' x) fun _ => .pure rfl).at
  · exact (Steady.pure rfl).at

theorem steady_suffixes {m m' : Nat} (many : k < m) (many' : k < m') (x : Node) :
    Steady (k + 1) idle (suffixes inner n m x) (suffixes inner' n' m' x) :=
  .loop (loops_suffixes inner n) (loops_suffixes inner' n')
    (steady_suffixRound ways enough enough') many many' x

theorem steady_operandWith : Steady (k + 1) busy (operandWith inner n) (operandWith inner' n') :=
  .enter (steady_atom ways enough enough') fun x =>
    (steady_suffixes ways enough enough' enough enough' x).down

/-! ### Operators -/

theorem steady_signRound :
    Steady (k + 1) (Round.strict true) (signRound inner n) (signRound inner' n') := by
  refine .peek fun t => ?_
  split
  next sign => exact .bump (isSign_ne_eof sign) fun _ _ => .pure rfl
  next => exact (Steady.enter (steady_operandWith ways enough enough') fun _ => .pure rfl).at

theorem steady_signed {m m' : Nat} (many : k < m) (many' : k < m') :
    Steady (k + 1) busy (signed inner n m) (signed inner' n' m') :=
  .loop (loops_signed inner n) (loops_signed inner' n')
    (fun _ => steady_signRound ways enough enough') many many' ()

omit ways enough enough' in
/-- An operator that is found has been taken. -/
theorem steady_operator? (layer : Nat) :
    Steady k Option.isSome (operator? layer) (operator? layer) := by
  refine .peek fun t => ?_
  split
  next known =>
    have real : t.kind ≠ .eof := layer?_ne_eof (eq_of_beq known)
    split
    next =>
      intro ts ends head
      obtain ⟨first, us, rfl, same⟩ := exists_cons_of_kind head real
      rw [peekSecond_bind]
      split
      next second =>
        obtain ⟨s, vs, rfl, kind⟩ := exists_cons_of_kind (eq_of_beq second) nofun
        have one : Leaves false (first :: s :: vs) (s :: vs) := .cons ends (same ▸ real)
        have two : Leaves true (s :: vs) vs := .cons one.ends (kind ▸ nofun)
        refine ⟨fun a rest success => ?_, nofun, fun _ => rfl, nofun⟩
        cases success
        exact one.trans two fun _ => .inr rfl
      next => exact Steady.pure rfl _ ends
    next =>
      refine .bump real fun _ _ => ?_
      exact .and_isAt (.bump nofun fun _ _ => .pure rfl) (.pure rfl)
  next => exact (Steady.pure rfl).at

omit ways enough enough' in
theorem steady_operatorRound {operand operand' : Reader Node}
    (each : Steady k busy operand operand')
    (layer : Nat) (x : Node) :
    Steady k (Round.strict false) (operatorRound operand layer x)
      (operatorRound operand' layer x) := by
  refine fun ts ends => (steady_operator? layer ts ends).bind fun found mid _ ends => ?_
  cases found with
  | none => exact Steady.pure rfl mid ends
  | some op =>
      refine Steady.bind each.down ?_ mid ends
      exact fun _ => .pure (Bool.and_false _)

omit ways enough enough' in
theorem steady_chain {operand operand' : Reader Node} (each : Steady k busy operand operand')
    (layer : Nat) {m m' : Nat} (many : k ≤ m) (many' : k ≤ m') (x : Node) :
    Steady k idle (chain operand layer m x) (chain operand' layer m' x) :=
  .loop (loops_chain operand layer) (loops_chain operand' layer)
    (steady_operatorRound each layer) many many' x

theorem steady_tower (count : Nat) :
    Steady (k + 1) busy (tower inner n count) (tower inner' n' count) := by
  induction count with
  | zero => exact steady_signed ways enough enough' enough enough'
  | succ count ih =>
      exact .enter ih fun x => (steady_chain ih _ enough enough' x).down

theorem steady_disjunctionWith :
    Steady (k + 1) busy (disjunctionWith inner n) (disjunctionWith inner' n') :=
  steady_tower ways enough enough' 9

/-! ### Parameters and tests -/

omit enough enough' in
theorem steady_defaultAfter (x : Node) :
    Steady k idle (defaultAfter inner x) (defaultAfter inner' x) :=
  .isAt (.bump nofun fun _ _ => .bind ways.test.down fun _ => .pure rfl) (.pure rfl)

omit enough enough' in
/-- Parameters match, whatever stands behind the name. -/
theorem steady_param (types : Bool) (close : Kind) :
    Steady k busy (param inner types close) (param inner' types close) := by
  have after (t : Token) : Steady (k - 1) idle (do
      if types && (← isAt (.symbol .colon)) then
        let colon ← bump
        let type ← inner.test
        defaultAfter inner (.bare (.typed ⟨t.pos, t.text, .none⟩ colon.pos type))
      else defaultAfter inner (.ofName t)) (do
      if types && (← isAt (.symbol .colon)) then
        let colon ← bump
        let type ← inner'.test
        defaultAfter inner' (.bare (.typed ⟨t.pos, t.text, .none⟩ colon.pos type))
      else defaultAfter inner' (.ofName t)) := by
    refine .and_isAt (.bump nofun fun _ _ => ?_) (steady_defaultAfter ways _).down
    exact .bind ways.test.down.down fun _ => (steady_defaultAfter ways _).down.down
  refine .peek fun t => ?_
  generalize same : t.kind = kind
  split
  · exact .bump nofun fun _ _ => .expectName fun _ => .pure rfl
  · refine .bump nofun fun _ _ => .peek fun s => ?_
    split
    next name => exact .bump (isName_ne_eof name) fun _ _ => .pure rfl
    next => exact (Steady.pure rfl).at
  · exact .bump nofun fun _ _ => after t
  · exact .bump nofun fun _ _ => after t
  · exact Steady.unexpected.at

omit enough enough' in
theorem steady_paramRound (types : Bool) (close : Kind) :
    Steady k (Round.strict false) (paramRound inner types close)
      (paramRound inner' types close) := by
  refine .isAt (Steady.pure rfl).at (.enter (steady_param ways types close) fun _ => ?_)
  refine .isAt (.bump nofun fun _ _ => .pure rfl) ?_
  exact .isAt (Steady.pure rfl).at .unexpected

omit enough enough' in
theorem steady_params (types : Bool) (close : Kind) {m m' : Nat} (many : k ≤ m) (many' : k ≤ m') :
    Steady k idle (params inner types close m) (params inner' types close m') :=
  .loop (loops_params inner types close) (loops_params inner' types close)
    (fun _ => steady_paramRound ways types close) many many' ()

theorem steady_lambda : Steady (k + 1) busy (lambda inner n) (lambda inner' n') :=
  .expect nofun fun _ _ => .bind (steady_params ways false _ enough.le enough'.le) fun _ =>
    .expect nofun fun _ _ => .bind ways.test.down fun _ => .pure rfl

theorem steady_testWith : Steady (k + 1) busy (testWith inner n) (testWith inner' n') := by
  have choice := steady_disjunctionWith ways enough enough'
  refine .isAt (steady_lambda ways enough enough').at (.enter choice fun _ => ?_)
  refine .isAt (.bump nofun fun _ _ => ?_) (.pure rfl)
  refine .bind choice.down.down fun _ => .expect nofun fun _ _ => ?_
  exact .bind ways.test.down.down fun _ => .pure rfl

end Expressions

/-- The knot: the ways in match under all bounds, in front of no more tokens than the smaller
one. -/
theorem steady_innerAt (n n' : Nat) : (innerAt n).Steady (min n n') (innerAt n') := by
  induction n generalizing n' with
  | zero =>
      rw [Nat.zero_min]
      exact ⟨.stuck, .stuck, .stuck⟩
  | succ n ih =>
      have less (m : Nat) : min n m < n + 1 := Nat.lt_succ_of_le (Nat.min_le_left n m)
      have less' (m : Nat) : min n m < m + 1 := Nat.lt_succ_of_le (Nat.min_le_right n m)
      have both (m : Nat) : (innerAt (n + 1)).Steady (min n m + 1) (innerAt (m + 1)) :=
        ⟨steady_testWith (ih m) (less m) (less' m),
          steady_disjunctionWith (ih m) (less m) (less' m),
          steady_operandWith (ih m) (less m) (less' m)⟩
      cases n' with
      | zero =>
          rw [Nat.min_zero]
          exact ⟨(both n).test.zero, (both n).disjunction.zero, (both n).operand.zero⟩
      | succ m =>
          rw [Nat.add_min_add_right]
          exact both m

end Starlark.Reader
