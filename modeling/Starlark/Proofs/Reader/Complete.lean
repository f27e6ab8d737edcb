import Starlark.Proofs.Reader.Expression

/-!
# The readers accept the whole grammar

Whatever the grammar of expressions allows is read, and read as the node that
the grammar gives. A phrase has to end where the reader would stop as well:
what follows it must not continue it, which is said of the kind of the next
token for each kind of phrase (`endsOperand`, `endsLayer`, `endsTest`,
`endsExpression`).

Chains of operators and of suffixes nest to the left, while their readers go
on from what has been read so far. For them the induction follows the chain:
reading a chain from its first operand on arrives where reading the rest
starts (`Goes`).
-/

set_option autoImplicit false

namespace Starlark.Reader

open Token (Kind)

/-! ## Forward equations -/

section Forward

variable {α β : Type} {ts rest : List Token} {t : Token} {kind : Kind}

theorem isAt_ite_pos {r s : Reader β} (next : (ts.headD .ended).kind = kind) :
    (isAt kind >>= fun found => if found = true then r else s) ts = r ts := by
  rw [isAt_bind, if_pos (beq_of_eq next)]

theorem isAt_ite_neg {r s : Reader β} (other : (ts.headD .ended).kind ≠ kind) :
    (isAt kind >>= fun found => if found = true then r else s) ts = s ts := by
  rw [isAt_bind, if_neg fun found => other (eq_of_beq found)]

theorem expect_run (same : t.kind = kind) : expect kind (t :: ts) = .ok (t, ts) := by
  rw [expect, isAt_ite_pos (by exact same)]
  rfl

theorem expectName_run (named : isName t.kind = true) : expectName (t :: ts) = .ok (t, ts) := by
  rw [expectName, peek_bind, List.headD_cons, if_pos named]
  rfl

theorem headD_append (solid : ts ≠ []) : (ts ++ rest).headD .ended = ts.headD .ended := by
  cases ts with
  | nil => exact absurd rfl solid
  | cons t ts => rfl

end Forward

/-! ## What ends a phrase -/

/-- Tokens of a kind do not continue an operand. -/
def endsOperand : Kind → Bool
  | .string | .symbol .dot | .symbol .lparen | .symbol .lbrack => false
  | _ => true

/-- Tokens of a kind do not continue operators of the tightest `count` layers. -/
def endsLayer (count : Nat) (kind : Kind) : Bool :=
  endsOperand kind && (layer? kind).all fun layer => layer + count ≤ 9

/-- Tokens of a kind do not continue a test. -/
def endsTest (kind : Kind) : Bool := endsLayer 9 kind && kind != .keyword .if

/-- Tokens of a kind do not continue tests with commas between them. -/
def endsExpression (kind : Kind) : Bool :=
  endsTest kind && kind != .symbol .comma && !startsTest kind

/-- Tokens of a kind do not continue an argument. -/
def endsArgument (kind : Kind) : Bool := endsTest kind && kind != .symbol .eq

/-- Tokens of a kind do not continue a parameter. -/
def endsParam (types : Bool) (kind : Kind) : Bool :=
  endsArgument kind && !isName kind && !(types && kind == .symbol .colon)

theorem endsOperand_of_layer {count : Nat} {kind : Kind} (ends : endsLayer count kind = true) :
    endsOperand kind = true := (Bool.and_eq_true_iff.mp ends).1

theorem endsLayer_of_succ {count : Nat} {kind : Kind} (ends : endsLayer (count + 1) kind = true) :
    endsLayer count kind = true := by
  unfold endsLayer at ends ⊢
  cases known : layer? kind with
  | none => simpa [known] using ends
  | some layer =>
      simp only [known, Option.all_some, Bool.and_eq_true, decide_eq_true_eq] at ends ⊢
      exact ⟨ends.1, by omega⟩

/-- An operator of a looser layer ends the tighter ones. -/
theorem endsLayer_of_operator {count : Nat} {kind : Kind} (small : count ≤ 8)
    (known : layer? kind = some (9 - count)) : endsLayer count kind = true := by
  have operand : endsOperand kind = true := by
    unfold layer? at known
    split at known <;> first | rfl | cases known
  unfold endsLayer
  rw [operand, known]
  simp only [Option.all_some, Bool.true_and, decide_eq_true_eq]
  omega

theorem endsLayer_of_test {kind : Kind} (ends : endsTest kind = true) : endsLayer 9 kind = true :=
  (Bool.and_eq_true_iff.mp ends).1

theorem ne_if_of_endsTest {kind : Kind} (ends : endsTest kind = true) : kind ≠ .keyword .if := by
  simpa using (Bool.and_eq_true_iff.mp ends).2

/-! ## How phrases start -/

/-- The kinds of token that a phrase can start with. -/
def opens : Phrase → Kind → Bool
  | .atom, kind | .operand, kind => startsTest kind && !isSign kind && kind != .keyword .lambda
  | .layer _, kind => startsTest kind && kind != .keyword .lambda
  | .argument, kind => startsTest kind || kind == .symbol .star || kind == .symbol .starStar
  | .param _, kind => isName kind || kind == .symbol .star || kind == .symbol .starStar
  | _, kind => startsTest kind

theorem opens_of_isName {kind : Kind} (named : isName kind = true) : opens .atom kind = true := by
  unfold isName at named
  split at named <;> first | rfl | cases named

theorem opens_of_isSign {kind : Kind} (sign : isSign kind = true) :
    opens (.layer 0) kind = true := by
  unfold isSign at sign
  split at sign <;> first | rfl | cases sign

theorem opens_layer {kind : Kind} (starts : opens .operand kind = true) :
    opens (.layer 0) kind = true := by
  simp_all [opens]

theorem opens_test {kind : Kind} (starts : opens (.layer 9) kind = true) :
    opens .test kind = true := by
  simp_all [opens]

theorem opens_targets {kind : Kind} (starts : opens .operand kind = true) :
    opens .targets kind = true := by
  simp_all [opens]

theorem opens_argument {kind : Kind} (starts : opens .test kind = true) :
    opens .argument kind = true := by
  simp_all [opens]

/-- A phrase that is always there starts with a token that can start it. -/
theorem opens_of_spells {p : Phrase} {ts : List Token} {vs : List Node} (spells : Spells p ts vs)
    (solid : p.isSolid = true) : opens p (ts.headD .ended).kind = true := by
  induction spells with
  | strings kinds literals =>
      rename_i ts _ _
      cases ts with
      | nil => cases literals
      | cons t ts => rw [List.headD_cons, kinds t (by simp)]; rfl
  | noClause | noParam | noMore | noItem | forClause | ifClause | lastParam | moreParams
  | lastComma | oneMore | someItems | missing | present => cases solid
  | atom _ ih | tighter _ ih | single _ ih => exact ih rfl
  | operand _ ih => exact opens_layer (ih rfl)
  | disjunction _ ih => exact opens_test (ih rfl)
  | target _ ih => exact opens_targets (ih rfl)
  | positional _ ih => exact opens_argument (ih rfl)
  | dot first _ _ ih | call first _ _ _ ih | index first _ _ _ ih | slice first _ _ _ _ _ ih
  | stepSlice first _ _ _ _ _ _ _ ih | entry first _ _ ih | several first _ _ ih =>
      rw [headD_append (first.ne_nil rfl)]
      exact ih rfl
  | severalTargets first _ _ ih =>
      rw [headD_append (first.ne_nil rfl)]
      exact opens_targets (ih rfl)
  | conditional first _ _ _ _ ih =>
      rw [headD_append (first.ne_nil rfl)]
      exact opens_test (ih rfl)
  | keyword first _ _ ih =>
      rw [headD_append (first.ne_nil rfl)]
      exact opens_argument (ih rfl)
  | binary first _ _ ih =>
      rw [List.append_assoc, headD_append (first.ne_nil rfl)]
      exact ih rfl
  | starred star _ _ =>
      rcases star with star | star <;> simp [opens, star]
  | name named => exact opens_of_isName named
  | sign sign _ _ => exact opens_of_isSign sign
  | _ => simp_all [opens, startsTest, isSign]

/-! ## Reading what is spelled -/

section Completes

variable {α : Type}

/-- The reader reads what `P` relates to a value, as long as it takes no more than `n` tokens and
something stands behind it that ends it. -/
def Completes (r : Reader α) (P : List Token → α → Prop) (ends : Kind → Bool) (n : Nat) : Prop :=
  ∀ ⦃ts rest : List Token⦄ ⦃v : α⦄, P ts v → ts.length ≤ n →
    ends (rest.headD .ended).kind = true → r (ts ++ rest) = .ok (v, rest)

theorem Listed.headD_append {P : List Token → α → Prop} {us : List Token} {xs : List α}
    (listed : Listed P us xs) (d : Token) (rest : List Token) :
    ((us ++ d :: rest).headD .ended).kind = .symbol .comma ∨
      (us ++ d :: rest).headD .ended = d := by
  cases listed with
  | none => exact .inr rfl
  | comma comma => exact .inl comma
  | item comma => exact .inl comma

variable {P : List Token → α → Prop} {item : Reader α} {ends : Kind → Bool} {close : Kind} {n : Nat}

/-- Items behind commas are read up to the closing token, by induction on how they are listed. -/
theorem moreItems_run (each : Completes item P ends n)
    (opening : ∀ {ts : List Token} {v : α}, P ts v → ts ≠ [] ∧ (ts.headD .ended).kind ≠ close)
    (other : close ≠ .symbol .comma) (closes : ends close = true)
    (commas : ends (.symbol .comma) = true) {us : List Token} {xs : List α}
    (listed : Listed P us xs) (short : us.length ≤ n) {m : Nat} (bound : us.length < m) {d : Token}
    (closing : d.kind = close) (rest : List Token) :
    moreItems close item m (us ++ d :: rest) = .ok ((xs, d), rest) := by
  induction listed generalizing m with
  | none =>
      obtain ⟨m, rfl⟩ := Nat.exists_eq_add_of_lt bound
      rw [moreItems, isAt_ite_pos (by exact closing)]
      rfl
  | @comma c comma =>
      obtain ⟨m, rfl⟩ := Nat.exists_eq_add_of_lt bound
      rw [moreItems, isAt_ite_neg (by exact fun same => other (same.symm.trans comma)),
        isAt_ite_pos (by exact comma)]
      show (bump >>= _) (c :: d :: rest) = _
      rw [bump_bind, isAt_ite_pos (by exact closing)]
      rfl
  | @item c used more x xs comma first listed ih =>
      obtain ⟨m, rfl⟩ := Nat.exists_eq_add_of_lt bound
      obtain ⟨solid, starts⟩ := opening first
      simp only [List.length_cons, List.length_append] at short bound
      have stop : ends ((more ++ d :: rest).headD .ended).kind = true := by
        obtain next | next := listed.headD_append d rest
        · rw [next, commas]
        · rw [next, closing, closes]
      have one : item (used ++ (more ++ d :: rest)) = .ok (x, more ++ d :: rest) :=
        each first (by omega) stop
      rw [moreItems, isAt_ite_neg (by exact fun same => other (same.symm.trans comma)),
        isAt_ite_pos (by exact comma)]
      show (bump >>= _) (c :: ((used ++ more) ++ d :: rest)) = _
      rw [bump_bind, List.append_assoc, isAt_ite_neg (by rwa [headD_append solid]), bind_run one,
        bind_run (ih (by omega) (by simp only [List.length_cons, List.length_append]; omega))]
      rfl

/-- Items with commas between them are read up to the closing token. -/
theorem items_run (each : Completes item P ends n)
    (opening : ∀ {ts : List Token} {v : α}, P ts v → ts ≠ [] ∧ (ts.headD .ended).kind ≠ close)
    (other : close ≠ .symbol .comma) (closes : ends close = true)
    (commas : ends (.symbol .comma) = true) {ts us : List Token} {x : α} {xs : List α}
    (first : P ts x) (listed : Listed P us xs) (short : ts.length + us.length ≤ n) {m : Nat}
    (bound : us.length < m) {d : Token} (closing : d.kind = close) (rest : List Token) :
    items close item m (ts ++ us ++ d :: rest) = .ok ((x :: xs, d), rest) := by
  obtain ⟨solid, starts⟩ := opening first
  have stop : ends ((us ++ d :: rest).headD .ended).kind = true := by
    obtain next | next := listed.headD_append d rest
    · rw [next, commas]
    · rw [next, closing, closes]
  have one : item (ts ++ (us ++ d :: rest)) = .ok (x, us ++ d :: rest) :=
    each first (by omega) stop
  rw [items, List.append_assoc, isAt_ite_neg (by rwa [headD_append solid]), bind_run one,
    bind_run (moreItems_run each opening other closes commas listed (by omega) bound closing rest)]
  rfl

end Completes

/-! ## Tests in a row -/

/-- What is spelled behind commas is listed item by item. -/
theorem listed_of_spells {p : Phrase} {us : List Token} {xs : List Node}
    (spells : Spells (.tail p) us xs) : Listed (fun used v => Spells p used [v]) us xs := by
  generalize same : Phrase.tail p = q at spells
  induction spells with
  | noMore => exact .none
  | lastComma comma => exact .comma comma
  | oneMore comma first _ _ ih =>
      cases same
      exact .item comma first (ih rfl)
  | _ => cases same

/-- The reader reads the nodes that a phrase spells. -/
abbrev CompletesPhrase (r : Reader Node) (p : Phrase) (ends : Kind → Bool) (n : Nat) : Prop :=
  Completes r (fun ts v => Spells p ts [v]) ends n

section Rows

variable {test operand : Reader Node} {n : Nat}

/-- Tests behind commas are read until something stands there that starts no test. -/
theorem moreTests_run (each : CompletesPhrase test .test endsTest n) {us : List Token}
    {xs : List Node} (listed : Listed (fun used v => Spells .test used [v]) us xs)
    (short : us.length ≤ n) {m : Nat} (bound : us.length < m) {rest : List Token}
    (stop : endsExpression (rest.headD .ended).kind = true) :
    moreTests test m (us ++ rest) = .ok (xs, rest) := by
  obtain ⟨⟨last, comma⟩, start⟩ : (endsTest (rest.headD .ended).kind = true ∧
      (rest.headD .ended).kind ≠ .symbol .comma) ∧ startsTest (rest.headD .ended).kind = false := by
    simpa [endsExpression] using stop
  induction listed generalizing m with
  | none =>
      obtain ⟨m, rfl⟩ := Nat.exists_eq_add_of_lt bound
      rw [moreTests, List.nil_append, isAt_ite_neg comma]
      rfl
  | @comma c isComma =>
      obtain ⟨m, rfl⟩ := Nat.exists_eq_add_of_lt bound
      rw [moreTests, isAt_ite_pos (by exact isComma)]
      show (bump >>= _) (c :: rest) = _
      rw [bump_bind, peek_bind, if_neg (by simpa using start)]
      rfl
  | @item c used more x xs isComma first listed ih =>
      obtain ⟨m, rfl⟩ := Nat.exists_eq_add_of_lt bound
      simp only [List.length_cons, List.length_append] at short bound
      have next : endsTest ((more ++ rest).headD .ended).kind = true := by
        cases listed with
        | none => exact last
        | comma isComma => rw [List.cons_append, List.headD_cons, isComma]; rfl
        | item isComma => rw [List.cons_append, List.headD_cons, isComma]; rfl
      have one : test (used ++ (more ++ rest)) = .ok (x, more ++ rest) := each first (by omega) next
      have starts : startsTest (used.headD .ended).kind = true := opens_of_spells first rfl
      rw [moreTests, isAt_ite_pos (by exact isComma)]
      show (bump >>= _) (c :: ((used ++ more) ++ rest)) = _
      rw [bump_bind, peek_bind, List.append_assoc, headD_append (first.ne_nil rfl),
        if_pos starts, bind_run one,
        bind_run (ih (by omega) (by simp only [List.length_cons, List.length_append]; omega))]
      rfl

theorem expression_run (each : CompletesPhrase test .test endsTest n) {m : Nat} (bound : n < m) :
    CompletesPhrase (expression test m) .expression endsExpression n := by
  intro ts rest v spells short stop
  have whole := stop
  obtain ⟨⟨last, comma⟩, _⟩ : (endsTest (rest.headD .ended).kind = true ∧
      (rest.headD .ended).kind ≠ .symbol .comma) ∧ startsTest (rest.headD .ended).kind = false := by
    simpa [endsExpression] using stop
  cases spells with
  | single plain =>
      rw [expression, bind_run (each plain short last), isAt_ite_neg comma]
      rfl
  | @several ts us x xs first more commas =>
      rw [List.length_append] at short
      have listed := listed_of_spells more
      obtain ⟨c, us, rfl⟩ := List.exists_cons_of_ne_nil commas
      have isComma : c.kind = .symbol .comma := by
        cases listed <;> assumption
      have one : test (ts ++ (c :: us ++ rest)) = .ok (x, c :: us ++ rest) :=
        each first (by omega) (by rw [List.cons_append, List.headD_cons, isComma]; rfl)
      rw [expression, List.append_assoc, bind_run one, isAt_ite_pos (by exact isComma),
        bind_run (moreTests_run each listed (by omega) (by omega) whole)]
      rfl

/-- The variables of a loop are read up to its `in`. -/
theorem moreTargets_run (each : CompletesPhrase operand .operand endsOperand n) {us : List Token}
    {xs : List Node} (listed : Listed (fun used v => Spells .operand used [v]) us xs)
    (short : us.length ≤ n) {m : Nat} (bound : us.length < m) {rest : List Token}
    (stop : (rest.headD .ended).kind = .keyword .in) :
    moreTargets operand m (us ++ rest) = .ok (xs, rest) := by
  induction listed generalizing m with
  | none =>
      obtain ⟨m, rfl⟩ := Nat.exists_eq_add_of_lt bound
      rw [moreTargets, List.nil_append, isAt_ite_neg (by rw [stop]; decide)]
      rfl
  | @comma c isComma =>
      obtain ⟨m, rfl⟩ := Nat.exists_eq_add_of_lt bound
      rw [moreTargets, isAt_ite_pos (by exact isComma)]
      show (bump >>= _) (c :: rest) = _
      rw [bump_bind, isAt_ite_pos stop]
      rfl
  | @item c used more x xs isComma first listed ih =>
      obtain ⟨m, rfl⟩ := Nat.exists_eq_add_of_lt bound
      simp only [List.length_cons, List.length_append] at short bound
      have next : endsOperand ((more ++ rest).headD .ended).kind = true := by
        cases listed with
        | none => rw [List.nil_append, stop]; rfl
        | comma isComma => rw [List.cons_append, List.headD_cons, isComma]; rfl
        | item isComma => rw [List.cons_append, List.headD_cons, isComma]; rfl
      have one : operand (used ++ (more ++ rest)) = .ok (x, more ++ rest) :=
        each first (by omega) next
      have solid := first.ne_nil rfl
      have starts : ((used ++ (more ++ rest)).headD .ended).kind ≠ .keyword .in := by
        intro same
        have opens := opens_of_spells first rfl
        rw [headD_append solid] at same
        rw [same] at opens
        cases opens
      rw [moreTargets, isAt_ite_pos (by exact isComma)]
      show (bump >>= _) (c :: ((used ++ more) ++ rest)) = _
      rw [bump_bind, List.append_assoc, isAt_ite_neg starts, bind_run one,
        bind_run (ih (by omega) (by simp only [List.length_cons, List.length_append]; omega))]
      rfl

theorem targets_run (each : CompletesPhrase operand .operand endsOperand n) {m : Nat}
    (bound : n < m) :
    CompletesPhrase (targets operand m) .targets (· == .keyword .in) n := by
  intro ts rest v spells short stop
  have isIn : (rest.headD .ended).kind = .keyword .in := eq_of_beq stop
  cases spells with
  | target plain =>
      rw [targets, bind_run (each plain short (by rw [isIn]; rfl)),
        isAt_ite_neg (by rw [isIn]; decide)]
      rfl
  | @severalTargets ts us x xs first more commas =>
      rw [List.length_append] at short
      have listed := listed_of_spells more
      obtain ⟨c, us, rfl⟩ := List.exists_cons_of_ne_nil commas
      have isComma : c.kind = .symbol .comma := by
        cases listed <;> assumption
      have one : operand (ts ++ (c :: us ++ rest)) = .ok (x, c :: us ++ rest) :=
        each first (by omega) (by rw [List.cons_append, List.headD_cons, isComma]; rfl)
      rw [targets, List.append_assoc, bind_run one, isAt_ite_pos (by exact isComma),
        bind_run (moreTargets_run each listed (by omega) (by omega) isIn)]
      rfl

end Rows

/-! ## Atoms -/

/-- The ways into the grammar from inside brackets read every phrase of at most `n` tokens. -/
structure Inner.Complete (inner : Inner) (n : Nat) : Prop where
  test : CompletesPhrase inner.test .test endsTest n
  disjunction : CompletesPhrase inner.disjunction (.layer 9) (endsLayer 9) n
  operand : CompletesPhrase inner.operand .operand endsOperand n

/-- Literals that stand next to each other are read together. -/
theorem strings_complete {ts rest : List Token} {first : StringLit} {others : List StringLit}
    (kinds : ∀ t ∈ ts, t.kind = .string)
    (literals : ts.mapM StringLit.ofToken = .ok (first :: others))
    (stop : (rest.headD .ended).kind ≠ .string) :
    strings (ts ++ rest) = .ok (.ofStrings first others, rest) := by
  have all : ∀ t ∈ ts, (t.kind == .string) = true := fun t member => beq_of_eq (kinds t member)
  have none :
      rest.takeWhile (·.kind == .string) = [] ∧ rest.dropWhile (·.kind == .string) = rest := by
    cases rest with
    | nil => exact ⟨rfl, rfl⟩
    | cons t rest =>
        have other : (t.kind == .string) = false := by simpa using stop
        simp [other]
  rw [strings_run, List.takeWhile_append_of_pos all, List.dropWhile_append_of_pos all, none.1,
    none.2, List.append_nil, literals]

/-- A test does not start with a token that closes or continues something. -/
theorem head_of_test {ts : List Token} {v : Node} (spells : Spells .test ts [v]) {kind : Kind}
    (other : startsTest kind = false) (rest : List Token) :
    ((ts ++ rest).headD .ended).kind ≠ kind := by
  intro same
  have starts : startsTest (ts.headD .ended).kind = true := opens_of_spells spells rfl
  rw [headD_append (spells.ne_nil rfl)] at same
  rw [same, other] at starts
  cases starts

theorem opening_of_test {close : Kind} (other : startsTest close = false)
    {ts : List Token} {v : Node}
    (spells : Spells .test ts [v]) : ts ≠ [] ∧ (ts.headD .ended).kind ≠ close := by
  have head := head_of_test spells other []
  rw [List.append_nil] at head
  exact ⟨spells.ne_nil rfl, head⟩

theorem opening_of_entry {ts : List Token} {v : Node} (spells : Spells .entry ts [v]) :
    ts ≠ [] ∧ (ts.headD .ended).kind ≠ .symbol .rbrace := by
  have starts : startsTest (ts.headD .ended).kind = true := opens_of_spells spells rfl
  refine ⟨spells.ne_nil rfl, fun same => ?_⟩
  rw [same] at starts
  cases starts

/-- What can stand behind a part of a comprehension. -/
theorem clauses_head {us : List Token} {xs : List Node} (spells : Spells .clauses us xs)
    {close : Symbol} (closes : close = .rbrack ∨ close = .rbrace) {d : Token}
    (closing : d.kind = .symbol close) (rest : List Token) :
    endsLayer 9 ((us ++ d :: rest).headD .ended).kind = true := by
  cases spells with
  | noClause =>
      rcases closes with rfl | rfl <;> (rw [List.nil_append, List.headD_cons, closing]; rfl)
  | forClause loops => rw [List.cons_append, List.headD_cons, loops]; rfl
  | ifClause tests => rw [List.cons_append, List.headD_cons, tests]; rfl

section Kinds

variable {inner : Inner} {n : Nat} {t : Token} {us : List Token}

theorem atom_name (named : isName t.kind = true) :
    atom inner n (t :: us) = .ok (.ofName t, us) := by
  obtain kind | kind : t.kind = .ident ∨ t.kind = .keyword .load := by
    unfold isName at named
    split at named
    · exact .inl ‹_›
    · exact .inr ‹_›
    · cases named
  · rw [atom, peek_bind, List.headD_cons, kind]
    rfl
  · rw [atom, peek_bind, List.headD_cons, kind]
    rfl

theorem atom_number (kind : t.kind = .number) :
    atom inner n (t :: us) = .ok (.bare (.literal t.pos t.text), us) := by
  rw [atom, peek_bind, List.headD_cons, kind]
  rfl

theorem atom_string (kind : t.kind = .string) : atom inner n (t :: us) = strings (t :: us) := by
  rw [atom, peek_bind, List.headD_cons, kind]

theorem atom_paren (kind : t.kind = .symbol .lparen) :
    atom inner n (t :: us) = parenthesized inner n (t :: us) := by
  rw [atom, peek_bind, List.headD_cons, kind]

theorem atom_bracket (kind : t.kind = .symbol .lbrack) :
    atom inner n (t :: us) = list inner n (t :: us) := by
  rw [atom, peek_bind, List.headD_cons, kind]

theorem atom_brace (kind : t.kind = .symbol .lbrace) :
    atom inner n (t :: us) = braced inner n (t :: us) := by
  rw [atom, peek_bind, List.headD_cons, kind]

variable {a b : Token} {rest : List Token}

theorem unit_run (opening : a.kind = .symbol .lparen) (closing : b.kind = .symbol .rparen) :
    parenthesized inner n (a :: b :: rest) = .ok (.collected .tuple a [] b, rest) := by
  rw [parenthesized, bind_run (expect_run opening), isAt_ite_pos (by exact closing)]
  rfl

theorem emptyList_run (opening : a.kind = .symbol .lbrack) (closing : b.kind = .symbol .rbrack) :
    list inner n (a :: b :: rest) = .ok (.collected .list a [] b, rest) := by
  rw [list, bind_run (expect_run opening), isAt_ite_pos (by exact closing)]
  rfl

theorem emptyDict_run (opening : a.kind = .symbol .lbrace) (closing : b.kind = .symbol .rbrace) :
    braced inner n (a :: b :: rest) = .ok (.collected .dict a [] b, rest) := by
  rw [braced, bind_run (expect_run opening), isAt_ite_pos (by exact closing)]
  rfl

end Kinds

section Atoms

variable {inner : Inner} {n : Nat} (complete : inner.Complete n)
include complete

/-- Tests behind a first one, up to a closing bracket. -/
theorem moreItems_test_run {close : Kind} (real : startsTest close = false)
    (other : close ≠ .symbol .comma) (closes : endsTest close = true) {us : List Token}
    {xs : List Node} (more : Spells (.tail .test) us xs) (short : us.length ≤ n) {d : Token}
    (closing : d.kind = close) (rest : List Token) :
    moreItems close inner.test (n + 1) (us ++ d :: rest) = .ok ((xs, d), rest) :=
  moreItems_run complete.test (opening_of_test real) other closes rfl (listed_of_spells more) short
    (by omega) closing rest

/-- A test in parentheses is read as such: no comma follows it. -/
theorem parenthesized_run {a b : Token} {ts : List Token} {x : Node}
    (opening : a.kind = .symbol .lparen) (closing : b.kind = .symbol .rparen)
    (inside : Spells .test ts [x]) (short : ts.length ≤ n) (rest : List Token) :
    parenthesized inner (n + 1) (a :: (ts ++ b :: rest)) =
      .ok (.bare (.paren a.pos x (.at b.pos) (Layout.staysOpen a.pos [x] b.pos)), rest) := by
  have one : inner.test (ts ++ b :: rest) = .ok (x, b :: rest) :=
    complete.test inside short (by rw [List.headD_cons, closing]; rfl)
  rw [parenthesized, bind_run (expect_run opening), isAt_ite_neg (head_of_test inside rfl _),
    bind_run one, isAt_ite_pos (by exact closing)]
  rfl

/-- With a comma behind the first test it is a tuple. -/
theorem tuple_run {a b : Token} {ts us : List Token} {x : Node} {xs : List Node}
    (opening : a.kind = .symbol .lparen) (closing : b.kind = .symbol .rparen)
    (first : Spells .test ts [x]) (more : Spells (.tail .test) us xs) (several : us ≠ [])
    (short : ts.length + us.length ≤ n) (rest : List Token) :
    parenthesized inner (n + 1) (a :: (ts ++ us ++ b :: rest)) =
      .ok (.collected .tuple a (x :: xs) b, rest) := by
  have listed := listed_of_spells more
  have comma : ((us ++ b :: rest).headD .ended).kind = .symbol .comma := by
    cases listed with
    | none => exact absurd rfl several
    | comma comma => exact comma
    | item comma => exact comma
  have one : inner.test (ts ++ (us ++ b :: rest)) = .ok (x, us ++ b :: rest) :=
    complete.test first (by omega) (by rw [comma]; rfl)
  rw [parenthesized, bind_run (expect_run opening), List.append_assoc,
    isAt_ite_neg (head_of_test first rfl _), bind_run one, isAt_ite_neg (by rw [comma]; decide),
    bind_run (moreItems_test_run complete rfl (by decide) rfl more (by omega) closing rest)]
  rfl

/-- Clauses are read up to the closing bracket, by induction on how they are spelled. -/
theorem clauses_run {us : List Token} {xs : List Node} (spells : Spells .clauses us xs)
    (short : us.length ≤ n) {m : Nat} (bound : us.length < m) {close : Symbol}
    (closes : close = .rbrack ∨ close = .rbrace) {d : Token} (closing : d.kind = .symbol close)
    (rest : List Token) :
    clauses inner (n + 1) m (us ++ d :: rest) = .ok (xs, d :: rest) := by
  generalize same : Phrase.clauses = p at spells
  induction spells generalizing m with
  | noClause =>
      obtain ⟨m, rfl⟩ := Nat.exists_eq_add_of_lt bound
      rw [clauses, List.nil_append, peek_bind, List.headD_cons, closing, if_neg (by simp),
        if_neg (by simp)]
      rfl
  | @forClause a b ts us vs x y zs loops bound' inside range more _ _ ih =>
      obtain ⟨m, rfl⟩ := Nat.exists_eq_add_of_lt bound
      simp only [List.length_cons, List.length_append] at short bound
      have vars : targets inner.operand (n + 1) (ts ++ (b :: (us ++ (vs ++ d :: rest)))) =
          .ok (x, b :: (us ++ (vs ++ d :: rest))) :=
        targets_run complete.operand (by omega) bound' (by omega) (beq_of_eq inside)
      have values : inner.disjunction (us ++ (vs ++ d :: rest)) = .ok (y, vs ++ d :: rest) :=
        complete.disjunction range (by omega) (clauses_head more closes closing rest)
      have others := ih (by omega) (m := ts.length + (us.length + vs.length + 1) + 1 + m)
        (by omega) rfl
      simp only [List.length_cons, List.length_append, List.cons_append, List.append_assoc]
      rw [clauses, peek_bind, List.headD_cons, if_pos (beq_of_eq loops), bump_bind, bind_run vars,
        bind_run (expect_run inside), bind_run values, bind_run others]
      rfl
  | @ifClause a ts us x zs tests cond more _ ih =>
      obtain ⟨m, rfl⟩ := Nat.exists_eq_add_of_lt bound
      simp only [List.length_cons, List.length_append] at short bound
      have values : inner.disjunction (ts ++ (us ++ d :: rest)) = .ok (x, us ++ d :: rest) :=
        complete.disjunction cond (by omega) (clauses_head more closes closing rest)
      have others := ih (by omega) (m := ts.length + us.length + 1 + m) (by omega) rfl
      simp only [List.length_cons, List.length_append, List.cons_append, List.append_assoc]
      rw [clauses, peek_bind, List.headD_cons, tests, if_neg (by decide), if_pos (by decide),
        bump_bind, bind_run values, bind_run others]
      rfl
  | _ => cases same

theorem comprehension_run {us : List Token} {xs : List Node} (spells : Spells .clauses us xs)
    (short : us.length ≤ n) {close : Symbol} (closes : close = .rbrack ∨ close = .rbrace)
    {b : Token} (closing : b.kind = .symbol close) (first : Token) (body : Node)
    (rest : List Token) :
    comprehension inner (n + 1) first body close (us ++ b :: rest) =
      .ok (.bare (.comprehension (close == .rbrace) first.pos body xs (.at b.pos)
        (Layout.comprehensionStaysOpen first.pos body xs b.pos)), rest) := by
  rw [comprehension, bind_run (clauses_run complete spells short (by omega) closes closing rest),
    isAt_ite_pos (by exact closing)]
  rfl

theorem list_run {a b : Token} {ts us : List Token} {x : Node} {xs : List Node}
    (opening : a.kind = .symbol .lbrack) (closing : b.kind = .symbol .rbrack)
    (first : Spells .test ts [x]) (more : Spells (.tail .test) us xs)
    (short : ts.length + us.length ≤ n) (rest : List Token) :
    list inner (n + 1) (a :: (ts ++ us ++ b :: rest)) =
      .ok (.collected .list a (x :: xs) b, rest) := by
  have next := (listed_of_spells more).headD_append b rest
  have one : inner.test (ts ++ (us ++ b :: rest)) = .ok (x, us ++ b :: rest) := by
    refine complete.test first (by omega) ?_
    rcases next with next | next <;> rw [next]
    · rfl
    · rw [closing]; rfl
  have plain : ((us ++ b :: rest).headD .ended).kind ≠ .keyword .for := by
    rcases next with next | next <;> rw [next]
    · decide
    · rw [closing]; decide
  rw [list, bind_run (expect_run opening), List.append_assoc,
    isAt_ite_neg (head_of_test first rfl _), bind_run one, isAt_ite_neg plain,
    bind_run (moreItems_test_run complete rfl (by decide) rfl more (by omega) closing rest)]
  rfl

/-- A `for` behind the first test of a list makes it a comprehension. -/
theorem listComprehension_run {a b : Token} {ts us : List Token} {x : Node} {xs : List Node}
    (opening : a.kind = .symbol .lbrack) (closing : b.kind = .symbol .rbrack)
    (body : Spells .test ts [x]) (parts : Spells .clauses us xs)
    (loops : (us.headD .ended).kind = .keyword .for) (short : ts.length + us.length ≤ n)
    (rest : List Token) :
    list inner (n + 1) (a :: (ts ++ us ++ b :: rest)) =
      .ok (.bare (.comprehension false a.pos x xs (.at b.pos)
        (Layout.comprehensionStaysOpen a.pos x xs b.pos)), rest) := by
  have solid : us ≠ [] := by rintro rfl; cases loops
  have next : ((us ++ b :: rest).headD .ended).kind = .keyword .for := by
    rwa [headD_append solid]
  have one : inner.test (ts ++ (us ++ b :: rest)) = .ok (x, us ++ b :: rest) :=
    complete.test body (by omega) (by rw [next]; rfl)
  rw [list, bind_run (expect_run opening), List.append_assoc,
    isAt_ite_neg (head_of_test body rfl _), bind_run one, isAt_ite_pos next,
    comprehension_run complete parts (by omega) (.inl rfl) closing]
  rfl

theorem entryAfter_run {c : Token} {us : List Token} {y : Node} (key : Node)
    (colon : c.kind = .symbol .colon) (value : Spells .test us [y]) (short : us.length ≤ n)
    {rest : List Token} (stop : endsTest (rest.headD .ended).kind = true) :
    entryAfter inner key (c :: (us ++ rest)) = .ok (.bare (.keyValue key c.pos y), rest) := by
  rw [entryAfter, bind_run (expect_run colon), bind_run (complete.test value short stop)]
  rfl

theorem entry_run : CompletesPhrase (entry inner) .entry endsTest n := by
  intro ts rest v spells short stop
  cases spells with
  | @entry c ts us x y key colon value =>
      simp only [List.length_append, List.length_cons] at short
      have one : inner.test (ts ++ (c :: (us ++ rest))) = .ok (x, c :: (us ++ rest)) :=
        complete.test key (by omega) (by rw [List.headD_cons, colon]; rfl)
      rw [Reader.entry, List.append_assoc, List.cons_append, bind_run one,
        entryAfter_run complete x colon value (by omega) stop]

/-- What a brace with a first element reads as, by what stands behind the element. -/
theorem braced_test {a : Token} {ts : List Token} {x : Node} (opening : a.kind = .symbol .lbrace)
    (first : Spells .test ts [x]) (short : ts.length ≤ n) {rest : List Token}
    (stop : endsTest (rest.headD .ended).kind = true)
    (other : (rest.headD .ended).kind ≠ .symbol .colon) :
    braced inner (n + 1) (a :: (ts ++ rest)) =
      (isAt (.keyword .for) >>= fun found =>
        if found = true then comprehension inner (n + 1) a x .rbrace
        else moreItems (.symbol .rbrace) inner.test (n + 1) >>= fun more =>
          pure (.collected .set a (x :: more.1) more.2)) rest := by
  rw [braced, bind_run (expect_run opening), isAt_ite_neg (head_of_test first rfl _),
    bind_run (complete.test first short stop), isAt_ite_neg other]

/-- What a brace with a first entry reads as. -/
theorem braced_entry {a : Token} {ts : List Token} {x : Node} (opening : a.kind = .symbol .lbrace)
    (first : Spells .entry ts [x]) (short : ts.length ≤ n) {rest : List Token}
    (stop : endsTest (rest.headD .ended).kind = true) :
    braced inner (n + 1) (a :: (ts ++ rest)) =
      (isAt (.keyword .for) >>= fun found =>
        if found = true then comprehension inner (n + 1) a x .rbrace
        else moreItems (.symbol .rbrace) (entry inner) (n + 1) >>= fun more =>
          pure (.collected .dict a (x :: more.1) more.2)) rest := by
  cases first with
  | @entry c ts us key y first colon value =>
      simp only [List.length_append, List.length_cons] at short
      have one : inner.test (ts ++ (c :: (us ++ rest))) = .ok (key, c :: (us ++ rest)) :=
        complete.test first (by omega) (by rw [List.headD_cons, colon]; rfl)
      rw [List.append_assoc, List.cons_append, braced, bind_run (expect_run opening),
        isAt_ite_neg (head_of_test first rfl _), bind_run one, isAt_ite_pos (by exact colon),
        bind_run (entryAfter_run complete key colon value (by omega) stop)]

/-- Braces with a test first are a set. -/
theorem set_run {a b : Token} {ts us : List Token} {x : Node} {xs : List Node}
    (opening : a.kind = .symbol .lbrace) (closing : b.kind = .symbol .rbrace)
    (first : Spells .test ts [x]) (more : Spells (.tail .test) us xs)
    (short : ts.length + us.length ≤ n) (rest : List Token) :
    braced inner (n + 1) (a :: (ts ++ us ++ b :: rest)) =
      .ok (.collected .set a (x :: xs) b, rest) := by
  have next := (listed_of_spells more).headD_append b rest
  have stop : endsTest ((us ++ b :: rest).headD .ended).kind = true := by
    rcases next with next | next <;> rw [next]
    · rfl
    · rw [closing]; rfl
  have plain : ((us ++ b :: rest).headD .ended).kind ≠ .symbol .colon ∧
      ((us ++ b :: rest).headD .ended).kind ≠ .keyword .for := by
    rcases next with next | next <;> rw [next]
    · decide
    · rw [closing]; decide
  rw [List.append_assoc, braced_test complete opening first (by omega) stop plain.1,
    isAt_ite_neg plain.2,
    bind_run (moreItems_test_run complete rfl (by decide) rfl more (by omega) closing rest)]
  rfl

/-- Braces with an entry first are a dictionary. -/
theorem dict_run {a b : Token} {ts us : List Token} {x : Node} {xs : List Node}
    (opening : a.kind = .symbol .lbrace) (closing : b.kind = .symbol .rbrace)
    (first : Spells .entry ts [x]) (more : Spells (.tail .entry) us xs)
    (short : ts.length + us.length ≤ n) (rest : List Token) :
    braced inner (n + 1) (a :: (ts ++ us ++ b :: rest)) =
      .ok (.collected .dict a (x :: xs) b, rest) := by
  have listed := listed_of_spells more
  have next := listed.headD_append b rest
  have stop : endsTest ((us ++ b :: rest).headD .ended).kind = true := by
    rcases next with next | next <;> rw [next]
    · rfl
    · rw [closing]; rfl
  have plain : ((us ++ b :: rest).headD .ended).kind ≠ .keyword .for := by
    rcases next with next | next <;> rw [next]
    · decide
    · rw [closing]; decide
  rw [List.append_assoc, braced_entry complete opening first (by omega) stop, isAt_ite_neg plain,
    bind_run (moreItems_run (entry_run complete) opening_of_entry (by decide) rfl rfl listed
      (by omega) (by omega) closing rest)]
  rfl

/-- Braces with a `for` behind a test or an entry are a comprehension. -/
theorem braceComprehension_run {p : Phrase} {a b : Token} {ts us : List Token} {x : Node}
    {xs : List Node} (opening : a.kind = .symbol .lbrace) (closing : b.kind = .symbol .rbrace)
    (phrase : p = .test ∨ p = .entry) (body : Spells p ts [x]) (parts : Spells .clauses us xs)
    (loops : (us.headD .ended).kind = .keyword .for) (short : ts.length + us.length ≤ n)
    (rest : List Token) :
    braced inner (n + 1) (a :: (ts ++ us ++ b :: rest)) =
      .ok (.bare (.comprehension true a.pos x xs (.at b.pos)
        (Layout.comprehensionStaysOpen a.pos x xs b.pos)), rest) := by
  have solid : us ≠ [] := by rintro rfl; cases loops
  have next : ((us ++ b :: rest).headD .ended).kind = .keyword .for := by
    rwa [headD_append solid]
  have stop : endsTest ((us ++ b :: rest).headD .ended).kind = true := by rw [next]; rfl
  have inside := comprehension_run complete parts (by omega) (.inr rfl) closing a x rest
  rw [List.append_assoc]
  rcases phrase with rfl | rfl
  · rw [braced_test complete opening body (by omega) stop (by rw [next]; decide),
      isAt_ite_pos next, inside]
    rfl
  · rw [braced_entry complete opening body (by omega) stop, isAt_ite_pos next, inside]
    rfl

/-- Every atom is read. -/
theorem atom_run : CompletesPhrase (atom inner (n + 1)) .atom (· != .string) (n + 1) := by
  intro ts rest v spells short stop
  have string : (rest.headD .ended).kind ≠ .string := by simpa using stop
  cases spells with
  | name named => exact atom_name named
  | number kind => exact atom_number kind
  | @strings ts first others kinds literals =>
      cases ts with
      | nil => cases literals
      | cons t ts =>
          rw [List.cons_append, atom_string (kinds t (by simp)), ← List.cons_append]
          exact strings_complete kinds literals string
  | unit opening closing =>
      exact (atom_paren opening).trans (unit_run opening closing)
  | paren opening closing inside =>
      simp only [List.length_cons, List.length_append, List.length_nil] at short
      simp only [List.cons_append, List.append_assoc, List.nil_append]
      exact (atom_paren opening).trans
        (parenthesized_run complete opening closing inside (by omega) rest)
  | tuple opening closing first more several =>
      simp only [List.length_cons, List.length_append, List.length_nil] at short
      rw [List.cons_append, List.append_assoc, List.singleton_append, atom_paren opening]
      exact tuple_run complete opening closing first more several (by omega) rest
  | list opening closing inside =>
      simp only [List.length_cons, List.length_append, List.length_nil] at short
      rw [List.cons_append, List.append_assoc, List.singleton_append,
        atom_bracket opening]
      cases inside with
      | noItem => exact emptyList_run opening closing
      | someItems first more =>
          rw [List.length_append] at short
          exact list_run complete opening closing first more (by omega) rest
  | dict opening closing inside =>
      simp only [List.length_cons, List.length_append, List.length_nil] at short
      rw [List.cons_append, List.append_assoc, List.singleton_append,
        atom_brace opening]
      cases inside with
      | noItem => exact emptyDict_run opening closing
      | someItems first more =>
          rw [List.length_append] at short
          exact dict_run complete opening closing first more (by omega) rest
  | set opening closing first more =>
      simp only [List.length_cons, List.length_append, List.length_nil] at short
      rw [List.cons_append, List.append_assoc, List.singleton_append,
        atom_brace opening]
      exact set_run complete opening closing first more (by omega) rest
  | listComprehension opening closing body parts loops =>
      simp only [List.length_cons, List.length_append, List.length_nil] at short
      rw [List.cons_append, List.append_assoc, List.singleton_append,
        atom_bracket opening]
      exact listComprehension_run complete opening closing body parts loops (by omega) rest
  | braceComprehension opening closing phrase body parts loops =>
      simp only [List.length_cons, List.length_append, List.length_nil] at short
      rw [List.cons_append, List.append_assoc, List.singleton_append,
        atom_brace opening]
      exact braceComprehension_run complete opening closing phrase body parts loops (by omega) rest

/-! ## Operands -/

/-- An argument is a test, a starred test or a named one, told apart by the next token. -/
theorem argument_run : CompletesPhrase (argument inner) .argument endsArgument n := by
  intro ts rest v spells short stop
  obtain ⟨last, other⟩ : endsTest (rest.headD .ended).kind = true ∧
      (rest.headD .ended).kind ≠ .symbol .eq := by simpa [endsArgument] using stop
  have unstarred {ts : List Token} {x : Node} (first : Spells .test ts [x]) (rest : List Token) :
      ¬(((ts ++ rest).headD .ended).kind == .symbol .star ||
        ((ts ++ rest).headD .ended).kind == .symbol .starStar) = true := by
    simp only [Bool.or_eq_true, beq_iff_eq, not_or]
    exact ⟨head_of_test first rfl rest, head_of_test first rfl rest⟩
  cases spells with
  | starred star inside =>
      rw [List.length_cons] at short
      rw [argument, List.cons_append, peek_bind, List.headD_cons, if_pos (by simpa using star),
        bump_bind, bind_run (complete.test inside (by omega) last)]
      rfl
  | @keyword e ts us x y left eq right =>
      simp only [List.length_append, List.length_cons] at short
      have one : inner.test (ts ++ (e :: (us ++ rest))) = .ok (x, e :: (us ++ rest)) :=
        complete.test left (by omega) (by rw [List.headD_cons, eq]; rfl)
      rw [argument, List.append_assoc, List.cons_append, peek_bind, if_neg (unstarred left _),
        bind_run one, isAt_ite_pos (by exact eq), bump_bind,
        bind_run (complete.test right (by omega) last)]
      rfl
  | positional inside =>
      rw [argument, peek_bind, if_neg (unstarred inside rest),
        bind_run (complete.test inside short last), isAt_ite_neg other]
      rfl

omit complete in
theorem opening_of_argument {ts : List Token} {v : Node} (spells : Spells .argument ts [v]) :
    ts ≠ [] ∧ (ts.headD .ended).kind ≠ .symbol .rparen := by
  have opens := opens_of_spells spells rfl
  refine ⟨spells.ne_nil rfl, fun same => ?_⟩
  rw [same] at opens
  cases opens

theorem call_run {a b : Token} {us : List Token} {xs : List Node} (x : Node)
    (opening : a.kind = .symbol .lparen) (args : Spells (.items .argument) us xs)
    (closing : b.kind = .symbol .rparen) (short : us.length ≤ n) (rest : List Token) :
    call inner (n + 1) x (a :: (us ++ b :: rest)) =
      .ok (.bare (.call x a.pos xs (.at b.pos) (.ofParts a.pos xs b.pos)), rest) := by
  have all : items (.symbol .rparen) (argument inner) (n + 1) (us ++ b :: rest) =
      .ok ((xs, b), rest) := by
    cases args with
    | noItem =>
        rw [items, isAt_ite_pos (by exact closing)]
        rfl
    | someItems first more =>
        rw [List.length_append] at short
        exact items_run (argument_run complete) opening_of_argument (by decide) rfl rfl first
          (listed_of_spells more) short (by omega) closing rest
  rw [call, bind_run (expect_run opening), bind_run all]
  rfl

omit complete in
/-- Reading a part that may be missing. -/
theorem maybe_run {β : Type} {r : Reader Node} {p : Phrase} {ends : Kind → Bool}
    (each : CompletesPhrase r p ends n) {ts rest : List Token} {vs : List Node}
    (spells : Spells (.maybe p) ts vs) (short : ts.length ≤ n)
    (stop : ends (rest.headD .ended).kind = true) {missing : Bool}
    (absent : ts = [] → missing = true)
    (there : ∀ {v : Node}, Spells p ts [v] → missing = false) (k : Option Node → Reader β) :
    (if missing = true then pure none >>= k else some <$> r >>= k) (ts ++ rest) =
      k vs.head? rest := by
  cases spells with
  | missing =>
      rw [if_pos (absent rfl)]
      rfl
  | present inside =>
      rw [if_neg (by rw [there inside]; decide), map_eq_pure_bind, bind_assoc,
        bind_run (each inside short stop)]
      rfl

omit complete in
theorem not_at_colon {ts : List Token} {v : Node} (inside : Spells .test ts [v])
    (rest : List Token) :
    (((ts ++ rest).headD .ended).kind == .symbol .colon ||
      ((ts ++ rest).headD .ended).kind == .symbol .rbrack) = false :=
  Bool.or_eq_false_iff.mpr ⟨beq_eq_false_iff_ne.mpr (head_of_test inside rfl rest),
    beq_eq_false_iff_ne.mpr (head_of_test inside rfl rest)⟩

/-- A slice with one colon has no step. -/
theorem slice_run {b c : Token} {vs : List Token} {upper : List Node} (x : Node) (a : Token)
    (lower : Option Node) (colon : c.kind = .symbol .colon) (stop : Spells (.maybe .test) vs upper)
    (closing : b.kind = .symbol .rbrack) (short : vs.length ≤ n) (rest : List Token) :
    sliceAfter inner x a lower (c :: (vs ++ b :: rest)) =
      .ok (.bare (.slice x a.pos lower c.pos upper.head? none none b.pos), rest) := by
  rw [sliceAfter, isAt_ite_pos (by exact colon), bump_bind, isAt_bind, isAt_bind,
    maybe_run complete.test stop short (by rw [List.headD_cons, closing]; rfl)
      (fun none => by rw [none, List.nil_append, List.headD_cons, closing]; rfl)
      (fun inside => not_at_colon inside _)]
  beta_reduce
  rw [isAt_ite_neg (by rw [List.headD_cons, closing]; decide), bind_run (expect_run closing)]
  rfl

/-- A slice with two colons may have a step. -/
theorem stepSlice_run {b c d : Token} {vs ws : List Token} {upper step : List Node} (x : Node)
    (a : Token) (lower : Option Node) (colon : c.kind = .symbol .colon)
    (stop : Spells (.maybe .test) vs upper) (second : d.kind = .symbol .colon)
    (stride : Spells (.maybe .test) ws step) (closing : b.kind = .symbol .rbrack)
    (short : vs.length + ws.length ≤ n) (rest : List Token) :
    sliceAfter inner x a lower (c :: (vs ++ d :: (ws ++ b :: rest))) =
      .ok (.bare (.slice x a.pos lower c.pos upper.head? (some d.pos) step.head? b.pos), rest) := by
  rw [sliceAfter, isAt_ite_pos (by exact colon), bump_bind, isAt_bind, isAt_bind,
    maybe_run complete.test stop (by omega) (by rw [List.headD_cons, second]; rfl)
      (fun none => by rw [none, List.nil_append, List.headD_cons, second]; rfl)
      (fun inside => not_at_colon inside _)]
  beta_reduce
  rw [isAt_ite_pos (by exact second), bump_bind, isAt_bind,
    maybe_run complete.test stride (by omega) (by rw [List.headD_cons, closing]; rfl)
      (fun none => by rw [none, List.nil_append, List.headD_cons, closing]; rfl)
      (fun inside => beq_eq_false_iff_ne.mpr (head_of_test inside rfl _))]
  beta_reduce
  rw [bind_run (expect_run closing)]
  rfl

/-- A subscript whose first part, if it has one, ends at a colon. -/
theorem subscript_slice {a c : Token} {us : List Token} {lower : List Node} (x : Node)
    (opening : a.kind = .symbol .lbrack) (start : Spells (.maybe .expression) us lower)
    (colon : c.kind = .symbol .colon) (short : us.length ≤ n) (rest : List Token) :
    subscript inner (n + 1) x (a :: (us ++ c :: rest)) =
      sliceAfter inner x a lower.head? (c :: rest) := by
  rw [subscript, bind_run (expect_run opening)]
  cases start with
  | missing => exact isAt_ite_pos (by exact colon)
  | present inside =>
      have starts : startsTest (us.headD .ended).kind = true := opens_of_spells inside rfl
      have other : ((us ++ c :: rest).headD .ended).kind ≠ .symbol .colon := by
        intro same
        rw [headD_append (inside.ne_nil rfl)] at same
        rw [same] at starts
        cases starts
      rw [isAt_ite_neg other,
        bind_run (expression_run complete.test (Nat.lt_succ_self n) inside short
          (by rw [List.headD_cons, colon]; rfl)),
        isAt_ite_neg (by rw [List.headD_cons, colon]; decide)]
      rfl

theorem index_run {a b : Token} {us : List Token} {y : Node} (x : Node)
    (opening : a.kind = .symbol .lbrack) (place : Spells .expression us [y])
    (closing : b.kind = .symbol .rbrack) (short : us.length ≤ n) (rest : List Token) :
    subscript inner (n + 1) x (a :: (us ++ b :: rest)) =
      .ok (.bare (.index x a.pos y b.pos), rest) := by
  have starts : startsTest (us.headD .ended).kind = true := opens_of_spells place rfl
  have other : ((us ++ b :: rest).headD .ended).kind ≠ .symbol .colon := by
    intro same
    rw [headD_append (place.ne_nil rfl)] at same
    rw [same] at starts
    cases starts
  rw [subscript, bind_run (expect_run opening), isAt_ite_neg other,
    bind_run (expression_run complete.test (Nat.lt_succ_self n) place short
      (by rw [List.headD_cons, closing]; rfl)), isAt_ite_pos (by exact closing)]
  rfl

end Atoms

/-! ## Chains -/

section Chains

variable {first : Reader Node} {loop : Nat → Node → Reader Node} {ends : Kind → Bool}
  {ts us : List Token} {x y : Node}

/-- Reading a chain from its first part on arrives where the loop goes on from the node `x`. -/
def Goes (first : Reader Node) (loop : Nat → Node → Reader Node) (ends : Kind → Bool)
    (ts : List Token) (x : Node) : Prop :=
  ∃ k, k < ts.length ∧ ∀ (m : Nat) ⦃rest : List Token⦄, ends (rest.headD .ended).kind = true →
    (first >>= loop (m + k)) (ts ++ rest) = loop m x rest

theorem Goes.start (solid : ts ≠ [])
    (reads : ∀ ⦃rest : List Token⦄, ends (rest.headD .ended).kind = true →
      first (ts ++ rest) = .ok (x, rest)) : Goes first loop ends ts x := by
  refine ⟨0, List.length_pos_iff.mpr solid, fun m rest stop => ?_⟩
  rw [bind_run (reads stop)]
  rfl

/-- A chain goes on by one part if the loop does so in one turn. -/
theorem Goes.step (goes : Goes first loop ends ts x) (solid : us ≠ [])
    (follows : ends (us.headD .ended).kind = true)
    (one : ∀ (m : Nat) ⦃rest : List Token⦄, ends (rest.headD .ended).kind = true →
      loop (m + 1) x (us ++ rest) = loop m y rest) : Goes first loop ends (ts ++ us) y := by
  obtain ⟨k, bound, runs⟩ := goes
  have more := List.length_pos_iff.mpr solid
  refine ⟨k + 1, by rw [List.length_append]; omega, fun m rest stop => ?_⟩
  have run := @runs (m + 1) (us ++ rest) (by rwa [headD_append solid])
  rw [List.append_assoc, ← one m stop, ← run, Nat.add_right_comm m 1 k, Nat.add_assoc m k 1]

theorem Goes.run (goes : Goes first loop ends ts x) {n : Nat} (short : ts.length ≤ n)
    {rest : List Token} (stop : ends (rest.headD .ended).kind = true)
    (last : ∀ m : Nat, loop (m + 1) x rest = .ok (x, rest)) :
    (first >>= loop n) (ts ++ rest) = .ok (x, rest) := by
  obtain ⟨k, bound, runs⟩ := goes
  obtain ⟨m, rfl⟩ : ∃ m, n = m + 1 + k := ⟨n - k - 1, by omega⟩
  rw [runs (m + 1) stop, last]

end Chains

section Operands

variable {inner : Inner} {n : Nat} (complete : inner.Complete n)
include complete

omit complete in
/-- The loop over suffixes ends where none follows. -/
theorem suffixes_stop {rest : List Token} (stop : endsOperand (rest.headD .ended).kind = true)
    (m : Nat) (x : Node) : suffixes inner n (m + 1) x rest = .ok (x, rest) := by
  rw [suffixes, peek_bind]
  generalize (rest.headD .ended).kind = kind at stop
  split
  · cases stop
  · cases stop
  · cases stop
  · rfl

/-- An operand is a chain of suffixes on an atom, by induction on how it is spelled. -/
theorem suffixes_goes {ts : List Token} {x : Node} (spells : Spells .operand ts [x])
    (short : ts.length ≤ n + 1) :
    Goes (atom inner (n + 1)) (suffixes inner (n + 1)) (· != .string) ts x := by
  generalize phrase : Phrase.operand = p at spells
  generalize single : [x] = vs at spells
  induction spells generalizing x with
  | @atom ts x plain =>
      cases single
      exact .start (plain.ne_nil rfl) fun rest stop => atom_run complete plain short stop
  | @dot d t ts x _ dot named ih =>
      cases single
      rw [List.length_append] at short
      refine (ih (by omega) rfl rfl).step (by simp) (by rw [List.headD_cons, dot]; rfl) ?_
      intro m rest _
      show suffixes inner (n + 1) (m + 1) x (d :: t :: rest) = _
      rw [suffixes, peek_bind, List.headD_cons, dot]
      show (bump >>= _) (d :: t :: rest) = _
      rw [bump_bind, bind_run (expectName_run named)]
  | @call a b ts us x xs callee opening args closing ih =>
      cases single
      simp only [List.length_append, List.length_cons, List.length_nil] at short
      refine (ih (by omega) rfl rfl).step (by simp) (by rw [List.headD_cons, opening]; rfl) ?_
      intro m rest _
      rw [suffixes, List.cons_append, List.append_assoc, List.singleton_append, peek_bind,
        List.headD_cons, opening]
      exact bind_run (call_run complete x opening args closing (by omega) rest)
  | @index a b ts us x y callee opening place closing ih =>
      cases single
      simp only [List.length_append, List.length_cons, List.length_nil] at short
      refine (ih (by omega) rfl rfl).step (by simp) (by rw [List.headD_cons, opening]; rfl) ?_
      intro m rest _
      rw [suffixes, List.cons_append, List.append_assoc, List.singleton_append, peek_bind,
        List.headD_cons, opening]
      exact bind_run (index_run complete x opening place closing (by omega) rest)
  | @slice a b c ts us vs x lower upper callee opening start colon stop closing ih =>
      cases single
      simp only [List.length_append, List.length_cons, List.length_nil] at short
      refine (ih (by omega) rfl rfl).step (by simp) (by rw [List.headD_cons, opening]; rfl) ?_
      intro m rest _
      have part := (subscript_slice complete x opening start colon (by omega)
        (vs ++ b :: rest)).trans
        (slice_run complete x a lower.head? colon stop closing (by omega) rest)
      simp only [List.cons_append, List.append_assoc, List.nil_append]
      rw [suffixes, peek_bind, List.headD_cons, opening]
      exact bind_run part
  | @stepSlice a b c d ts us vs ws x lower upper step callee opening start colon stop second stride
      closing ih =>
      cases single
      simp only [List.length_append, List.length_cons, List.length_nil] at short
      refine (ih (by omega) rfl rfl).step (by simp) (by rw [List.headD_cons, opening]; rfl) ?_
      intro m rest _
      have part := (subscript_slice complete x opening start colon (by omega)
        (vs ++ d :: (ws ++ b :: rest))).trans
        (stepSlice_run complete x a lower.head? colon stop second stride closing (by omega) rest)
      simp only [List.cons_append, List.append_assoc, List.nil_append]
      rw [suffixes, peek_bind, List.headD_cons, opening]
      exact bind_run part
  | _ => cases phrase

theorem operandWith_run :
    CompletesPhrase (operandWith inner (n + 1)) .operand endsOperand (n + 1) := by
  intro ts rest v spells short stop
  refine (suffixes_goes complete spells short).run short ?_ fun m => suffixes_stop stop m v
  generalize (rest.headD .ended).kind = kind at stop
  cases kind <;> first | rfl | cases stop

/-! ## Operators -/

/-- Signs are read from the outside in, by induction on a bound of their number. -/
theorem signed_run (m : Nat) :
    ∀ {ts rest : List Token} {x : Node}, Spells (.layer 0) ts [x] → ts.length ≤ n + 1 →
      ts.length ≤ m → endsOperand (rest.headD .ended).kind = true →
      signed inner (n + 1) m (ts ++ rest) = .ok (x, rest) := by
  induction m with
  | zero =>
      intro ts rest x spells _ bound
      exact absurd (List.length_pos_iff.mpr (spells.ne_nil rfl)) (by omega)
  | succ m ih =>
      intro ts rest x spells short bound stop
      cases spells with
      | operand plain =>
          have opens : opens .operand (ts.headD .ended).kind = true := opens_of_spells plain rfl
          have starts : isSign ((ts ++ rest).headD .ended).kind = false := by
            rw [headD_append (plain.ne_nil rfl)]
            simp only [Reader.opens, Bool.and_eq_true, Bool.not_eq_true'] at opens
            exact opens.1.2
          rw [signed, peek_bind, if_neg (by rw [starts]; decide)]
          exact operandWith_run complete plain short stop
      | @sign s ts x sign inside =>
          rw [List.length_cons] at short bound
          rw [signed, List.cons_append, peek_bind, List.headD_cons, if_pos sign, bump_bind,
            bind_run (ih inside (by omega) (by omega) stop)]
          rfl

omit complete in
/-- An operator is found where its tokens stand. -/
theorem operator?_some {layer : Nat} {os us : List Token} {pos : Position} {op : String}
    (tokens : OperatorTokens layer (us.headD .ended).kind os pos op) :
    operator? layer (os ++ us) = .ok (some (pos, op), us) := by
  cases tokens with
  | @single t known notWord alone =>
      have other : ¬(t.kind == .keyword .is && (us.headD .ended).kind == .keyword .not) = true := by
        simpa using alone
      rw [operator?, List.singleton_append, peek_bind, List.headD_cons, if_pos (beq_of_eq known),
        if_neg (by simpa using notWord), bump_bind, isAt_bind, if_neg other]
      rfl
  | @notIn s t known first second =>
      rw [operator?, List.cons_append, List.singleton_append, peek_bind, List.headD_cons,
        if_pos (beq_of_eq known), if_pos (beq_of_eq first), peekSecond_bind]
      show (if (t.kind == .keyword .in) = true then _ else _ : Reader _) (s :: t :: us) = _
      rw [if_pos (beq_of_eq second), bump_bind, bump_bind]
      rfl
  | @isNot s t known first second =>
      have both :
          (s.kind == .keyword .is && ((t :: us).headD .ended).kind == .keyword .not) = true := by
        simp [first, second]
      rw [operator?, List.cons_append, List.singleton_append, peek_bind, List.headD_cons,
        if_pos (beq_of_eq known), if_neg (by rw [first]; decide), bump_bind, isAt_bind,
        if_pos both, bump_bind]
      rfl

omit complete in
theorem operator?_none {layer : Nat} {ts : List Token}
    (other : layer? (ts.headD .ended).kind ≠ some layer) :
    operator? layer ts = .ok (none, ts) := by
  rw [operator?, peek_bind, if_neg (by simpa using other)]
  rfl

omit complete in
theorem OperatorTokens.head {layer : Nat} {next : Kind} {os : List Token} {pos : Position}
    {op : String} (tokens : OperatorTokens layer next os pos op) :
    os ≠ [] ∧ layer? (os.headD .ended).kind = some layer := by
  cases tokens with
  | single known => exact ⟨by simp, known⟩
  | notIn known => exact ⟨by simp, known⟩
  | isNot known => exact ⟨by simp, known⟩

omit complete in
/-- Reading operators of one layer arrives where reading further ones starts. -/
theorem chain_goes {operand : Reader Node} {count : Nat} (small : count ≤ 8)
    (each : CompletesPhrase operand (.layer count) (endsLayer count) n) {ts : List Token} {x : Node}
    (spells : Spells (.layer (count + 1)) ts [x]) (short : ts.length ≤ n) :
    Goes operand (chain operand (9 - count)) (endsLayer count) ts x := by
  generalize phrase : Phrase.layer (count + 1) = p at spells
  generalize single : [x] = vs at spells
  induction spells generalizing x with
  | @tighter count' ts x inside =>
      cases phrase
      cases single
      exact .start (inside.ne_nil rfl) fun rest stop => each inside short stop
  | @binary count' ts os us pos op x y left operator right ih =>
      cases phrase
      cases single
      simp only [List.length_append] at short
      obtain ⟨solid, known⟩ := OperatorTokens.head operator
      rw [List.append_assoc]
      refine (ih (by omega) rfl rfl).step (by simp [solid]) ?_ ?_
      · rw [headD_append solid]
        exact endsLayer_of_operator small known
      · intro m rest stop
        have tokens : OperatorTokens (9 - count) ((us ++ rest).headD .ended).kind os pos op := by
          rwa [headD_append (right.ne_nil rfl)]
        rw [chain, List.append_assoc, bind_run (operator?_some tokens)]
        exact bind_run (each right (by omega) stop)
  | _ => cases phrase

/-- Operators of the tightest layers are read. -/
theorem tower_run {count : Nat} (small : count ≤ 9) :
    CompletesPhrase (tower inner (n + 1) count) (.layer count) (endsLayer count) (n + 1) := by
  induction count with
  | zero =>
      intro ts rest v spells short stop
      exact signed_run complete (n + 1) spells short short (endsOperand_of_layer stop)
  | succ count ih =>
      intro ts rest v spells short stop
      refine (chain_goes (by omega) (ih (by omega)) spells short).run short
        (endsLayer_of_succ stop) fun m => ?_
      have other : layer? (rest.headD .ended).kind ≠ some (9 - count) := by
        intro known
        have bound := (Bool.and_eq_true_iff.mp stop).2
        rw [known, Option.all_some, decide_eq_true_eq] at bound
        omega
      rw [chain, bind_run (operator?_none other)]
      rfl

theorem disjunctionWith_run :
    CompletesPhrase (disjunctionWith inner (n + 1)) (.layer 9) (endsLayer 9) (n + 1) :=
  tower_run complete (Nat.le_refl 9)

/-! ## Parameters and tests -/

omit complete in
theorem endsParam_iff {types : Bool} {kind : Kind} :
    endsParam types kind = true ↔ endsTest kind = true ∧ kind ≠ .symbol .eq ∧ isName kind = false ∧
      (types = true → kind ≠ .symbol .colon) := by
  cases types <;> simp [endsParam, endsArgument, and_assoc]

theorem default_run {e : Token} {us : List Token} {y : Node} (x : Node) (eq : e.kind = .symbol .eq)
    (value : Spells .test us [y]) (short : us.length ≤ n) {rest : List Token}
    (stop : endsTest (rest.headD .ended).kind = true) :
    defaultAfter inner x (e :: (us ++ rest)) = .ok (.joined true x e.pos e.text y, rest) := by
  rw [defaultAfter, isAt_ite_pos (by exact eq), bump_bind,
    bind_run (complete.test value short stop)]
  rfl

omit complete in
theorem default_none (x : Node) {rest : List Token}
    (other : (rest.headD .ended).kind ≠ .symbol .eq) :
    defaultAfter inner x rest = .ok (x, rest) := by
  rw [defaultAfter, isAt_ite_neg other]
  rfl

omit complete in
/-- A parameter that starts with a name goes on with a type or a default value. -/
theorem param_named {types : Bool} {close : Kind} {t : Token} (named : isName t.kind = true)
    {us : List Token} :
    param inner types close (t :: us) =
      (isAt (.symbol .colon) >>= fun colon =>
        if (types && colon) = true then
          bump >>= fun colon => inner.test >>= fun type =>
            defaultAfter inner (.bare (.typed ⟨t.pos, t.text, .none⟩ colon.pos type))
        else defaultAfter inner (.ofName t)) us := by
  obtain kind | kind : t.kind = .ident ∨ t.kind = .keyword .load := by
    unfold isName at named
    split at named
    · exact .inl ‹_›
    · exact .inr ‹_›
    · cases named
  · rw [param, peek_bind, List.headD_cons, kind]
    rfl
  · rw [param, peek_bind, List.headD_cons, kind]
    rfl

/-- A parameter is read, by cases of how it is spelled. -/
theorem param_run (types : Bool) (close : Kind) :
    CompletesPhrase (param inner types close) (.param types) (endsParam types) n := by
  intro ts rest v spells short stop
  obtain ⟨last, noDefault, noName, noType⟩ := endsParam_iff.mp stop
  have untyped {us : List Token} (other : types = true → (us.headD .ended).kind ≠ .symbol .colon) :
      ¬(types && (us.headD .ended).kind == .symbol .colon) = true := by
    simpa using other
  cases spells with
  | starStarParam star named =>
      rw [param, List.cons_append, List.singleton_append, peek_bind, List.headD_cons, star]
      show (bump >>= _) _ = _
      rw [bump_bind, bind_run (expectName_run named)]
      rfl
  | starParam star named =>
      rw [param, List.cons_append, List.singleton_append, peek_bind, List.headD_cons, star]
      show (bump >>= _) _ = _
      rw [bump_bind, peek_bind, List.headD_cons, if_pos named]
      rfl
  | bareStar star =>
      rw [param, List.singleton_append, peek_bind, List.headD_cons, star]
      show (bump >>= _) _ = _
      rw [bump_bind, peek_bind, if_neg (by rw [noName]; decide)]
      rfl
  | plainParam named =>
      rw [List.singleton_append, param_named named, isAt_bind, if_neg (untyped noType),
        default_none _ noDefault]
  | @defaultParam _ t e ts y named eq value =>
      simp only [List.length_cons] at short
      simp only [List.cons_append]
      rw [param_named named, isAt_bind, if_neg (untyped (by simp [eq])),
        default_run complete _ eq value (by omega) last]
  | @typedParam t c ts x named colon type =>
      simp only [List.length_cons] at short
      simp only [List.cons_append]
      rw [param_named named, isAt_bind, if_pos (by simp [colon]), bump_bind,
        bind_run (complete.test type (by omega) last), default_none _ noDefault]
  | @typedDefaultParam t c e ts us x y named colon type eq value =>
      simp only [List.length_cons, List.length_append] at short
      have one : inner.test (ts ++ (e :: (us ++ rest))) = .ok (x, e :: (us ++ rest)) :=
        complete.test type (by omega) (by rw [List.headD_cons, eq]; rfl)
      simp only [List.cons_append, List.append_assoc]
      rw [param_named named, isAt_bind, if_pos (by simp [colon]), bump_bind, bind_run one,
        default_run complete _ eq value (by omega) last]

/-- Parameters are read up to the closing token, by induction on how they are spelled. -/
theorem params_run {types : Bool} {close : Kind} (other : close ≠ .symbol .comma)
    (closes : endsParam types close = true) (opening : opens (.param types) close = false)
    {us : List Token} {xs : List Node} (spells : Spells (.params types) us xs)
    (short : us.length ≤ n) {m : Nat} (bound : us.length < m) {d : Token} (closing : d.kind = close)
    (rest : List Token) : params inner types close m (us ++ d :: rest) = .ok (xs, d :: rest) := by
  have starts {ts : List Token} {v : Node} (first : Spells (.param types) ts [v])
      (rest : List Token) : ((ts ++ rest).headD .ended).kind ≠ close := by
    intro same
    have opens := opens_of_spells first rfl
    rw [headD_append (first.ne_nil rfl)] at same
    rw [same, opening] at opens
    cases opens
  generalize phrase : Phrase.params types = p at spells
  induction spells generalizing m with
  | noParam =>
      obtain ⟨m, rfl⟩ := Nat.exists_eq_add_of_lt bound
      rw [params, isAt_ite_pos (by exact closing)]
      rfl
  | @lastParam types' ts x inside =>
      cases phrase
      obtain ⟨m, rfl⟩ := Nat.exists_eq_add_of_lt bound
      have stop : endsParam types ((d :: rest).headD .ended).kind = true := by
        rw [List.headD_cons, closing, closes]
      have one := param_run complete types close inside short stop
      rw [params, isAt_ite_neg (starts inside _), bind_run one,
        isAt_ite_neg (by rwa [List.headD_cons, closing]), isAt_ite_pos (by exact closing)]
      rfl
  | @moreParams types' c ts us x xs first comma more _ ih =>
      cases phrase
      obtain ⟨m, rfl⟩ := Nat.exists_eq_add_of_lt bound
      simp only [List.length_append, List.length_cons] at short
      have stop : endsParam types ((c :: (us ++ d :: rest)).headD .ended).kind = true := by
        rw [List.headD_cons, comma]
        cases types <;> rfl
      have one := param_run complete types close first (by omega) stop
      have others := ih (by omega) (m := (ts ++ c :: us).length + m)
        (by simp only [List.length_append, List.length_cons]; omega) rfl
      rw [params, List.append_assoc, List.cons_append, isAt_ite_neg (starts first _), bind_run one,
        isAt_ite_pos (by exact comma), bump_bind, bind_run others]
      rfl
  | _ => cases phrase

theorem lambda_run {a c : Token} {ts us : List Token} {xs : List Node} {y : Node}
    (opening : a.kind = .keyword .lambda) (parts : Spells (.params false) ts xs)
    (colon : c.kind = .symbol .colon) (body : Spells .test us [y])
    (short : ts.length + us.length ≤ n) {rest : List Token}
    (stop : endsTest (rest.headD .ended).kind = true) :
    lambda inner (n + 1) (a :: (ts ++ c :: (us ++ rest))) =
      .ok (.bare (.lambda a.pos xs c.pos y), rest) := by
  rw [lambda, bind_run (expect_run opening), bind_run (params_run complete (by decide) rfl rfl parts
    (by omega) (by omega) colon _), bind_run (expect_run colon),
    bind_run (complete.test body (by omega) stop)]
  rfl

/-- A test is read, with a condition behind it or without. -/
theorem testWith_run : CompletesPhrase (testWith inner (n + 1)) .test endsTest (n + 1) := by
  intro ts rest v spells short stop
  have plain {ts : List Token} {x : Node} (first : Spells (.layer 9) ts [x]) (rest : List Token) :
      ((ts ++ rest).headD .ended).kind ≠ .keyword .lambda := by
    intro same
    have opens := opens_of_spells first rfl
    rw [headD_append (first.ne_nil rfl)] at same
    rw [same] at opens
    cases opens
  cases spells with
  | disjunction inside =>
      rw [testWith, isAt_ite_neg (plain inside rest),
        bind_run (disjunctionWith_run complete inside short (endsLayer_of_test stop)),
        isAt_ite_neg (ne_if_of_endsTest stop)]
      rfl
  | @conditional a b ts us vs x y z yes tests cond otherwise no =>
      simp only [List.length_append, List.length_cons] at short
      have stopIf : endsLayer 9 ((a :: (us ++ b :: (vs ++ rest))).headD .ended).kind = true := by
        rw [List.headD_cons, tests]
        rfl
      have stopElse : endsLayer 9 ((b :: (vs ++ rest)).headD .ended).kind = true := by
        rw [List.headD_cons, otherwise]
        rfl
      have one := disjunctionWith_run complete yes (by omega) stopIf
      have two := disjunctionWith_run complete cond (by omega) stopElse
      simp only [List.append_assoc, List.cons_append]
      rw [testWith, isAt_ite_neg (plain yes _), bind_run one, isAt_ite_pos (by exact tests),
        bump_bind, bind_run two, bind_run (expect_run otherwise),
        bind_run (complete.test no (by omega) stop)]
      rfl
  | lambda opening parts colon body =>
      simp only [List.length_append, List.length_cons] at short
      simp only [List.append_assoc, List.cons_append]
      rw [testWith, isAt_ite_pos (by exact opening)]
      exact lambda_run complete opening parts colon body (by omega) stop

end Operands

/-! ## The knot -/

/-- The ways into the grammar read every phrase that the bound allows. -/
theorem innerAt_complete (n : Nat) : (innerAt n).Complete n := by
  have nothing {p : Phrase} {ts : List Token} {v : Node} (spells : Spells p ts [v])
      (solid : p.isSolid = true) : ¬ts.length ≤ 0 := by
    have positive := List.length_pos_iff.mpr (spells.ne_nil solid)
    omega
  induction n with
  | zero =>
      constructor
      · exact fun ts rest v spells short _ => absurd short (nothing spells rfl)
      · exact fun ts rest v spells short _ => absurd short (nothing spells rfl)
      · exact fun ts rest v spells short _ => absurd short (nothing spells rfl)
  | succ n ih =>
      constructor
      · intro ts rest v spells short stop
        exact (test_succ n _).trans (testWith_run ih spells short stop)
      · intro ts rest v spells short stop
        exact (disjunction_succ n _).trans (disjunctionWith_run ih spells short stop)
      · intro ts rest v spells short stop
        exact (operand_succ n _).trans (operandWith_run ih spells short stop)

end Starlark.Reader
