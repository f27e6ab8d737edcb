import Starlark.Proofs.Script.Brackets
import Starlark.Proofs.Throughout.Statement
import Starlark.Proofs.WellFormed

/-!
# Parentheses of trees that are read

The layers of the grammar and the strengths of the printer are one and the same
order. So a tree that is read carries the parentheses that it needs, and printing
adds none (`File.carriesParens_of_ofChars`), apart from three places: around
literals that stood next to each other, behind the star of an argument, and around
a `lambda` behind `else`.

Each phrase of the grammar promises a strength (`Phrase.rank`), and each rule asks
its parts for phrases that promise what printing asks for (`Spells.stands`).
-/

set_option autoImplicit false

namespace Starlark

/-! ## Where parentheses are added -/

namespace Form

/-- A form that, comments aside, is made of literals that stood next to each other. -/
def IsJoint (f : Form) : Prop :=
  ∃ first rest, rest ≠ [] ∧ f.plain = (Node.ofStrings first rest).form

def isLambda : Form → Bool
  | .lambda .. => true
  | _ => false

/-- The arguments of a call. -/
def arguments : Form → List Node
  | .call _ _ args _ _ => args
  | _ => []

/-- The parts that may have too little strength. -/
inductive Excuses : Form → Ask → Prop
  | joined {f : Form} {a : Ask} (joint : a.part.form.IsJoint) : Excuses f a
  | starred {pos : Position} {op : String} {x : Option Node} {a : Ask} (star : op ∈ stars) :
      Excuses (.unary pos op x) a
  | lambda {yes test no : Node} {p q : Position} (lambda : no.form.isLambda = true) :
      Excuses (.conditional yes p test q no) ⟨.ifElse, no⟩

/-- A form whose parts have the strength that is asked of them, or are excused. -/
def Suited (f : Form) : Prop :=
  ∀ a ∈ f.asks, a.part.form.needsParens a.strength = true → f.Excuses a

end Form

theorem Form.needsParens_iff {f : Form} {outer : Strength} :
    f.needsParens outer = true ↔ ∃ s ∈ f.strength?, s.rank < outer.rank := by
  unfold needsParens
  cases f.strength? <;> simp [Strength.isBelow]

namespace Ask

/-- Literals that stood next to each other aside, the part has the strength that is asked of it. -/
def Met (a : Ask) : Prop := a.part.form.needsParens a.strength = true → a.part.form.IsJoint

@[simp] theorem met_low (v : Node) : Met ⟨.low, v⟩ := by
  intro wrapped
  obtain ⟨s, _, below⟩ := Form.needsParens_iff.mp wrapped
  exact absurd below (Nat.not_lt_zero _)

@[simp] theorem met_asksLow (vs : List Node) : ∀ a ∈ asksLow vs, a.Met := by
  simp [asksLow]

end Ask

theorem Form.suited_of_met {f : Form} (met : ∀ a ∈ f.asks, a.Met) : f.Suited :=
  fun a member wrapped => .joined (met a member wrapped)

/-! ## Strengths of phrases -/

/-- The rank of the least strength that the nodes of a phrase have. -/
def Phrase.rank : Phrase → Nat
  | atom | operand => Strength.suffix.rank
  | layer count => Strength.unary.rank - count
  | test | expression => Strength.colon.rank
  | tail part | items part | maybe part => part.rank
  | _ => Strength.low.rank

theorem Phrase.rank_layer (count : Nat) : (layer count).rank = 14 - count := rfl

/-- A node that has the strength of a phrase, and whose parts have theirs. -/
structure Node.Stands (p : Phrase) (v : Node) : Prop where
  strong : v.form.IsJoint ∨ ∀ s ∈ v.form.strength?, p.rank ≤ s.rank
  suited : v.Throughout fun v => v.form.Suited

namespace Node

variable {p q : Phrase} {v : Node}

theorem Stands.weaken (stands : v.Stands p) (weaker : q.rank ≤ p.rank) : v.Stands q :=
  ⟨stands.strong.imp_right fun strong s has => weaker.trans (strong s has), stands.suited⟩

theorem Stands.met (stands : v.Stands p) {s : Strength} (enough : s.rank ≤ p.rank) :
    Ask.Met ⟨s, v⟩ := by
  intro wrapped
  obtain ⟨own, has, below⟩ := Form.needsParens_iff.mp wrapped
  refine stands.strong.resolve_right fun strong => ?_
  exact absurd (enough.trans (strong own has)) (Nat.not_le.mpr below)

/-- A node stands when its form is strong enough and its parts are. -/
theorem stands_bare {f : Form} (strong : ∀ s ∈ f.strength?, p.rank ≤ s.rank)
    (suited : f.Suited) (parts : ∀ c ∈ f.children, c.Throughout fun v => v.form.Suited) :
    (Node.bare f).Stands p :=
  ⟨.inr strong, throughout_iff.mpr ⟨suited, parts⟩⟩

/-- A form that can stand in every context and asks for nothing. -/
theorem stands_loose {f : Form} (strength : f.strength? = none)
    (asks : f.asks = asksLow f.children)
    (parts : ∀ c ∈ f.children, c.Throughout fun v => v.form.Suited) : (Node.bare f).Stands p := by
  refine stands_bare (by simp [strength]) (Form.suited_of_met ?_) parts
  rw [asks]
  exact Ask.met_asksLow _

/-- An operand with something behind it. -/
theorem stands_suffixed {f : Form} {x : Node} (rest : List Node)
    (strength : f.strength? = some .suffix) (asks : f.asks = ⟨.suffix, x⟩ :: asksLow rest)
    (inner : x.Stands .operand)
    (parts : ∀ c ∈ f.children, c.Throughout fun v => v.form.Suited) :
    (Node.bare f).Stands .operand := by
  refine stands_bare (by simp [strength, Phrase.rank]) (Form.suited_of_met ?_) parts
  rw [asks]
  exact List.forall_mem_cons.mpr ⟨inner.met (Nat.le_refl _), Ask.met_asksLow _⟩

/-- An operand behind a sign or a star; the operand may be missing. -/
theorem stands_signed {pos : Position} {op : String} {x : Option Node}
    (operand : ∀ v ∈ x.toList, v.Stands (.layer 0)) :
    (Node.bare (.unary pos op x)).Stands (.layer 0) := by
  refine stands_bare (by simp [Form.strength?, Phrase.rank]) (Form.suited_of_met ?_) ?_
  · exact List.forall_mem_map.mpr fun v member => (operand v member).met (Nat.le_refl _)
  · exact fun v member => (operand v member).suited

/-- Two parts joined by an assignment. -/
theorem stands_assigned {x y : Node} {pos : Position} {op : String} (left : x.Stands p)
    (target : Strength.assign.rank ≤ p.rank) (right : y.Stands q)
    (value : Strength.comma.rank ≤ q.rank) : (Node.joined true x pos op y).Stands .argument := by
  refine stands_bare (fun _ _ => Nat.zero_le _) (Form.suited_of_met ?_) ?_
  · exact List.forall_mem_cons.mpr
      ⟨left.met target, List.forall_mem_singleton.mpr (right.met value)⟩
  · exact List.forall_mem_cons.mpr ⟨left.suited, List.forall_mem_singleton.mpr right.suited⟩

end Node

/-! ## Layers -/

theorem Strength.rank_next {s : Strength} (inner : s ≠ .suffix) : s.next.rank = s.rank + 1 := by
  cases s <;> first | rfl | exact absurd rfl inner

/-- The strength of an operator is that of its layer. -/
theorem OperatorTokens.rank_eq {layer : Nat} {next : Token.Kind} {ts : List Token}
    {pos : Position} {op : String} (operator : OperatorTokens layer next ts pos op)
    (sound : SoundTokens ts) : (Strength.ofOperator op).rank = layer + 4 ∧ 0 < layer := by
  cases operator with
  | notIn known first =>
      rw [first] at known
      cases known
      decide
  | isNot known first =>
      rw [first] at known
      cases known
      decide
  | @single t known notWord =>
      have here := sound t (by simp)
      generalize kind : t.kind = k at known notWord
      unfold Reader.layer? at known
      split at known
      all_goals first
        | exact absurd rfl notWord
        | (cases known; done)
        | (cases known; rw [Token.text_of_symbol here kind]; decide)
        | (cases known; rw [Token.text_of_keyword here kind]; decide)

/-- Two operands joined by an operator of a layer. -/
theorem Node.stands_joined {count : Nat} {x y : Node} {pos : Position} {op : String}
    (left : x.Stands (.layer (count + 1))) (rank : (Strength.ofOperator op).rank + count = 13)
    (right : y.Stands (.layer count)) :
    (Node.joined false x pos op y).Stands (.layer (count + 1)) := by
  have next : (Strength.ofOperator op).next.rank = (Strength.ofOperator op).rank + 1 := by
    apply Strength.rank_next
    intro suffix
    rw [suffix, Strength.rank] at rank
    omega
  have here := Phrase.rank_layer (count + 1)
  have below := Phrase.rank_layer count
  refine stands_bare ?_ (Form.suited_of_met ?_) ?_
  · rintro _ ⟨⟩
    omega
  · refine List.forall_mem_cons.mpr ⟨left.met ?_, List.forall_mem_singleton.mpr (right.met ?_)⟩
    · omega
    · omega
  · exact List.forall_mem_cons.mpr ⟨left.suited, List.forall_mem_singleton.mpr right.suited⟩

/-! ## Literals that stood next to each other -/

/-- Strings are built without comments. -/
theorem Node.plain_ofStrings (first : StringLit) (rest : List StringLit) :
    (Node.ofStrings first rest).plain = Node.ofStrings first rest := by
  have folded : ∀ x : Node, x.plain = x → (rest.foldl
      (fun x lit => .joined false x lit.start "+" (.bare (.string lit))) x).plain =
        rest.foldl (fun x lit => .joined false x lit.start "+" (.bare (.string lit))) x := by
    induction rest with
    | nil => exact fun x same => same
    | cons lit rest ih =>
        intro x same
        refine ih _ ?_
        simp [Node.joined, Node.bare, Node.plain, Form.plain, same]
  exact folded _ rfl

/-- Several literals together stand as an atom, apart from the `+` they are joined by. -/
theorem Node.stands_ofStrings (first : StringLit) (rest : List StringLit) :
    (Node.ofStrings first rest).Stands .atom := by
  have literal (lit : StringLit) (p : Phrase) : (Node.bare (.string lit)).Stands p :=
    stands_bare nofun nofun nofun
  have folded : ∀ x : Node, x.Stands (.layer 2) → (rest.foldl
      (fun x lit => .joined false x lit.start "+" (.bare (.string lit))) x).Stands (.layer 2) := by
    induction rest with
    | nil => exact fun x stands => stands
    | cons lit rest ih =>
        intro x stands
        exact ih _ (stands_joined stands rfl (literal lit _))
  cases rest with
  | nil => exact literal first _
  | cons lit rest =>
      refine ⟨.inl ⟨first, lit :: rest, List.cons_ne_nil _ _, ?_⟩,
        (folded _ (literal first _)).suited⟩
      have plain := plain_ofStrings first (lit :: rest)
      generalize Node.ofStrings first (lit :: rest) = v at plain ⊢
      obtain ⟨c, f⟩ := v
      simpa [Node.plain] using congrArg Node.form plain

/-! ## Expressions -/

theorem Strength.ofOperator_ne_colon (op : String) : ofOperator op ≠ .colon := by
  unfold ofOperator
  split_ifs <;> simp

/-- Of all tests, only a `lambda` has less strength than a conditional. -/
theorem Node.Stands.isLambda {v : Node} (stands : v.Stands .test)
    (wrapped : v.form.needsParens .ifElse = true) : v.form.IsJoint ∨ v.form.isLambda = true := by
  refine stands.strong.imp_right fun strong => ?_
  obtain ⟨s, has, below⟩ := Form.needsParens_iff.mp wrapped
  have colon : s = .colon := by
    have least := strong s has
    cases s <;> simp [Phrase.rank, Strength.rank] at least below ⊢
  subst colon
  generalize v.form = f at has
  cases f with
  | lambda => rfl
  | binary assigns x p op =>
      cases assigns with
      | false => exact absurd (Option.some.inj has) (Strength.ofOperator_ne_colon op)
      | true => cases has
  | _ => cases has

/-- The nodes of a phrase have its strength. -/
theorem Spells.stands {p : Phrase} {ts : List Token} {vs : List Node} (spells : Spells p ts vs)
    (sound : SoundTokens ts) : ∀ v ∈ vs, v.Stands p := by
  have one {q : Phrase} {v : Node} : (∀ u ∈ [v], u.Stands q) ↔ v.Stands q :=
    List.forall_mem_singleton
  have suited {q : Phrase} {vs : List Node} (all : ∀ v ∈ vs, v.Stands q) :
      ∀ v ∈ vs, v.Throughout fun v => v.form.Suited := fun v member => (all v member).suited
  have first {q : Phrase} {vs : List Node} (all : ∀ v ∈ vs, v.Stands q) :
      ∀ v ∈ vs.head?.toList, v.Throughout fun v => v.form.Suited :=
    fun v member => suited all v (List.mem_of_mem_head? (Option.mem_toList.mp member))
  have both {q r : Phrase} {vs ws : List Node} (all : ∀ v ∈ vs, v.Stands q)
      (more : ∀ w ∈ ws, w.Stands r) : ∀ v ∈ vs ++ ws, v.Throughout fun v => v.form.Suited :=
    List.forall_mem_append.mpr ⟨suited all, suited more⟩
  have name {q : Phrase} (t : Token) : (Node.ofName t).Stands q := Node.stands_loose rfl rfl nofun
  induction spells with
  | name | plainParam => exact one.mpr (name _)
  | number | unit => exact one.mpr (Node.stands_loose rfl rfl nofun)
  | strings => exact one.mpr (Node.stands_ofStrings _ _)
  | paren _ _ _ ih | list _ _ _ ih | dict _ _ _ ih =>
      simp only [soundTokens_cons, soundTokens_append] at sound
      exact one.mpr (Node.stands_loose rfl rfl (suited (ih sound.2.1)))
  | tuple _ _ _ _ _ ih more | set _ _ _ _ ih more | listComprehension _ _ _ _ _ ih more
  | braceComprehension _ _ _ _ _ _ ih more =>
      simp only [soundTokens_cons, soundTokens_append] at sound
      exact one.mpr (Node.stands_loose rfl rfl (both (ih sound.2.1.1) (more sound.2.1.2)))
  | entry _ _ _ key value =>
      simp only [soundTokens_cons, soundTokens_append] at sound
      exact one.mpr (Node.stands_loose rfl rfl (both (key sound.1) (value sound.2.2)))
  | noClause | noParam | noMore | lastComma | noItem | missing => exact List.forall_mem_nil _
  | forClause _ _ _ _ _ bound range more =>
      simp only [soundTokens_cons, soundTokens_append] at sound
      refine List.forall_mem_cons.mpr ⟨Node.stands_bare (by simp [Form.strength?])
        (Form.suited_of_met ?_) ?_, more sound.2.2.2.2⟩
      · refine List.forall_mem_cons.mpr ⟨Ask.met_low _, List.forall_mem_singleton.mpr ?_⟩
        exact (one.mp (range sound.2.2.2.1)).met (Nat.le_refl _)
      · exact both (bound sound.2.1) (range sound.2.2.2.1)
  | ifClause _ _ _ cond more =>
      simp only [soundTokens_cons, soundTokens_append] at sound
      refine List.forall_mem_cons.mpr ⟨Node.stands_bare (by simp [Form.strength?])
        (Form.suited_of_met ?_) (suited (cond sound.2.1)), more sound.2.2⟩
      exact List.forall_mem_singleton.mpr ((one.mp (cond sound.2.1)).met (Nat.le_refl _))
  | atom _ ih | operand _ ih | disjunction _ ih | single _ ih | target _ ih | positional _ ih =>
      exact one.mpr ((one.mp (ih sound)).weaken (by decide))
  | tighter _ ih =>
      exact one.mpr ((one.mp (ih sound)).weaken (Nat.sub_le_sub_left (Nat.le_succ _) _))
  | dot _ _ _ ih =>
      rw [soundTokens_append] at sound
      exact one.mpr (Node.stands_suffixed [] rfl rfl (one.mp (ih sound.1))
        (suited (ih sound.1)))
  | @call _ _ _ _ _ xs _ _ _ _ callee args =>
      simp only [soundTokens_cons, soundTokens_append] at sound
      refine one.mpr (Node.stands_suffixed xs rfl rfl (one.mp (callee sound.1)) ?_)
      exact both (callee sound.1) (args sound.2.2.1)
  | @index _ _ _ _ _ y _ _ _ _ inner place =>
      simp only [soundTokens_cons, soundTokens_append] at sound
      refine one.mpr (Node.stands_suffixed [y] rfl rfl (one.mp (inner sound.1)) ?_)
      exact both (inner sound.1) (place sound.2.2.1)
  | slice _ _ _ _ _ _ inner start stop =>
      simp only [soundTokens_cons, soundTokens_append] at sound
      refine one.mpr (Node.stands_suffixed _ rfl rfl (one.mp (inner sound.1)) ?_)
      simp only [Form.children, List.forall_mem_cons, List.forall_mem_append]
      exact ⟨(one.mp (inner sound.1)).suited, ⟨first (start sound.2.2.1),
        first (stop sound.2.2.2.2.1)⟩, List.forall_mem_nil _⟩
  | stepSlice _ _ _ _ _ _ _ _ inner start stop stride =>
      simp only [soundTokens_cons, soundTokens_append] at sound
      refine one.mpr (Node.stands_suffixed _ rfl rfl (one.mp (inner sound.1)) ?_)
      simp only [Form.children, List.forall_mem_cons, List.forall_mem_append]
      exact ⟨(one.mp (inner sound.1)).suited, ⟨first (start sound.2.2.1),
        first (stop sound.2.2.2.2.1)⟩, first (stride sound.2.2.2.2.2.2.1)⟩
  | starred star _ ih =>
      rw [soundTokens_cons] at sound
      refine one.mpr (Node.stands_bare (fun _ _ => Nat.zero_le _) ?_ (suited (ih sound.2)))
      exact fun _ _ _ => .starred (Token.text_mem_stars sound.1 star)
  | keyword _ _ _ left right =>
      simp only [soundTokens_cons, soundTokens_append] at sound
      exact one.mpr (Node.stands_assigned (one.mp (left sound.1)) (by decide)
        (one.mp (right sound.2.2)) (by decide))
  | sign _ _ ih =>
      rw [soundTokens_cons] at sound
      exact one.mpr (Node.stands_signed (ih sound.2))
  | binary _ operator _ left right =>
      simp only [soundTokens_append] at sound
      obtain ⟨rank, layer⟩ := operator.rank_eq sound.1.2
      exact one.mpr
        (Node.stands_joined (one.mp (left sound.1.1)) (by omega) (one.mp (right sound.2)))
  | starStarParam | starParam =>
      refine one.mpr ((Node.stands_signed ?_).weaken (Nat.zero_le _))
      exact one.mpr (name _)
  | bareStar =>
      refine one.mpr ((Node.stands_signed ?_).weaken (Nat.zero_le _))
      exact List.forall_mem_nil _
  | defaultParam _ _ _ value =>
      simp only [soundTokens_cons] at sound
      exact one.mpr ((Node.stands_assigned (p := .atom) (name _) (by decide)
        (one.mp (value sound.2.2)) (by decide)).weaken (Nat.zero_le _))
  | typedParam _ _ _ type =>
      simp only [soundTokens_cons] at sound
      exact one.mpr (Node.stands_loose rfl rfl (suited (type sound.2.2)))
  | typedDefaultParam _ _ _ _ _ type value =>
      simp only [soundTokens_cons, soundTokens_append] at sound
      refine one.mpr ((Node.stands_assigned (p := .atom) ?_ (by decide)
        (one.mp (value sound.2.2.2.2)) (by decide)).weaken (Nat.zero_le _))
      exact Node.stands_loose rfl rfl (suited (type sound.2.2.1))
  | moreParams _ _ _ ih more =>
      simp only [soundTokens_cons, soundTokens_append] at sound
      refine List.forall_mem_cons.mpr ⟨(one.mp (ih sound.1)).weaken (Nat.zero_le _), ?_⟩
      exact more sound.2.2
  | conditional _ _ _ _ _ yes cond no =>
      simp only [soundTokens_cons, soundTokens_append] at sound
      refine one.mpr (Node.stands_bare (by rintro _ ⟨⟩; decide) ?_ ?_)
      · refine List.forall_mem_cons.mpr ⟨?_, List.forall_mem_cons.mpr ⟨?_,
          List.forall_mem_singleton.mpr ?_⟩⟩
        · exact fun wrapped => .joined ((one.mp (yes sound.1)).met (Nat.le_refl _) wrapped)
        · exact fun wrapped => .joined ((one.mp (cond sound.2.2.1)).met (Nat.le_refl _) wrapped)
        · intro wrapped
          rcases (one.mp (no sound.2.2.2.2)).isLambda wrapped with joint | lambda
          · exact .joined joint
          · exact .lambda lambda
      · refine List.forall_mem_cons.mpr ⟨(one.mp (yes sound.1)).suited, ?_⟩
        exact both (cond sound.2.2.1) (no sound.2.2.2.2)
  | lambda _ _ _ _ parts body =>
      simp only [soundTokens_cons, soundTokens_append] at sound
      refine one.mpr (Node.stands_bare (by rintro _ ⟨⟩; exact Nat.le_refl _)
        (Form.suited_of_met (Ask.met_asksLow _)) ?_)
      exact both (parts sound.2.1) (body sound.2.2.2)
  | several _ _ _ ih more | severalTargets _ _ _ ih more =>
      rw [soundTokens_append] at sound
      exact one.mpr (Node.stands_loose rfl rfl (both (ih sound.1) (more sound.2)))
  | oneMore _ _ _ ih more =>
      simp only [soundTokens_cons, soundTokens_append] at sound
      refine List.forall_mem_cons.mpr ⟨(one.mp (ih sound.2.1)).weaken (Nat.le_refl _), ?_⟩
      exact more sound.2.2
  | someItems _ _ ih more =>
      rw [soundTokens_append] at sound
      refine List.forall_mem_cons.mpr ⟨(one.mp (ih sound.1)).weaken (Nat.le_refl _), ?_⟩
      exact fun v member => (more sound.2 v member).weaken (Nat.le_refl _)
  | lastParam _ ih | present _ ih => exact one.mpr ((one.mp (ih sound)).weaken (Nat.le_refl _))

/-! ## Statements -/

/-- The parts of a small statement are as strong as they are asked to be. -/
theorem SmallStmt.suited {ts : List Token} {v : Node} (stmt : SmallStmt ts v)
    (lexical : LexicalTokens ts) : v.Throughout fun v => v.form.Suited := by
  have part {q : Phrase} {us : List Token} {x : Node} (spells : Spells q us [x])
      (lexical : LexicalTokens us) : x.Stands q :=
    List.forall_mem_singleton.mp (spells.stands (spells.inline.sound lexical))
  cases stmt with
  | returnNothing | branch | load =>
      apply Node.Stands.suited (p := .test)
      exact Node.stands_loose rfl rfl (List.forall_mem_nil _)
  | returnValue _ value =>
      rw [lexicalTokens_cons] at lexical
      apply Node.Stands.suited (p := .test)
      exact Node.stands_loose rfl rfl (List.forall_mem_singleton.mpr (part value lexical.2).suited)
  | assign left _ right =>
      simp only [lexicalTokens_cons, lexicalTokens_append] at lexical
      exact (Node.stands_assigned (part left lexical.1) (by decide) (part right lexical.2.2)
        (by decide)).suited
  | value plain => exact (part plain lexical).suited

theorem Form.suited_blocks : HoldsOfBlocks Suited := by
  intro f block
  refine suited_of_met ?_
  cases f with
  | defStmt | forStmt | ifStmt | commentBlock => exact Ask.met_asksLow _
  | _ => cases block

theorem Form.suited_parts : HoldsOfParts Suited where
  phrase spells sound v member := (spells.stands sound v member).suited
  small stmt lexical := stmt.suited lexical

/-! ## Comments do not matter -/

/-- The same of the part without its comments. -/
def Ask.plain (a : Ask) : Ask := ⟨a.strength, a.part.plain⟩

theorem Form.strength?_plain (f : Form) : f.plain.strength? = f.strength? := by
  cases f with
  | binary assigns => cases assigns <;> rfl
  | _ => rfl

/-- What is asked of the parts does not depend on comments. -/
theorem Form.asks_plain (f : Form) : f.plain.asks = f.asks.map Ask.plain := by
  have low (vs : List Node) : (asksLow vs).map Ask.plain = asksLow (vs.map Node.plain) := by
    simp [asksLow, Ask.plain]
  have option (x : Option Node) : (plainOption x).toList = x.toList.map Node.plain := by
    cases x <;> rfl
  have parts := f.children_plain
  cases f with
  | binary assigns => cases assigns <;> rfl
  | slice x p lower q upper second step =>
      cases second <;> simp [plain, asks, low, option, Ask.plain]
  | unary p op x => cases x <;> rfl
  | call => simp [plain, asks, low, plainList_eq_map, Ask.plain]
  | dot | index | conditional | forClause | ifClause => rfl
  | _ => exact (congrArg asksLow parts).trans (low _).symm

theorem Form.isLambda_plain (f : Form) : f.plain.isLambda = f.isLambda := by cases f <;> rfl

/-- So whether the parts are suited does not either. -/
theorem Form.suited_of_plain {f g : Form} (same : f.plain = g.plain) (suited : g.Suited) :
    f.Suited := by
  intro a member wrapped
  obtain ⟨b, inside, plain⟩ : ∃ b ∈ g.asks, b.plain = a.plain := by
    have listed := List.mem_map_of_mem (f := Ask.plain) member
    rw [← f.asks_plain, same, g.asks_plain] at listed
    exact List.mem_map.mp listed
  obtain ⟨s, ⟨_, x⟩⟩ := a
  obtain ⟨s', ⟨_, y⟩⟩ := b
  obtain ⟨rfl, nodes⟩ : s' = s ∧ _ := Ask.mk.inj plain
  have forms : y.plain = x.plain := congrArg Node.form nodes
  have wrapped' : y.needsParens s' = true := by
    rw [needsParens, ← y.strength?_plain, forms, x.strength?_plain]
    exact wrapped
  cases suited _ inside wrapped' with
  | joined joint =>
      obtain ⟨first, rest, several, whole⟩ := joint
      exact .joined ⟨first, rest, several, forms.symm.trans whole⟩
  | starred star =>
      cases f with
      | unary pos op x =>
          simp only [Form.plain, unary.injEq] at same
          exact .starred (same.2.1 ▸ star)
      | _ => cases same
  | lambda lambda =>
      cases f with
      | conditional yes p test q no =>
          obtain rfl : no = .mk _ x := by simpa [asks, eq_comm] using member
          refine .lambda ?_
          rw [Node.form_mk, ← x.isLambda_plain, ← forms, y.isLambda_plain]
          exact lambda
      | _ => cases same

/-- Whether parts are excused does not depend on comments. -/
theorem Node.suited_stable : Stable fun v => v.form.Suited := by
  rintro ⟨_, f⟩ ⟨_, g⟩ same _ suited
  exact Form.suited_of_plain (congrArg Node.form same) suited

/-! ## Where stars stand -/

/-- The node plays a part, that of an argument only when it is one of some arguments. -/
def Node.IsCast (args : List Node) (v : Node) : Prop :=
  ∃ r, v.Plays r ∧ (r = .argument → v ∈ args)

section Casts

variable {args : List Node} {r : Role}

theorem Node.Plays.isCast {v : Node} (plays : v.Plays r) (other : r ≠ .argument) :
    v.IsCast args := ⟨r, plays, fun same => absurd same other⟩

theorem PlayAll.isCast {vs : List Node} (plays : PlayAll r vs) (other : r ≠ .argument) :
    ∀ v ∈ vs, v.IsCast args := fun v member => (playAll_iff.mp plays v member).isCast other

theorem PlaysMaybe.isCast {x : Option Node} (plays : PlaysMaybe r x) (other : r ≠ .argument) :
    ∀ v ∈ x.toList, v.IsCast args := by
  cases x with
  | none => exact List.forall_mem_nil _
  | some u => exact List.forall_mem_singleton.mpr (Node.Plays.isCast plays other)

end Casts

/-- The parts of a test play their parts, stars only among arguments. -/
theorem Form.IsTest.isCast {f : Form} (test : f.IsTest) :
    ∀ c ∈ f.children, c.IsCast f.arguments := by
  cases f with
  | ident | literal | string => exact List.forall_mem_nil _
  | dot => exact List.forall_mem_singleton.mpr (test.1.isCast (by simp))
  | index =>
      exact List.forall_mem_cons.mpr ⟨test.1.isCast (by simp),
        List.forall_mem_singleton.mpr (test.2.isCast (by simp))⟩
  | slice =>
      obtain ⟨inner, lower, upper, step, _⟩ := test
      simp only [children, List.forall_mem_cons, List.forall_mem_append]
      exact ⟨inner.isCast (by simp), ⟨lower.isCast (by simp), upper.isCast (by simp)⟩,
        step.isCast (by simp)⟩
  | unary => exact PlaysMaybe.isCast test.2.2 (by simp)
  | binary =>
      exact List.forall_mem_cons.mpr ⟨test.2.2.1.isCast (by simp),
        List.forall_mem_singleton.mpr (test.2.2.2.isCast (by simp))⟩
  | conditional =>
      simp only [children, List.forall_mem_cons]
      exact ⟨test.1.isCast (by simp), test.2.1.isCast (by simp), test.2.2.isCast (by simp),
        List.forall_mem_nil _⟩
  | lambda =>
      exact List.forall_mem_append.mpr ⟨test.1.isCast (by simp),
        List.forall_mem_singleton.mpr (test.2.isCast (by simp))⟩
  | call =>
      refine List.forall_mem_cons.mpr ⟨test.1.isCast (by simp), fun v member => ?_⟩
      exact ⟨.argument, playAll_iff.mp test.2 v member, fun _ => member⟩
  | collection kind => exact test.2.2.isCast (by split <;> simp)
  | comprehension =>
      exact List.forall_mem_cons.mpr ⟨test.1.isCast (by simp), test.2.2.isCast (by simp)⟩
  | paren => exact List.forall_mem_singleton.mpr (Node.Plays.isCast test (by simp))
  | _ => cases test

/-- The parts of a node that plays a part play parts, and arguments are those of a call. -/
theorem Node.Plays.children_isCast {r : Role} {v : Node} (plays : v.Plays r) :
    ∀ c ∈ v.children, c.IsCast v.form.arguments := by
  have pair {args : List Node} {x y : Node} (first : x.IsCast args) (second : y.IsCast args) :
      ∀ c ∈ [x, y], c.IsCast args :=
    List.forall_mem_cons.mpr ⟨first, List.forall_mem_singleton.mpr second⟩
  have entry {args : List Node} {x y : Node} (plays : x.Plays .test ∧ y.Plays .test) :
      ∀ c ∈ [x, y], c.IsCast args := pair (plays.1.isCast nofun) (plays.2.isCast nofun)
  obtain ⟨comments, f⟩ := v
  cases r with
  | test => exact Form.IsTest.isCast plays
  | expression =>
      cases f with
      | collection kind =>
          cases kind with
          | bareTuple => exact PlayAll.isCast plays.2 nofun
          | _ => exact Form.IsTest.isCast plays
      | _ => exact Form.IsTest.isCast plays
  | argument =>
      cases f with
      | unary p op x =>
          cases x with
          | none => exact List.forall_mem_nil _
          | some x => exact List.forall_mem_singleton.mpr (Node.Plays.isCast plays.2 nofun)
      | binary assigns =>
          cases assigns with
          | true => exact entry plays.2
          | false => exact Form.IsTest.isCast plays
      | _ => exact Form.IsTest.isCast plays
  | entry =>
      cases f with
      | keyValue => exact entry plays
      | _ => cases plays
  | element =>
      cases f with
      | keyValue => exact entry plays.2
      | _ => exact Form.IsTest.isCast plays
  | clause =>
      cases f with
      | forClause => exact pair (Node.Plays.isCast plays.1 nofun) (Node.Plays.isCast plays.2 nofun)
      | ifClause => exact List.forall_mem_singleton.mpr (Node.Plays.isCast plays nofun)
      | _ => cases plays
  | param types =>
      cases f with
      | ident => exact List.forall_mem_nil _
      | typed => exact List.forall_mem_singleton.mpr (Node.Plays.isCast plays.2.2 nofun)
      | unary p op x =>
          match x, plays with
          | none, _ => exact List.forall_mem_nil _
          | some (.mk c (.ident q name)), plays =>
              have name : (Node.mk c (.ident q name)).Plays .test := plays.2
              exact List.forall_mem_singleton.mpr (name.isCast nofun)
      | binary assigns x p op l y =>
          match assigns, x, plays with
          | true, .mk c (.ident q name), plays =>
              have name : (Node.mk c (.ident q name)).Plays .test := plays.2.1
              exact pair (name.isCast nofun) (Node.Plays.isCast plays.2.2 nofun)
          | true, .mk c (.typed name q type), plays =>
              have typed : (Node.mk c (.typed name q type)).Plays (.param types) :=
                ⟨plays.2.1, plays.2.2.1, plays.2.2.2.1⟩
              exact pair (typed.isCast nofun) (Node.Plays.isCast plays.2.2.2.2 nofun)
      | _ => cases plays
  | line types =>
      cases f with
      | commentBlock | branch | load => exact List.forall_mem_nil _
      | returnStmt => exact PlaysMaybe.isCast plays nofun
      | binary assigns =>
          cases assigns with
          | true =>
              exact pair (Node.Plays.isCast plays.2.1 nofun) (Node.Plays.isCast plays.2.2 nofun)
          | false => exact Form.IsTest.isCast plays
      | defStmt =>
          exact List.forall_mem_append.mpr
            ⟨PlayAll.isCast plays.2.1 nofun, PlayAll.isCast plays.2.2 nofun⟩
      | forStmt =>
          exact List.forall_mem_cons.mpr ⟨Node.Plays.isCast plays.1 nofun, List.forall_mem_cons.mpr
            ⟨Node.Plays.isCast plays.2.1 nofun, PlayAll.isCast plays.2.2 nofun⟩⟩
      | ifStmt =>
          exact List.forall_mem_cons.mpr ⟨Node.Plays.isCast plays.1 nofun,
            List.forall_mem_append.mpr
              ⟨PlayAll.isCast plays.2.1 nofun, PlayAll.isCast plays.2.2 nofun⟩⟩
      | collection kind =>
          cases kind with
          | bareTuple => exact PlayAll.isCast plays.2 nofun
          | _ => exact Form.IsTest.isCast plays
      | _ => exact Form.IsTest.isCast plays

/-- A star in front of anything but a name belongs to an argument. -/
theorem Node.Plays.role_of_star {r : Role} {c : Comments} {pos : Position} {op : String} {x : Node}
    (plays : (Node.mk c (.unary pos op (some x))).Plays r) (star : op ∈ stars)
    (wrapped : x.form.needsParens .unary = true) : r = .argument := by
  have apart : ∀ op ∈ stars, op ∉ signs := by decide
  cases r with
  | argument => rfl
  | test | expression | element | line => exact absurd plays.1 (apart op star)
  | param =>
      obtain ⟨_, f⟩ := x
      cases f with
      | ident => cases wrapped
      | _ => cases plays
  | entry | clause => cases plays

/-! ## Files -/

/-- Where parentheses may be added: around literals that stood next to each other, around the
operand of an argument with a star, and around a `lambda` behind `else`. -/
inductive Printing.Excused : Printing → Prop
  | joined {x : Printing} (joint : x.node.form.IsJoint) : x.Excused
  | starred {v caller : Node} {outer : Strength} {above : List Node} {c : Comments}
      {pos : Position} {op : String} (star : op ∈ stars)
      (argument : .mk c (.unary pos op (some v)) ∈ caller.form.arguments) :
      Excused ⟨v, outer, .mk c (.unary pos op (some v)) :: caller :: above⟩
  | lambda {yes test v : Node} {p q : Position} {c : Comments} {above : List Node}
      (lambda : v.form.isLambda = true) :
      Excused ⟨v, .ifElse, .mk c (.conditional yes p test q v) :: above⟩

/-- Below a node whose parts are suited throughout, parentheses are added only where they may
be. -/
theorem Node.excused_printings {v : Node} {r : Role} {above : List Node} {outer : Strength}
    (plays : v.Plays r) (suited : v.Throughout fun v => v.form.Suited)
    (placed : r = .argument → ∃ caller ∈ above.head?, v ∈ caller.form.arguments)
    (own : v.form.needsParens outer = true → Printing.Excused ⟨v, outer, above⟩) :
    ∀ x ∈ v.printings above outer, x.isWrapped = true → x.Excused := by
  induction v using inductionOnChildren generalizing r above outer with
  | step v ih =>
      obtain ⟨here, below⟩ := throughout_iff.mp suited
      rw [printings_eq]
      refine List.forall_mem_cons.mpr ⟨own, fun x listed => ?_⟩
      obtain ⟨a, member, inside⟩ := List.mem_flatMap.mp listed
      have child := Form.part_mem_children member
      obtain ⟨s, part, argument⟩ := plays.children_isCast a.part child
      refine ih a.part child part (below a.part child) (fun same => ⟨v, rfl, argument same⟩) ?_ x
        inside
      intro wrapped
      have excuse := here a member wrapped
      obtain ⟨c, f⟩ := v
      generalize same : (Node.mk c f).form = g at excuse
      cases excuse with
      | joined joint => exact .joined joint
      | @starred pos op y _ star =>
          cases same
          obtain ⟨u, present, rfl⟩ := List.mem_map.mp member
          cases y with
          | none => cases present
          | some y =>
              obtain rfl := List.mem_singleton.mp present
              obtain ⟨caller, first, given⟩ := placed (plays.role_of_star star wrapped)
              cases above with
              | nil => cases first
              | cons _ above =>
                  cases first
                  exact .starred star given
      | lambda lambda =>
          cases same
          exact .lambda lambda

/-- A file that carries its parentheses: the brackets that printing opens are those of the nodes
it meets, and of these only the excused ones have too little strength. -/
structure File.CarriesParens (f : File) : Prop where
  printed : f.print = f.script.run
  opened : f.script.brackets = (f.printings.map Printing.brackets).sum
  excused : ∀ x ∈ f.printings, x.isWrapped = true → x.Excused

/-- Files that are read carry their parentheses. -/
theorem File.carriesParens_of_ofChars {path : String} {options : Options} {source : List Char}
    {f : File} (read : File.ofChars path options source = .ok f) : f.CarriesParens := by
  obtain ⟨stream, scanned, built⟩ := Outcome.bind_eq_ok.mp read
  have lexical := TokenStream.lexical scanned
  have suited := File.throughout_of_ofStream Form.suited_blocks Form.suited_parts
    Node.suited_stable lexical built
  have shaped := playAll_iff.mp (File.shaped_of_ofStream lexical built)
  refine ⟨funext f.print_eq_run, f.brackets_script, fun x listed => ?_⟩
  obtain ⟨v, member, inside⟩ := List.mem_flatMap.mp listed
  refine Node.excused_printings (shaped v member) (suited v member) nofun ?_ x inside
  intro wrapped
  exact .joined (Ask.met_low v wrapped)

/-- Parentheses are added at all three places here, and at no other. -/
theorem File.carriesParens_of_call :
    ∃ f, File.ofChars "a.bzl" ⟨.bzl, false⟩
        "f(\"a\" \"b\" % x, *y or z, **(a if b else lambda: c))\n".toList = .ok f ∧
      f.CarriesParens := by
  obtain ⟨f, read⟩ : ∃ f, File.ofChars "a.bzl" ⟨.bzl, false⟩
      "f(\"a\" \"b\" % x, *y or z, **(a if b else lambda: c))\n".toList = .ok f :=
    Outcome.exists_eq_ok (by cbv)
  exact ⟨f, read, File.carriesParens_of_ofChars read⟩

end Starlark
