import Starlark.Proofs.Literal.Print
import Starlark.Proofs.Nesting.Node
import Starlark.Proofs.Sheet
import Starlark.Proofs.Skeleton

/-!
# The words of a legible tree spell it

Whatever tokens have the words that printing a legible tree writes, they spell
a tree with the same skeleton (`Node.said`). Where a tree is printed depends on
the strength that is asked for there, and so does the phrase that its words
spell: parentheses are put exactly where the phrase would be another one.

A tree without comments is legible (`Node.isLegible`) unless it has a tuple of one
item without brackets, which is printed without its comma, an `is` in front of an
operand that begins with `not`, or a loop that binds an operation, which would
need parentheses that are not printed there. Portable trees are legible.
-/

set_option autoImplicit false

namespace Starlark

open Script (key mark)

/-! ## Tokens with given words -/

namespace Token

variable {t : Token}

theorem kind_of_word {w : Word} (same : t.word = w) : t.kind = w.kind := by
  rw [← same]
  rfl

theorem kind_of_symbol {s : Symbol} (same : t.word = .symbol s) : t.kind = .symbol s :=
  kind_of_word same

theorem kind_of_keyword {k : Keyword} (same : t.word = .keyword k) : t.kind = .keyword k :=
  kind_of_word same

theorem text_of_word {text : String} {kind : Kind} (same : t.word = ⟨kind, text.toList⟩) :
    t.text = text := by
  have chars : t.text.toList = text.toList := congrArg Word.text same
  exact String.toList_inj.mp chars

theorem isName_of_word {name : String} (same : t.word = .name name) :
    Reader.isName t.kind = true := by
  rw [kind_of_word same]
  rfl

end Token

/-- All tokens with the words spell the phrase, and say what the nodes say. -/
def Says (p : Phrase) (ws : List Word) (vs : List Node) : Prop :=
  ∀ ⦃ts : List Token⦄, ts.map Token.word = ws →
    ∃ xs, Spells p ts xs ∧ skeletonList xs = skeletonList vs

namespace Says

variable {p q : Phrase} {ws us : List Word} {v : Node} {vs : List Node}

theorem one (said : Says p ws [v]) {ts : List Token} (words : ts.map Token.word = ws) :
    ∃ x, Spells p ts [x] ∧ x.skeleton = v.skeleton := by
  obtain ⟨xs, spells, same⟩ := said words
  rcases xs with _ | ⟨x, _ | ⟨y, xs⟩⟩
  · cases same
  · exact ⟨x, spells, (List.cons.inj same).1⟩
  · exact absurd (List.cons.inj same).2 (List.cons_ne_nil _ _)

theorem ofOne (each : ∀ ⦃ts : List Token⦄, ts.map Token.word = ws →
    ∃ x, Spells p ts [x] ∧ x.skeleton = v.skeleton) : Says p ws [v] := by
  intro ts words
  obtain ⟨x, spells, same⟩ := each words
  exact ⟨[x], spells, congrArg (fun y => [y]) same⟩

theorem impOne (said : Says p ws [v])
    (step : ∀ {ts : List Token} {x : Node}, Spells p ts [x] → Spells q ts [x]) :
    Says q ws [v] := by
  refine .ofOne fun ts words => ?_
  obtain ⟨x, spells, same⟩ := said.one words
  exact ⟨x, step spells, same⟩

end Says

/-! ## Strengths and phrases -/

/-- The phrase that is printed where a strength of the rank is asked for. -/
def Phrase.ofRank (rank : Nat) : Phrase :=
  if rank ≤ 4 then .test else if rank ≤ 14 then .layer (14 - rank) else .operand

theorem Spells.loosen_one {rank : Nat} {ts : List Token} {x : Node}
    (spells : Spells (.ofRank (rank + 1)) ts [x]) : Spells (.ofRank rank) ts [x] := by
  unfold Phrase.ofRank at spells ⊢
  rcases Nat.lt_trichotomy rank 4 with low | rfl | high
  · rwa [if_pos (by omega)] at spells ⊢
  · exact .disjunction spells
  · rw [if_neg (by omega)] at spells ⊢
    rcases Nat.lt_trichotomy rank 14 with low | rfl | high
    · rw [if_pos (by omega)] at spells ⊢
      rw [show 14 - rank = 14 - (rank + 1) + 1 by omega]
      exact .tighter spells
    · exact .operand spells
    · rwa [if_neg (by omega)] at spells ⊢

/-- A phrase of more strength stands where one of less strength is asked for. -/
theorem Spells.loosen {low high : Nat} (less : low ≤ high) {ts : List Token} {x : Node}
    (spells : Spells (.ofRank high) ts [x]) : Spells (.ofRank low) ts [x] := by
  induction high, less using Nat.le_induction with
  | base => exact spells
  | succ high _ ih => exact ih spells.loosen_one

theorem Says.operand_of_atom {ws : List Word} {v : Node} (said : Says .atom ws [v]) :
    Says .operand ws [v] := said.impOne .atom

/-- Operands stand everywhere. -/
theorem Says.ofOperand {ws : List Word} {v : Node} (said : Says .operand ws [v])
    (outer : Strength) : Says (.ofRank outer.rank) ws [v] := by
  have most : outer.rank ≤ 15 := by cases outer <;> decide
  exact said.impOne fun spells => Spells.loosen most spells

/-! ## Atoms and operands -/

section Forms

variable {ws us : List Word} {v x y : Node}

theorem Says.name {name : String} {pos : Position} :
    Says .atom [.name name] [.bare (.ident pos name)] := by
  refine .ofOne fun ts words => ?_
  obtain ⟨t, rfl, same⟩ := List.map_eq_singleton_iff.mp words
  refine ⟨.ofName t, .name (Token.isName_of_word same), ?_⟩
  show Node.bare (.ident .nowhere t.text) = _
  rw [Token.text_of_word same]
  rfl

theorem Says.number {token : String} {pos : Position} :
    Says .atom [⟨.number, token.toList⟩] [.bare (.literal pos token)] := by
  refine .ofOne fun ts words => ?_
  obtain ⟨t, rfl, same⟩ := List.map_eq_singleton_iff.mp words
  refine ⟨.bare (.literal t.pos t.text), .number (Token.kind_of_word same), ?_⟩
  show Node.bare (.literal .nowhere t.text) = _
  rw [Token.text_of_word same]
  rfl

theorem Says.string {lit : StringLit} :
    Says .atom [⟨.string, lit.spelling⟩] [.bare (.string lit)] := by
  refine .ofOne fun ts words => ?_
  obtain ⟨t, rfl, same⟩ := List.map_eq_singleton_iff.mp words
  have text : t.text = String.ofList lit.spelling := by
    have chars : t.text.toList = lit.spelling := congrArg Word.text same
    rw [← chars, String.ofList_toList]
  have literal : StringLit.ofToken t = .ok ⟨t.pos, lit.value, lit.triple, t.stop, t.text⟩ := by
    rw [StringLit.ofToken, text, lit.decode_spelling]
  refine ⟨.ofStrings ⟨t.pos, lit.value, lit.triple, t.stop, t.text⟩ [], .strings ?_ ?_, rfl⟩
  · intro s member
    rw [List.mem_singleton.mp member]
    exact Token.kind_of_word same
  · rw [Outcome.mapM_cons_eq_ok]
    exact ⟨_, _, literal, rfl, rfl⟩

/-- Tokens between two brackets. -/
theorem exists_of_enclosed {a b : Word} {ts : List Token}
    (words : ts.map Token.word = a :: (ws ++ [b])) :
    ∃ s us t, ts = s :: (us ++ [t]) ∧ s.word = a ∧ us.map Token.word = ws ∧ t.word = b := by
  obtain ⟨s, rest, rfl, first, words⟩ := List.map_eq_cons_iff.mp words
  obtain ⟨us, last, rfl, inside, words⟩ := List.map_eq_append_iff.mp words
  obtain ⟨t, rfl, same⟩ := List.map_eq_singleton_iff.mp words
  exact ⟨s, us, t, rfl, first, inside, same⟩

/-- Parentheses say what stands inside. -/
theorem Says.paren (said : Says .test ws [v]) :
    Says .atom (.symbol .lparen :: (ws ++ [.symbol .rparen])) [v] := by
  refine .ofOne fun ts words => ?_
  obtain ⟨a, us, b, rfl, opening, inside, closing⟩ := exists_of_enclosed words
  obtain ⟨x, spells, same⟩ := said.one inside
  exact ⟨_, .paren (Token.kind_of_symbol opening) (Token.kind_of_symbol closing) spells, same⟩

theorem Says.dot {name : String} {p q : Position} (said : Says .operand ws [x]) :
    Says .operand (ws ++ [.symbol .dot, .name name]) [.bare (.dot x p q name)] := by
  refine .ofOne fun ts words => ?_
  obtain ⟨us, last, rfl, inside, words⟩ := List.map_eq_append_iff.mp words
  obtain ⟨d, rest, rfl, dot, words⟩ := List.map_eq_cons_iff.mp words
  obtain ⟨t, rfl, named⟩ := List.map_eq_singleton_iff.mp words
  obtain ⟨x', spells, same⟩ := said.one inside
  refine ⟨_, .dot spells (Token.kind_of_symbol dot) (Token.isName_of_word named), ?_⟩
  show Node.bare (.dot x'.skeleton .nowhere .nowhere t.text) = _
  rw [same, Token.text_of_word named]
  rfl

/-- Tokens of an operand in front of something in brackets. -/
theorem exists_of_subscript {a b : Word} {ts : List Token}
    (words : ts.map Token.word = ws ++ a :: (us ++ [b])) :
    ∃ rs s vs t, ts = rs ++ s :: (vs ++ [t]) ∧ rs.map Token.word = ws ∧ s.word = a ∧
      vs.map Token.word = us ∧ t.word = b := by
  obtain ⟨rs, rest, rfl, before, words⟩ := List.map_eq_append_iff.mp words
  obtain ⟨s, vs, t, rfl, opening, inside, closing⟩ := exists_of_enclosed words
  exact ⟨rs, s, vs, t, rfl, before, opening, inside, closing⟩

theorem Says.index {p q : Position} (inner : Says .operand ws [x])
    (place : Says .expression us [y]) :
    Says .operand
      (ws ++ .symbol .lbrack :: (us ++ [.symbol .rbrack])) [.bare (.index x p y q)] := by
  refine .ofOne fun ts words => ?_
  obtain ⟨rs, a, vs, b, rfl, before, opening, inside, closing⟩ := exists_of_subscript words
  obtain ⟨x', one, first⟩ := inner.one before
  obtain ⟨y', two, second⟩ := place.one inside
  refine ⟨_, .index one (Token.kind_of_symbol opening) two (Token.kind_of_symbol closing), ?_⟩
  show Node.bare (.index x'.skeleton .nowhere y'.skeleton .nowhere) = _
  rw [first, second]
  rfl

theorem Says.call {p : Position} {close : Close} {args : List Node} {layout : Layout}
    (callee : Says .operand ws [x]) (inside : Says (.items .argument) us args) :
    Says .operand (ws ++ .symbol .lparen :: (us ++ [.symbol .rparen]))
      [.bare (.call x p args close layout)] := by
  refine .ofOne fun ts words => ?_
  obtain ⟨rs, a, vs, b, rfl, before, opening, between, closing⟩ := exists_of_subscript words
  obtain ⟨x', one, first⟩ := callee.one before
  obtain ⟨xs, two, second⟩ := inside between
  refine ⟨_, .call one (Token.kind_of_symbol opening) two (Token.kind_of_symbol closing), ?_⟩
  show Node.bare (.call x'.skeleton .nowhere (skeletonList xs) (.at .nowhere) ⟨false, false⟩) = _
  rw [first, second]
  rfl

/-- A part that may be missing. -/
def optionWords (word : Node → List Word) : Option Node → List Word
  | none => []
  | some x => word x

theorem Says.maybe {p : Phrase} {word : Node → List Word} {part : Option Node}
    (each : ∀ x ∈ part, Says p (word x) [x]) {ts : List Token}
    (words : ts.map Token.word = optionWords word part) :
    ∃ xs, Spells (.maybe p) ts xs ∧ skeletonOption xs.head? = skeletonOption part := by
  cases part with
  | none =>
      obtain rfl := List.map_eq_nil_iff.mp words
      exact ⟨[], .missing, rfl⟩
  | some x =>
      obtain ⟨x', spells, same⟩ := (each x rfl).one words
      exact ⟨[x'], .present spells, congrArg some same⟩

/-- A slice is said by its parts between the brackets, each of which may be missing. -/
theorem Says.slice {p q s : Position} {second : Option Position} {lower upper step : Option Node}
    {word : Node → List Word} (inner : Says .operand ws [x])
    (start : ∀ y ∈ lower, Says .expression (word y) [y])
    (stop : ∀ y ∈ upper, Says .test (word y) [y]) (stride : ∀ y ∈ step, Says .test (word y) [y])
    (colons : second = none → step = none) :
    Says .operand (ws ++ .symbol .lbrack :: ((optionWords word lower ++ .symbol .colon ::
        (optionWords word upper ++ (if second.isSome then .symbol .colon :: optionWords word step
          else []))) ++ [.symbol .rbrack]))
      [.bare (.slice x p lower q upper second step s)] := by
  refine .ofOne fun ts words => ?_
  obtain ⟨rs, a, vs, b, rfl, before, opening, inside, closing⟩ := exists_of_subscript words
  obtain ⟨x', one, first⟩ := inner.one before
  obtain ⟨ls, rest, rfl, low, inside⟩ := List.map_eq_append_iff.mp inside
  obtain ⟨c, rest, rfl, colon, inside⟩ := List.map_eq_cons_iff.mp inside
  obtain ⟨hs, rest, rfl, high, inside⟩ := List.map_eq_append_iff.mp inside
  obtain ⟨lows, two, lowSame⟩ := Says.maybe start low
  obtain ⟨highs, three, highSame⟩ := Says.maybe stop high
  have open' := Token.kind_of_symbol opening
  have close := Token.kind_of_symbol closing
  cases second with
  | none =>
      obtain rfl := List.map_eq_nil_iff.mp inside
      obtain rfl := colons rfl
      have split :
          rs ++ a :: (ls ++ c :: (hs ++ []) ++ [b]) = rs ++ a :: (ls ++ c :: (hs ++ [b])) := by
        simp
      rw [split]
      refine ⟨_, .slice one open' two (Token.kind_of_symbol colon) three close, ?_⟩
      show Node.bare (.slice x'.skeleton .nowhere (skeletonOption lows.head?) .nowhere
        (skeletonOption highs.head?) none none .nowhere) = _
      rw [first, lowSame, highSame]
      rfl
  | some pos =>
      obtain ⟨d, ds, rfl, secondColon, stepWords⟩ := List.map_eq_cons_iff.mp inside
      obtain ⟨steps, four, stepSame⟩ := Says.maybe stride stepWords
      have split : rs ++ a :: (ls ++ c :: (hs ++ d :: ds) ++ [b]) =
          rs ++ a :: (ls ++ c :: (hs ++ d :: (ds ++ [b]))) := by
        simp
      rw [split]
      refine ⟨_, .stepSlice one open' two (Token.kind_of_symbol colon) three
        (Token.kind_of_symbol secondColon) four close, ?_⟩
      show Node.bare (.slice x'.skeleton .nowhere (skeletonOption lows.head?) .nowhere
        (skeletonOption highs.head?) (some .nowhere) (skeletonOption steps.head?) .nowhere) = _
      rw [first, lowSame, highSame, stepSame]
      rfl

/-! ## Operators -/

theorem Says.sign {op : String} {p : Position} (sign : op ∈ signs) (said : Says (.layer 0) ws [x]) :
    Says (.layer 0) (.sign op :: ws) [.bare (.unary p op (some x))] := by
  have kinds : ∀ op ∈ signs, Reader.isSign (Word.sign op).kind = true := by decide
  refine .ofOne fun ts words => ?_
  obtain ⟨s, rest, rfl, first, inside⟩ := List.map_eq_cons_iff.mp words
  obtain ⟨x', spells, same⟩ := said.one inside
  refine ⟨_, .sign (by rw [Token.kind_of_word first]; exact kinds op sign) spells, ?_⟩
  show Node.bare (.unary .nowhere s.text (some x'.skeleton)) = _
  rw [same, Token.text_of_word first]
  rfl

/-- Operators between operands have a layer, and those of one word are known by it. -/
theorem operator_layer : ∀ op ∈ binaryOperators,
    5 ≤ (Strength.ofOperator op).rank ∧ (Strength.ofOperator op).rank ≤ 13 ∧
      (Strength.ofOperator op).next.rank = (Strength.ofOperator op).rank + 1 ∧
      (op ≠ "not in" → op ≠ "is not" →
        Reader.layer? (Word.sign op).kind = some ((Strength.ofOperator op).rank - 4) ∧
        (Word.sign op).kind ≠ .keyword .not ∧
          ((Word.sign op).kind = .keyword .is → op = "is")) := by
  decide

/-- Tokens with the words of an operator are read as that operator. -/
theorem operatorTokens_of_words {op : String} (known : op ∈ binaryOperators) {next : Token.Kind}
    (alone : op = "is" → next ≠ .keyword .not) {os : List Token}
    (words : os.map Token.word = (Script.operator op).words) :
    ∃ pos, OperatorTokens ((Strength.ofOperator op).rank - 4) next os pos op := by
  obtain ⟨_, _, _, single⟩ := operator_layer op known
  unfold Script.operator at words
  split at words
  next same =>
    subst same
    obtain ⟨s, rest, rfl, first, words⟩ := List.map_eq_cons_iff.mp words
    obtain ⟨t, rfl, second⟩ := List.map_eq_singleton_iff.mp words
    have kind := Token.kind_of_keyword first
    exact ⟨s.pos, .notIn (by rw [kind]; rfl) kind (Token.kind_of_keyword second)⟩
  next other =>
    split at words
    next same =>
      subst same
      obtain ⟨s, rest, rfl, first, words⟩ := List.map_eq_cons_iff.mp words
      obtain ⟨t, rfl, second⟩ := List.map_eq_singleton_iff.mp words
      have kind := Token.kind_of_keyword first
      exact ⟨s.pos, .isNot (by rw [kind]; rfl) kind (Token.kind_of_keyword second)⟩
    next another =>
      obtain ⟨layer, notWord, word⟩ := single other another
      obtain ⟨t, rfl, same⟩ := List.map_eq_singleton_iff.mp words
      have kind := Token.kind_of_word same
      rw [← kind] at layer notWord word
      refine ⟨t.pos, ?_⟩
      have tokens := OperatorTokens.single layer notWord fun is => alone (word is)
      rwa [Token.text_of_word same] at tokens

/-- An operation is said by its sides. Behind `is` no `not` may stand, which would join it. -/
theorem Says.binary {op : String} {p : Position} {breaks : Bool} (known : op ∈ binaryOperators)
    (left : Says (.ofRank (Strength.ofOperator op).rank) ws [x])
    (right : Says (.ofRank (Strength.ofOperator op).next.rank) us [y])
    (alone : op = "is" → us.head?.all (fun w => w.kind != .keyword .not) = true) :
    Says (.ofRank (Strength.ofOperator op).rank) (ws ++ (Script.operator op).words ++ us)
      [.bare (.binary false x p op breaks y)] := by
  obtain ⟨least, most, next, _⟩ := operator_layer op known
  generalize rank : (Strength.ofOperator op).rank = r at *
  rw [next] at right
  have lower : Phrase.ofRank r = .layer (13 - r + 1) := by
    rw [Phrase.ofRank, if_neg (by omega), if_pos (by omega), show 14 - r = 13 - r + 1 by omega]
  have upper : Phrase.ofRank (r + 1) = .layer (13 - r) := by
    rw [Phrase.ofRank, if_neg (by omega), if_pos (by omega), show 14 - (r + 1) = 13 - r by omega]
  rw [lower] at left ⊢
  rw [upper] at right
  refine .ofOne fun ts words => ?_
  obtain ⟨front, bs, rfl, words, after⟩ := List.map_eq_append_iff.mp words
  obtain ⟨as, os, rfl, before, between⟩ := List.map_eq_append_iff.mp words
  obtain ⟨x', one, first⟩ := left.one before
  obtain ⟨y', two, second⟩ := right.one after
  have noNot : op = "is" → (bs.headD .ended).kind ≠ .keyword .not := by
    intro is
    have head := alone is
    obtain ⟨b, bs, rfl⟩ := List.exists_cons_of_ne_nil (two.ne_nil rfl)
    rw [← after] at head
    simpa [Token.word] using head
  obtain ⟨pos, operator⟩ := operatorTokens_of_words known noNot between
  rw [rank, show r - 4 = 9 - (13 - r) by omega] at operator
  refine ⟨_, .binary one operator two, ?_⟩
  show Node.bare (.binary false x'.skeleton .nowhere op false y'.skeleton) = _
  rw [first, second]
  rfl

theorem Says.conditional {vs : List Word} {z : Node} {p q : Position} (yes : Says (.layer 9) ws [x])
    (cond : Says (.layer 9) us [y]) (no : Says .test vs [z]) :
    Says .test (ws ++ .keyword .if :: (us ++ .keyword .else :: vs))
      [.bare (.conditional x p y q z)] := by
  refine .ofOne fun ts words => ?_
  obtain ⟨as, rest, rfl, before, words⟩ := List.map_eq_append_iff.mp words
  obtain ⟨a, rest, rfl, tests, words⟩ := List.map_eq_cons_iff.mp words
  obtain ⟨bs, rest, rfl, between, words⟩ := List.map_eq_append_iff.mp words
  obtain ⟨b, cs, rfl, otherwise, after⟩ := List.map_eq_cons_iff.mp words
  obtain ⟨x', one, first⟩ := yes.one before
  obtain ⟨y', two, second⟩ := cond.one between
  obtain ⟨z', three, third⟩ := no.one after
  refine ⟨_, .conditional one (Token.kind_of_keyword tests) two
    (Token.kind_of_keyword otherwise) three, ?_⟩
  show Node.bare (.conditional x'.skeleton .nowhere y'.skeleton .nowhere z'.skeleton) = _
  rw [first, second, third]
  rfl

theorem Says.lambda {params : List Node} {p q : Position} (parts : Says (.params false) ws params)
    (body : Says .test us [y]) :
    Says .test (.keyword .lambda :: (ws ++ .symbol .colon :: us))
      [.bare (.lambda p params q y)] := by
  refine .ofOne fun ts words => ?_
  obtain ⟨a, rest, rfl, opening, words⟩ := List.map_eq_cons_iff.mp words
  obtain ⟨as, rest, rfl, before, words⟩ := List.map_eq_append_iff.mp words
  obtain ⟨c, bs, rfl, colon, after⟩ := List.map_eq_cons_iff.mp words
  obtain ⟨xs, one, first⟩ := parts before
  obtain ⟨y', two, second⟩ := body.one after
  refine ⟨_, .lambda (Token.kind_of_keyword opening) one (Token.kind_of_symbol colon) two, ?_⟩
  show Node.bare (.lambda .nowhere (skeletonList xs) .nowhere y'.skeleton) = _
  rw [first, second]
  rfl

/-- A name, an equals sign and a value. -/
theorem exists_of_assigned {name : String} {ts : List Token}
    (words : ts.map Token.word = .name name :: .sign "=" :: ws) :
    ∃ t e us, ts = t :: e :: us ∧ t.word = .name name ∧ e.kind = .symbol .eq ∧ e.text = "=" ∧
      us.map Token.word = ws := by
  obtain ⟨t, rest, rfl, named, words⟩ := List.map_eq_cons_iff.mp words
  obtain ⟨e, us, rfl, eq, inside⟩ := List.map_eq_cons_iff.mp words
  have kind : (Word.sign "=").kind = .symbol .eq := by decide
  exact ⟨t, e, us, rfl, named, (Token.kind_of_word eq).trans kind, Token.text_of_word eq, inside⟩

theorem Says.keyword {p : Position} {breaks : Bool} (left : Says .test us [x])
    (value : Says .test ws [y]) :
    Says .argument (us ++ .sign "=" :: ws) [.bare (.binary true x p "=" breaks y)] := by
  have kind : (Word.sign "=").kind = .symbol .eq := by decide
  refine .ofOne fun ts words => ?_
  obtain ⟨as, rest, rfl, before, words⟩ := List.map_eq_append_iff.mp words
  obtain ⟨e, bs, rfl, eq, after⟩ := List.map_eq_cons_iff.mp words
  obtain ⟨x', one, first⟩ := left.one before
  obtain ⟨y', two, second⟩ := value.one after
  refine ⟨_, .keyword one ((Token.kind_of_word eq).trans kind) two, ?_⟩
  show Node.bare (.binary true x'.skeleton .nowhere e.text false y'.skeleton) = _
  rw [first, second, Token.text_of_word eq]
  rfl

theorem Says.defaultParam {name : String} {p q : Position} {breaks : Bool}
    (value : Says .test ws [y]) :
    Says (.param false) (.name name :: .sign "=" :: ws)
      [.bare (.binary true (.bare (.ident p name)) q "=" breaks y)] := by
  refine .ofOne fun ts words => ?_
  obtain ⟨t, e, us, rfl, named, eq, text, inside⟩ := exists_of_assigned words
  obtain ⟨y', two, second⟩ := value.one inside
  refine ⟨_, .defaultParam (Token.isName_of_word named) eq two, ?_⟩
  show Node.bare
    (.binary true (.bare (.ident .nowhere t.text)) .nowhere e.text false y'.skeleton) = _
  rw [second, text, Token.text_of_word named]
  rfl

theorem Says.plainParam {name : String} {p : Position} :
    Says (.param false) [.name name] [.bare (.ident p name)] := by
  refine .ofOne fun ts words => ?_
  obtain ⟨t, rfl, same⟩ := List.map_eq_singleton_iff.mp words
  refine ⟨.ofName t, .plainParam (Token.isName_of_word same), ?_⟩
  show Node.bare (.ident .nowhere t.text) = _
  rw [Token.text_of_word same]
  rfl

/-- A star in front of the name of a parameter. -/
theorem Says.starParam {op name : String} {p q : Position} (star : op ∈ stars) :
    Says (.param false) [.sign op, .name name]
      [.bare (.unary p op (some (.bare (.ident q name))))] := by
  have kinds : ∀ op ∈ stars, (Word.sign op).kind = .symbol .star ∨
      (Word.sign op).kind = .symbol .starStar := by decide
  refine .ofOne fun ts words => ?_
  obtain ⟨s, rest, rfl, word, words⟩ := List.map_eq_cons_iff.mp words
  obtain ⟨t, rfl, named⟩ := List.map_eq_singleton_iff.mp words
  have kind := Token.kind_of_word word
  refine ⟨.bare (.unary s.pos s.text (some (.ofName t))), ?_, ?_⟩
  · rcases kinds op star with star | star
    · exact .starParam (kind.trans star) (Token.isName_of_word named)
    · exact .starStarParam (kind.trans star) (Token.isName_of_word named)
  · show Node.bare (.unary .nowhere s.text (some (.bare (.ident .nowhere t.text)))) = _
    rw [Token.text_of_word word, Token.text_of_word named]
    rfl

theorem Says.bareStar {p : Position} :
    Says (.param false) [.sign "*"] [.bare (.unary p "*" none)] := by
  have kind : (Word.sign "*").kind = .symbol .star := by decide
  refine .ofOne fun ts words => ?_
  obtain ⟨s, rfl, word⟩ := List.map_eq_singleton_iff.mp words
  refine ⟨_, .bareStar ((Token.kind_of_word word).trans kind), ?_⟩
  show Node.bare (.unary .nowhere s.text none) = _
  rw [Token.text_of_word word]
  rfl

theorem Says.starred {op : String} {p : Position} (star : op ∈ stars) (said : Says .test ws [x]) :
    Says .argument (.sign op :: ws) [.bare (.unary p op (some x))] := by
  have kinds : ∀ op ∈ stars, (Word.sign op).kind = .symbol .star ∨
      (Word.sign op).kind = .symbol .starStar := by decide
  refine .ofOne fun ts words => ?_
  obtain ⟨s, rest, rfl, first, inside⟩ := List.map_eq_cons_iff.mp words
  obtain ⟨x', spells, same⟩ := said.one inside
  refine ⟨_, .starred (by rw [Token.kind_of_word first]; exact kinds op star) spells, ?_⟩
  show Node.bare (.unary .nowhere s.text (some x'.skeleton)) = _
  rw [same, Token.text_of_word first]
  rfl

theorem Says.entry {p : Position} (left : Says .test ws [x]) (right : Says .test us [y]) :
    Says .entry (ws ++ .symbol .colon :: us) [.bare (.keyValue x p y)] := by
  refine .ofOne fun ts words => ?_
  obtain ⟨as, rest, rfl, before, words⟩ := List.map_eq_append_iff.mp words
  obtain ⟨c, bs, rfl, colon, after⟩ := List.map_eq_cons_iff.mp words
  obtain ⟨x', one, first⟩ := left.one before
  obtain ⟨y', two, second⟩ := right.one after
  refine ⟨_, .entry one (Token.kind_of_symbol colon) two, ?_⟩
  show Node.bare (.keyValue x'.skeleton .nowhere y'.skeleton) = _
  rw [first, second]
  rfl

end Forms

/-! ## Sequences -/

/-- Words behind a first part: a comma in front of each further part, and one at the end where
`trail` is set. -/
def followed (trail : Bool) : List (List Word) → List Word
  | [] => if trail then [.symbol .comma] else []
  | ws :: rest => .symbol .comma :: (ws ++ followed trail rest)

/-- Words of parts with commas between them. -/
def separated (trail : Bool) : List (List Word) → List Word
  | [] => []
  | ws :: rest => ws ++ followed trail rest

section Sequences

variable {p : Phrase} {word : Node → List Word} {trail : Bool}

/-- Items behind commas are said one after the other, by induction on the items. -/
theorem Says.followed {vs : List Node} (each : ∀ x ∈ vs, Says p (word x) [x]) :
    Says (.tail p) (followed trail (vs.map word)) vs := by
  induction vs with
  | nil =>
      intro ts words
      cases trail with
      | false =>
          obtain rfl := List.map_eq_nil_iff.mp words
          exact ⟨[], .noMore, rfl⟩
      | true =>
          obtain ⟨c, rfl, comma⟩ := List.map_eq_singleton_iff.mp words
          exact ⟨[], .lastComma (Token.kind_of_symbol comma), rfl⟩
  | cons v vs ih =>
      obtain ⟨here, later⟩ := List.forall_mem_cons.mp each
      intro ts words
      obtain ⟨c, rest, rfl, comma, words⟩ := List.map_eq_cons_iff.mp words
      obtain ⟨us, more, rfl, first, words⟩ := List.map_eq_append_iff.mp words
      obtain ⟨x, one, same⟩ := here.one first
      obtain ⟨xs, others, all⟩ := ih later words
      refine ⟨x :: xs, .oneMore (Token.kind_of_symbol comma) one others, ?_⟩
      rw [skeletonList, skeletonList, same, all]

theorem Says.separated {vs : List Node} (each : ∀ x ∈ vs, Says p (word x) [x]) :
    Says (.items p) (separated trail (vs.map word)) vs := by
  cases vs with
  | nil =>
      intro ts words
      obtain rfl := List.map_eq_nil_iff.mp words
      exact ⟨[], .noItem, rfl⟩
  | cons v vs =>
      obtain ⟨here, later⟩ := List.forall_mem_cons.mp each
      intro ts words
      obtain ⟨us, more, rfl, first, words⟩ := List.map_eq_append_iff.mp words
      obtain ⟨x, one, same⟩ := here.one first
      obtain ⟨xs, others, all⟩ := Says.followed later words
      refine ⟨x :: xs, .someItems one others, ?_⟩
      rw [skeletonList, skeletonList, same, all]

/-- Parameters are said with commas between them and none behind the last. -/
theorem Says.params {vs : List Node} (each : ∀ x ∈ vs, Says (.param false) (word x) [x]) :
    Says (.params false) (Starlark.separated false (vs.map word)) vs := by
  induction vs with
  | nil =>
      intro ts words
      obtain rfl := List.map_eq_nil_iff.mp words
      exact ⟨[], .noParam, rfl⟩
  | cons v vs ih =>
      obtain ⟨here, later⟩ := List.forall_mem_cons.mp each
      intro ts words
      obtain ⟨us, more, rfl, first, words⟩ := List.map_eq_append_iff.mp words
      obtain ⟨x, one, same⟩ := here.one first
      cases vs with
      | nil =>
          obtain rfl := List.map_eq_nil_iff.mp words
          refine ⟨[x], ?_, ?_⟩
          · rw [List.append_nil]
            exact .lastParam one
          · exact congrArg (fun y => [y]) same
      | cons v' vs =>
          obtain ⟨c, rest, rfl, comma, words⟩ := List.map_eq_cons_iff.mp words
          obtain ⟨xs, others, all⟩ := ih later words
          refine ⟨x :: xs, .moreParams one (Token.kind_of_symbol comma) others, ?_⟩
          rw [skeletonList, skeletonList, same, all]

variable {ws : List Word} {pos : Position} {close : Close} {layout : Layout}

theorem Says.list {items : List Node} (inside : Says (.items .test) ws items) :
    Says .atom (.symbol .lbrack :: (ws ++ [.symbol .rbrack]))
      [.bare (.collection .list pos items close layout)] := by
  refine .ofOne fun ts words => ?_
  obtain ⟨a, us, b, rfl, opening, between, closing⟩ := exists_of_enclosed words
  obtain ⟨xs, spells, same⟩ := inside between
  refine ⟨_, .list (Token.kind_of_symbol opening) (Token.kind_of_symbol closing) spells, ?_⟩
  show Node.bare (.collection .list .nowhere (skeletonList xs) (.at .nowhere) ⟨false, false⟩) = _
  rw [same]
  rfl

theorem Says.dict {items : List Node} (inside : Says (.items .entry) ws items) :
    Says .atom (.symbol .lbrace :: (ws ++ [.symbol .rbrace]))
      [.bare (.collection .dict pos items close layout)] := by
  refine .ofOne fun ts words => ?_
  obtain ⟨a, us, b, rfl, opening, between, closing⟩ := exists_of_enclosed words
  obtain ⟨xs, spells, same⟩ := inside between
  refine ⟨_, .dict (Token.kind_of_symbol opening) (Token.kind_of_symbol closing) spells, ?_⟩
  show Node.bare (.collection .dict .nowhere (skeletonList xs) (.at .nowhere) ⟨false, false⟩) = _
  rw [same]
  rfl

theorem Says.set {v : Node} {vs : List Node} (each : ∀ x ∈ v :: vs, Says .test (word x) [x]) :
    Says .atom (.symbol .lbrace :: (Starlark.separated trail ((v :: vs).map word) ++
      [.symbol .rbrace])) [.bare (.collection .set pos (v :: vs) close layout)] := by
  obtain ⟨here, later⟩ := List.forall_mem_cons.mp each
  refine .ofOne fun ts words => ?_
  obtain ⟨a, us, b, rfl, opening, between, closing⟩ := exists_of_enclosed words
  obtain ⟨first, more, rfl, one, others⟩ := List.map_eq_append_iff.mp between
  obtain ⟨x, two, same⟩ := here.one one
  obtain ⟨xs, three, all⟩ := Says.followed later others
  refine ⟨_, .set (Token.kind_of_symbol opening) (Token.kind_of_symbol closing) two three, ?_⟩
  show Node.bare (.collection .set .nowhere (x.skeleton :: skeletonList xs) (.at .nowhere)
    ⟨false, false⟩) = _
  rw [same, all]
  rfl

/-- A tuple of one item is told from parentheses by its comma. -/
theorem Says.tuple {vs : List Node} (each : ∀ x ∈ vs, Says .test (word x) [x])
    (single : vs.length = 1 → trail = true) :
    Says .atom (.symbol .lparen :: (Starlark.separated trail (vs.map word) ++ [.symbol .rparen]))
      [.bare (.collection .tuple pos vs close layout)] := by
  refine .ofOne fun ts words => ?_
  obtain ⟨a, us, b, rfl, opening, between, closing⟩ := exists_of_enclosed words
  cases vs with
  | nil =>
      obtain rfl := List.map_eq_nil_iff.mp between
      exact ⟨_, .unit (Token.kind_of_symbol opening) (Token.kind_of_symbol closing), rfl⟩
  | cons v vs =>
      obtain ⟨here, later⟩ := List.forall_mem_cons.mp each
      obtain ⟨first, more, rfl, one, others⟩ := List.map_eq_append_iff.mp between
      obtain ⟨x, two, same⟩ := here.one one
      obtain ⟨xs, three, all⟩ := Says.followed later others
      have several : more ≠ [] := by
        rintro rfl
        cases vs with
        | nil =>
            rw [single rfl] at others
            cases others
        | cons => cases others
      refine ⟨_, .tuple (Token.kind_of_symbol opening) (Token.kind_of_symbol closing) two three
        several, ?_⟩
      show Node.bare (.collection .tuple .nowhere (x.skeleton :: skeletonList xs) (.at .nowhere)
        ⟨false, false⟩) = _
      rw [same, all]
      rfl

/-- Several parts without brackets. -/
theorem Says.bareTuple {q : Phrase} {vs : List Node} (several : 1 < vs.length)
    (each : ∀ x ∈ vs, Says p (word x) [x])
    (step : ∀ {ts us : List Token} {x : Node} {xs : List Node}, Spells p ts [x] →
      Spells (.tail p) us xs → us ≠ [] → Spells q (ts ++ us) [.bareTuple (x :: xs)]) :
    Says q (Starlark.separated trail (vs.map word))
      [.bare (.collection .bareTuple pos vs close layout)] := by
  obtain ⟨v, w, vs, rfl⟩ : ∃ v w ws, vs = v :: w :: ws := by
    match vs with
    | v :: w :: ws => exact ⟨v, w, ws, rfl⟩
  obtain ⟨here, later⟩ := List.forall_mem_cons.mp each
  refine .ofOne fun ts words => ?_
  obtain ⟨us, more, rfl, first, words⟩ := List.map_eq_append_iff.mp words
  obtain ⟨x, one, same⟩ := here.one first
  obtain ⟨xs, others, all⟩ := Says.followed later words
  have commas : more ≠ [] := by
    rintro rfl
    cases words
  refine ⟨_, step one others commas, ?_⟩
  show Node.bare (.collection .bareTuple .nowhere (x.skeleton :: skeletonList xs) (.at .nowhere)
    ⟨false, false⟩) = _
  rw [same, all]
  rfl

/-! ## Comprehensions -/

/-- A clause is read in front of the clauses behind it. -/
def SaysClause (ws : List Word) (v : Node) : Prop :=
  ∀ ⦃ts us : List Token⦄ ⦃zs : List Node⦄, ts.map Token.word = ws → Spells .clauses us zs →
    ∃ x, Spells .clauses (ts ++ us) (x :: zs) ∧ x.skeleton = v.skeleton ∧
      (startsWithLoop [v] = true → ∃ t rest, ts = t :: rest ∧ t.kind = .keyword .for)

theorem SaysClause.loop {bs us : List Word} {vars x : Node} {p r : Position}
    (bound : Says .targets bs [vars]) (range : Says (.layer 9) us [x]) :
    SaysClause (.keyword .for :: (bs ++ .keyword .in :: us)) (.bare (.forClause p vars r x)) := by
  intro ts rest zs words more
  obtain ⟨a, tail, rfl, loops, words⟩ := List.map_eq_cons_iff.mp words
  obtain ⟨as, tail, rfl, names, words⟩ := List.map_eq_append_iff.mp words
  obtain ⟨b, tail, rfl, inside, words⟩ := List.map_eq_cons_iff.mp words
  obtain ⟨vars', one, first⟩ := bound.one names
  obtain ⟨x', two, second⟩ := range.one words
  have spells := Spells.forClause (Token.kind_of_keyword loops) one (Token.kind_of_keyword inside)
    two more
  refine ⟨.bare (.forClause a.pos vars' b.pos x'), by simpa using spells, ?_,
    fun _ => ⟨a, _, rfl, Token.kind_of_keyword loops⟩⟩
  show Node.bare (.forClause .nowhere vars'.skeleton .nowhere x'.skeleton) = _
  rw [first, second]
  rfl

theorem SaysClause.filter {us : List Word} {cond : Node} {p : Position}
    (test : Says (.layer 9) us [cond]) :
    SaysClause (.keyword .if :: us) (.bare (.ifClause p cond)) := by
  intro ts rest zs words more
  obtain ⟨a, tail, rfl, tests, words⟩ := List.map_eq_cons_iff.mp words
  obtain ⟨x', one, same⟩ := test.one words
  refine ⟨_, .ifClause (Token.kind_of_keyword tests) one more, ?_, fun loops => nomatch loops⟩
  show Node.bare (.ifClause .nowhere x'.skeleton) = _
  rw [same]
  rfl

/-- Clauses are said one after the other, if a loop comes first. -/
theorem SaysClause.all {vs : List Node} (each : ∀ x ∈ vs, SaysClause (word x) x)
    (loops : startsWithLoop vs = true) {ts : List Token}
    (words : ts.map Token.word = vs.flatMap word) :
    ∃ xs, Spells .clauses ts xs ∧ skeletonList xs = skeletonList vs ∧
      (ts.headD .ended).kind = .keyword .for := by
  have some : ∀ {vs : List Node}, (∀ x ∈ vs, SaysClause (word x) x) → ∀ {ts : List Token},
      ts.map Token.word = vs.flatMap word →
        ∃ xs, Spells .clauses ts xs ∧ skeletonList xs = skeletonList vs := by
    intro vs each
    induction vs with
    | nil =>
        intro ts words
        obtain rfl := List.map_eq_nil_iff.mp words
        exact ⟨[], .noClause, rfl⟩
    | cons v vs ih =>
        intro ts words
        obtain ⟨here, later⟩ := List.forall_mem_cons.mp each
        obtain ⟨us, more, rfl, first, words⟩ := List.map_eq_append_iff.mp words
        obtain ⟨xs, others, all⟩ := ih later words
        obtain ⟨x, one, same, _⟩ := here first others
        exact ⟨x :: xs, one, by rw [skeletonList, skeletonList, same, all]⟩
  cases vs with
  | nil => cases loops
  | cons v vs =>
      obtain ⟨here, later⟩ := List.forall_mem_cons.mp each
      obtain ⟨us, more, rfl, first, words⟩ := List.map_eq_append_iff.mp words
      obtain ⟨xs, others, all⟩ := some later words
      obtain ⟨x, one, same, starts⟩ := here first others
      have loop : startsWithLoop [v] = true := by
        obtain ⟨c, f⟩ := v
        cases f <;> first | rfl | cases loops
      obtain ⟨t, rest, rfl, kind⟩ := starts loop
      exact ⟨x :: xs, one, by rw [skeletonList, skeletonList, same, all], kind⟩

/-- A comprehension is said by its element and its clauses, in brackets of either kind. -/
theorem Says.comprehension {curly multiLine : Bool} {body : Node} {clauses : List Node}
    (element : Says .test ws [body] ∨ curly = true ∧ Says .entry ws [body])
    (each : ∀ x ∈ clauses, SaysClause (word x) x) (loops : startsWithLoop clauses = true) :
    Says .atom (.symbol (if curly then .lbrace else .lbrack) :: (ws ++ clauses.flatMap word ++
        [.symbol (if curly then .rbrace else .rbrack)]))
      [.bare (.comprehension curly pos body clauses close multiLine)] := by
  refine .ofOne fun ts words => ?_
  obtain ⟨a, us, b, rfl, opening, between, closing⟩ := exists_of_enclosed words
  obtain ⟨bs, cs, rfl, first, others⟩ := List.map_eq_append_iff.mp between
  obtain ⟨xs, parts, all, loop⟩ := SaysClause.all each loops others
  have open' := Token.kind_of_symbol opening
  have close' := Token.kind_of_symbol closing
  cases curly with
  | false =>
      obtain plain | ⟨absurd, _⟩ := element
      · obtain ⟨x, one, same⟩ := plain.one first
        refine ⟨_, .listComprehension open' close' one parts loop, ?_⟩
        show Node.bare (.comprehension false .nowhere x.skeleton (skeletonList xs) (.at .nowhere)
          false) = _
        rw [same, all]
        rfl
      · cases absurd
  | true =>
      obtain ⟨p, phrase, x, one, same⟩ : ∃ p, (p = .test ∨ p = .entry) ∧
          ∃ x, Spells p bs [x] ∧ x.skeleton = body.skeleton := by
        obtain plain | ⟨_, entry⟩ := element
        · exact ⟨.test, .inl rfl, plain.one first⟩
        · exact ⟨.entry, .inr rfl, entry.one first⟩
      refine ⟨_, .braceComprehension open' close' phrase one parts loop, ?_⟩
      show Node.bare (.comprehension true .nowhere x.skeleton (skeletonList xs) (.at .nowhere)
        false) = _
      rw [same, all]
      rfl

end Sequences

/-! ## The words of scripts -/

namespace Script

@[simp] theorem words_onlyIf (b : Bool) (s : Script) :
    (onlyIf b s).words = if b then s.words else [] := by
  cases b <;> rfl

theorem words_framed (comments : Comments) (parens isBlock : Bool) (body : Script) :
    (framed comments parens isBlock body).words =
      if parens then .symbol .lparen :: (body.words ++ [.symbol .rparen]) else body.words := by
  cases parens <;> cases isBlock <;> simp [framed, words, onlyIf, mark]

theorem words_operation (x : Script) (op : String) (breaks : Bool) (y : Script) (extra : Nat) :
    (operation x op breaks y extra).words = x.words ++ (operator op).words ++ y.words := by
  cases breaks <;> simp [operation, words]

theorem words_onOneLine (parts : List Part) :
    (onOneLine parts).words = separated false (parts.map fun x => x.script.words) := by
  fun_induction onOneLine parts with
  | case1 => rfl
  | case2 x => simp [separated, followed]
  | case3 x y rest ih => simp [ih, separated, followed, words, mark]

theorem words_onLines (enclosure : Enclosure) (parts : List Part) :
    (onLines enclosure parts).words =
      separated (enclosure ≠ .paren) (parts.map fun x => x.script.words) := by
  induction parts with
  | nil => rfl
  | cons x rest ih =>
      cases rest with
      | nil =>
          by_cases paren : enclosure = .paren <;>
            simp [onLines, separated, followed, words, mark, paren]
      | cons y rest =>
          rw [onLines, words_append, words_append, words_append, ih]
          simp [separated, followed, words, mark]

/-- Between the brackets of a sequence stand its parts with commas between them. Whether one
stands at the end is a matter of the layout, but a tuple of one part has it, and parentheses have
none. -/
theorem words_inside (enclosure : Enclosure) (parts : List Part) (comments : List Comment)
    (layout : Layout) :
    ∃ trail, (inside enclosure parts comments layout).words =
        separated trail (parts.map fun x => x.script.words) ∧
      (enclosure = .tuple → parts.length = 1 → trail = true) ∧
      (enclosure = .paren → trail = false) := by
  unfold inside
  split
  · rw [words_append, words_onOneLine, words_onlyIf]
    by_cases single : parts.length = 1 ∧ enclosure = .tuple
    · obtain ⟨x, rfl⟩ := List.length_eq_one_iff.mp single.1
      refine ⟨true, ?_, fun _ _ => rfl, fun paren => ?_⟩
      · simp [single.2, separated, followed, words, mark]
      · rw [single.2] at paren
        cases paren
    · refine ⟨false, ?_, fun tuple one => absurd ⟨one, tuple⟩ single, fun _ => rfl⟩
      have skips : (decide (parts.length = 1) && decide (enclosure = .tuple)) = false := by
        simpa using single
      simp [skips]
  · refine ⟨enclosure ≠ .paren, ?_, ?_, ?_⟩
    · simp [words, words_onLines]
    · rintro rfl _
      rfl
    · rintro rfl
      rfl

theorem words_clauses (multiLine : Bool) (parts : List Part) :
    (clauses multiLine parts).words = parts.flatMap fun x => x.script.words := by
  induction parts with
  | nil => rfl
  | cons x rest ih => cases multiLine <;> simp [clauses, words, ih]

theorem words_comprehension (curly : Bool) (body : Script) (parts : List Part)
    (comments : List Comment) (multiLine : Bool) :
    (comprehension curly body parts comments multiLine).words =
      .symbol (if curly then .lbrace else .lbrack) ::
        (body.words ++ (parts.flatMap fun x => x.script.words) ++
          [.symbol (if curly then .rbrace else .rbrack)]) := by
  cases lines : multiLine || !comments.isEmpty <;>
    simp [comprehension, words, words_clauses, mark, lines]

theorem words_lambdaParams (parts : List Part) :
    (lambdaParams parts).words = separated false (parts.map fun x => x.script.words) := by
  cases parts with
  | nil => rfl
  | cons x rest => exact words_onOneLine (x :: rest)

end Script

theorem parts_scriptList (vs : List Node) :
    ((scriptList vs).map Script.Line.part).map (fun x => x.script.words) =
      vs.map fun v => (v.script .low).words := by
  induction vs with
  | nil => rfl
  | cons v vs ih =>
      rw [scriptList, List.map_cons, List.map_cons, List.map_cons, ih]
      rfl

theorem flatMap_scriptList (vs : List Node) :
    ((scriptList vs).map Script.Line.part).flatMap (fun x => x.script.words) =
      vs.flatMap fun v => (v.script .low).words := by
  rw [List.flatMap_def, parts_scriptList, ← List.flatMap_def]

theorem length_scriptList (vs : List Node) : (scriptList vs).length = vs.length := by
  induction vs with
  | nil => rfl
  | cons v vs ih => rw [scriptList, List.length_cons, List.length_cons, ih]

theorem words_scriptOption (part : Option Node) :
    (scriptOption part .low).words = optionWords (fun v => (v.script .low).words) part := by
  cases part <;> rfl

/-! ## Legible trees -/

theorem Node.words_script_bare (f : Form) (outer : Strength) :
    ((Node.bare f).script outer).words =
      if f.needsParens outer then .symbol .lparen :: ((f.script []).words ++ [.symbol .rparen])
      else (f.script []).words := by
  rw [Node.bare, Node.script, Script.words_framed]
  rfl

theorem Script.words_sequence (enclosure : Enclosure) (parts : List Part) (comments : List Comment)
    (layout : Layout) :
    (sequence enclosure parts comments layout).words =
      (opening enclosure).words ++ (inside enclosure parts comments layout).words ++
        (closeOf enclosure).words := rfl

/-- In front of an attribute, a call or a subscript no `not` stands without parentheses. -/
theorem Node.beginsWithNot_suffix (v : Node) : v.beginsWithNot .suffix = false := by
  obtain ⟨comments, f⟩ := v
  cases f with
  | binary assigns x p op breaks y =>
      cases assigns with
      | true => simp only [Node.beginsWithNot, Form.beginsWithNot, Bool.and_false]
      | false =>
          rw [Node.beginsWithNot, Form.needsParens_operation]
          rfl
  | unary | conditional => rfl
  | _ => simp only [Node.beginsWithNot, Form.beginsWithNot, Bool.and_false]

/-- A form begins with a word, which is `not` only if the form says so. -/
def Form.Leads (f : Form) : Prop :=
  ∃ w, (f.script []).head? = some w ∧ (w.kind = .keyword .not → f.beginsWithNot = true)

theorem Form.leads_of_head? {f : Form} {w : Word} (first : (f.script []).head? = some w)
    (other : w.kind ≠ .keyword .not) : f.Leads :=
  ⟨w, first, fun word => absurd word other⟩

/-- A node begins with a word, which is `not` only if the node says so. -/
def Node.Leads (v : Node) (outer : Strength) : Prop :=
  ∃ w, (v.script outer).head? = some w ∧ (w.kind = .keyword .not → v.beginsWithNot outer = true)

theorem Form.Leads.node {f : Form} (leads : f.Leads) (outer : Strength) :
    (Node.bare f).Leads outer := by
  obtain ⟨w, first, leads⟩ := leads
  have loud := Script.isSilent_of_head? first
  rw [Node.Leads, Node.bare, Node.script]
  cases parens : f.needsParens outer with
  | true => exact ⟨.symbol .lparen, rfl, fun word => nomatch word⟩
  | false =>
      refine ⟨w, ?_, fun word => ?_⟩
      · simpa [Script.framed, Script.isSilent, Comments.none, loud] using first
      · rw [Node.beginsWithNot, parens, leads word]
        rfl

/-- A form that begins with an operand leads as the operand does. -/
theorem Node.Leads.form {v : Node} {outer : Strength} (leads : v.Leads outer) {f : Form}
    (front : (v.script outer).isSilent = false → (f.script []).head? = (v.script outer).head?)
    (begins : v.beginsWithNot outer = true → f.beginsWithNot = true) : f.Leads := by
  obtain ⟨w, first, word⟩ := leads
  refine ⟨w, ?_, fun kind => begins (word kind)⟩
  rw [front (Script.isSilent_of_head? first), first]

theorem Node.Leads.suffix {v : Node} (leads : v.Leads .suffix) {f : Form}
    (front : (v.script .suffix).isSilent = false →
      (f.script []).head? = (v.script .suffix).head?) : f.Leads := by
  refine leads.form front fun begins => ?_
  rw [v.beginsWithNot_suffix] at begins
  cases begins

/-- A test begins with a word, which is `not` only if the test says so, by cases of its form. -/
theorem Form.IsTest.leads {f : Form} (test : f.IsTest)
    (parts : ∀ c ∈ f.children, c.Plays .test → ∀ outer : Strength, c.Leads outer) : f.Leads := by
  cases f with
  | ident | literal | lambda | paren | comprehension =>
      exact Form.leads_of_head? rfl (by rintro ⟨⟩)
  | string lit =>
      have first : (Form.script (.string lit) []).head? = some ⟨.string, lit.spelling⟩ := by
        cases noted : !lit.isKept && !lit.token.isEmpty <;>
          simp [Form.script, StringLit.script, Script.onlyIf, noted, Script.isSilent, Script.head?]
      exact Form.leads_of_head? first (by rintro ⟨⟩)
  | dot x | index x | slice x | call x =>
      refine (parts x (List.mem_cons_self ..) test.1 .suffix).suffix fun loud => ?_
      simp only [Form.script, Script.head?_append, Script.isSilent_append, loud, Bool.false_and,
        Bool.false_eq_true, if_false]
  | unary p op x =>
      have kinds : ∀ op ∈ signs, (Word.sign op).kind = .keyword .not → op = "not" := by decide
      exact ⟨.sign op, rfl, fun word => beq_of_eq (kinds op test.1 word)⟩
  | binary assigns x p op breaks y =>
      obtain ⟨rfl, _, left, _⟩ := test
      refine (parts x (List.mem_cons_self ..) left (.ofOperator op)).form (fun loud => ?_) id
      simp only [Form.script, Script.operation, Script.head?, Script.head?_append,
        Script.isSilent_append, loud, Bool.false_and, Bool.false_eq_true, if_false]
  | conditional yes =>
      refine (parts yes (List.mem_cons_self ..) test.1 .or).form (fun loud => ?_) id
      simp only [Form.script, Script.head?_append, Script.isSilent_append, loud, Bool.false_and,
        Bool.false_eq_true, if_false]
  | collection kind =>
      cases kind with
      | bareTuple => exact absurd rfl test.1
      | list | set | dict | tuple => exact Form.leads_of_head? rfl (by rintro ⟨⟩)
  | _ => cases test

/-- A test without comments begins with a word. -/
theorem Node.leads (v : Node) (test : v.Plays .test) (quiet : v.remarks = []) (outer : Strength) :
    v.Leads outer := by
  induction v using Node.inductionOnChildren generalizing outer with
  | step v ih =>
      obtain ⟨comments, f⟩ := v
      rw [Node.remarks_mk, List.append_eq_nil_iff, Form.remarks, List.append_eq_nil_iff] at quiet
      obtain rfl : comments = .none := Comments.eq_none quiet.1
      refine Form.Leads.node (Form.IsTest.leads test fun c member plays outer => ?_) outer
      exact ih c member plays (List.flatMap_eq_nil_iff.mp quiet.2.2 c member) outer

namespace Node

/-- Whether a loop can bind a node as it is printed: an operand, or operands that form a tuple. -/
def isTarget : Node → Bool
  | .mk _ (.collection .bareTuple _ items _ _) => items.all fun x => !x.form.needsParens .suffix
  | v => !v.form.needsParens .suffix

/-- Whether the words of a node are read as the node, if those of its parts are. -/
def isLegible : Node → Bool
  | .mk _ (.collection .bareTuple _ items _ _) => 1 < items.length
  | .mk _ (.binary false _ _ op _ y) =>
    op != "is" || !y.beginsWithNot (Strength.ofOperator op).next
  | .mk _ (.forClause _ vars _ _) | .mk _ (.forStmt _ vars _ _) => vars.isTarget
  | _ => true

/-- What the words of a node spell where it plays a part in an expression. -/
def Said : Role → Node → Prop
  | .test, v => ∀ outer : Strength, Says (.ofRank outer.rank) (v.script outer).words [v]
  | .expression, v =>
    (∀ outer : Strength, Says .expression (v.script outer).words [v]) ∧
      (v.isTarget = true → Says .targets (v.script .low).words [v])
  | .argument, v => Says .argument (v.script .low).words [v]
  | .entry, v => Says .entry (v.script .low).words [v]
  | .element curly, v =>
    Says .test (v.script .low).words [v] ∨ curly = true ∧ Says .entry (v.script .low).words [v]
  | .clause, v => SaysClause (v.script .low).words v
  | .param types, v => types = false → Says (.param false) (v.script .low).words [v]
  | .line _, _ => True

/-- A test says what it says where any strength will do. -/
theorem Said.loose {v : Node} (said : v.Said .test) (outer : Strength) :
    Says .test (v.script outer).words [v] :=
  (said outer).impOne fun spells => spells.loosen (Nat.zero_le _)

end Node

/-- A form that is at least as strong as every context in which it has no parentheses. -/
theorem Says.node {f : Form} (own : Nat) (said : Says (.ofRank own) (f.script []).words [.bare f])
    (strong : ∀ outer : Strength, f.needsParens outer = false → outer.rank ≤ own) :
    (Node.bare f).Said .test := by
  intro outer
  rw [Node.words_script_bare]
  cases parens : f.needsParens outer with
  | false => exact said.impOne fun spells => spells.loosen (strong outer parens)
  | true =>
      have test : Says .test (f.script []).words [.bare f] :=
        said.impOne fun spells => spells.loosen (Nat.zero_le own)
      exact test.paren.operand_of_atom.ofOperand outer

theorem Says.nodeOfOperand {f : Form} (said : Says .operand (f.script []).words [.bare f]) :
    (Node.bare f).Said .test :=
  Says.node 15 said fun outer _ => by cases outer <;> decide

/-- A form of a strength is strong enough where it has no parentheses. -/
theorem Form.rank_le {f : Form} (own : Strength) {outer : Strength}
    (strength : f.strength? = some own)
    (free : f.needsParens outer = false) : outer.rank ≤ own.rank := by
  rw [Form.needsParens, strength, Option.any_some, Strength.isBelow, decide_eq_false_iff_not]
    at free
  omega

/-- Where any strength will do, no parentheses are needed. -/
@[simp] theorem Form.needsParens_low (f : Form) : f.needsParens .low = false := by
  rw [needsParens]
  cases f.strength? with
  | none => rfl
  | some own => exact decide_eq_false (Nat.not_lt_zero own.rank)

/-- What the words of a form say, its node says where any strength will do. -/
theorem Says.bare {p : Phrase} {f : Form} (said : Says p (f.script []).words [.bare f]) :
    Says p ((Node.bare f).script .low).words [.bare f] := by
  rwa [Node.words_script_bare, if_neg (by simp)]

section Forms

variable {f : Form}

/-- What is known of the parts of a form without comments. -/
structure Form.PartsSaid (f : Form) : Prop where
  quiet : ∀ c ∈ f.children, c.remarks = []
  said : ∀ c ∈ f.children, ∀ r : Role, c.Plays r → c.Said r

theorem Form.PartsSaid.maybe {part : Option Node} {r : Role} (parts : f.PartsSaid)
    (member : ∀ c ∈ part, c ∈ f.children) (plays : PlaysMaybe r part) : ∀ y ∈ part, y.Said r := by
  rintro y ⟨⟩
  exact parts.said y (member y rfl) r plays

theorem Form.words_unary {x : Node} {p : Position} {op : String} :
    (Form.script (.unary p op (some x)) []).words = .sign op :: (x.script .unary).words := by
  by_cases word : op = "not" <;> simp [Form.script, scriptOption, Script.words, word]

theorem Form.words_assignment {x y : Node} {p : Position} {breaks : Bool} :
    (Form.script (.binary true x p "=" breaks y) []).words =
      (x.script .assign).words ++ .sign "=" :: (y.script .comma).words := by
  rw [Form.script, Script.words_operation, List.append_assoc]
  rfl

/-- The words of a legible test spell it. -/
theorem Form.IsTest.said (test : f.IsTest) (legible : Node.isLegible (.bare f) = true)
    (held : f.held = []) (parts : f.PartsSaid) : (Node.bare f).Said .test := by
  cases f with
  | ident => exact Says.nodeOfOperand Says.name.operand_of_atom
  | literal => exact Says.nodeOfOperand Says.number.operand_of_atom
  | string lit =>
      have words : (Form.script (.string lit) []).words = [⟨.string, lit.spelling⟩] := by
        cases noted : !lit.isKept && !lit.token.isEmpty <;>
          simp [Form.script, StringLit.script, Script.onlyIf, noted, Script.words]
      refine Says.nodeOfOperand ?_
      rw [words]
      exact Says.string.operand_of_atom
  | dot x =>
      have inner := parts.said x (by simp [Form.children]) .test test.1
      refine Says.nodeOfOperand ?_
      rw [Form.script, Script.words_append, Script.words_append, List.append_assoc]
      exact Says.dot (inner .suffix)
  | index x p y =>
      have inner := parts.said x (by simp [Form.children]) .test test.1
      have place := parts.said y (by simp [Form.children]) .expression test.2
      refine Says.nodeOfOperand ?_
      simp only [Form.script, Script.words_append, List.append_assoc]
      exact Says.index (inner .suffix) (place.1 .low)
  | slice x p lower q upper second step s =>
      obtain ⟨operand, start, stop, stride, colons⟩ := test
      have inner := parts.said x (by simp [Form.children]) .test operand
      have lower' := parts.maybe (by simp +contextual [Form.children]) start
      have upper' := parts.maybe (by simp +contextual [Form.children]) stop
      have step' := parts.maybe (by simp +contextual [Form.children]) stride
      refine Says.nodeOfOperand ?_
      have said := Says.slice (p := p) (q := q) (s := s) (inner .suffix)
        (fun y member => (lower' y member).1 .low) (fun y member => upper' y member .low)
        (fun y member => step' y member .low) colons
      have words : (Form.script (.slice x p lower q upper second step s) []).words =
          (x.script .suffix).words ++ .symbol .lbrack ::
            ((optionWords (fun v => (v.script .low).words) lower ++ .symbol .colon ::
              (optionWords (fun v => (v.script .low).words) upper ++
                (if second.isSome then .symbol .colon ::
                  optionWords (fun v => (v.script .low).words) step else []))) ++
            [.symbol .rbrack]) := by
        cases second <;>
          simp [Form.script, words_scriptOption, Script.words, mark]
      rw [words]
      exact said
  | unary p op x =>
      obtain ⟨sign, present, plays⟩ := test
      obtain ⟨x, rfl⟩ := Option.isSome_iff_exists.mp present
      have inner := parts.said x (by simp [Form.children]) .test plays
      refine Says.node 14 ?_ fun outer => Form.rank_le .unary rfl
      rw [Form.words_unary]
      exact Says.sign sign (inner .unary)
  | binary assigns x p op breaks y =>
      obtain ⟨rfl, operator, left, right⟩ := test
      have first := parts.said x (by simp [Form.children]) .test left
      have second := parts.said y (by simp [Form.children]) .test right
      refine Says.node (Strength.ofOperator op).rank ?_ fun outer =>
        Form.rank_le (.ofOperator op) rfl
      rw [Form.script, Script.words_operation]
      refine Says.binary operator (first _) (second _) fun is => ?_
      obtain ⟨w, begins, leads⟩ := y.leads right (parts.quiet y (by simp [Form.children]))
        (Strength.ofOperator op).next
      have other : y.beginsWithNot (Strength.ofOperator op).next = false := by
        simpa [Node.isLegible, Node.bare, is] using legible
      obtain ⟨ws, same⟩ := Script.words_of_head? begins
      rw [same, List.head?_cons, Option.all_some, bne_iff_ne]
      intro word
      rw [other] at leads
      cases leads word
  | conditional x p y q z =>
      obtain ⟨yes, cond, no⟩ := test
      have first := parts.said x (by simp [Form.children]) .test yes
      have second := parts.said y (by simp [Form.children]) .test cond
      have third := parts.said z (by simp [Form.children]) .test no
      refine Says.node 4 ?_ fun outer => Form.rank_le .ifElse rfl
      have words : (Form.script (.conditional x p y q z) []).words =
          (x.script .or).words ++ .keyword .if ::
            ((y.script .or).words ++ .keyword .else :: (z.script .ifElse).words) := by
        simp [Form.script, Script.words, key]
      rw [words]
      exact Says.conditional (first .or) (second .or) (third .ifElse)
  | lambda p params q body =>
      obtain ⟨all, plays⟩ := test
      have each (x : Node) (member : x ∈ params) :=
        parts.said x (by simp [Form.children, member]) _ (playAll_iff.mp all x member) rfl
      have inner := parts.said body (by simp [Form.children]) .test plays
      refine Says.node 3 ?_ fun outer => Form.rank_le .colon rfl
      have words : (Form.script (.lambda p params q body) []).words = .keyword .lambda ::
          (separated false (params.map fun v => (v.script .low).words) ++
            .symbol .colon :: (body.script .low).words) := by
        simp [Form.script, Script.words, key, mark, Script.words_lambdaParams, ← parts_scriptList]
      rw [words]
      exact Says.lambda (Says.params each) (inner .low)
  | call callee p args close layout =>
      obtain ⟨plays, all⟩ := test
      have each (x : Node) (member : x ∈ args) : x.Said .argument :=
        parts.said x (by simp [Form.children, member]) _ (playAll_iff.mp all x member)
      have inner := parts.said callee (by simp [Form.children]) .test plays
      have none : close.comments = .none := Comments.eq_none held
      refine Says.nodeOfOperand ?_
      obtain ⟨trail, inside, _⟩ :=
        Script.words_inside .call ((scriptList args).map Script.Line.part)
        [] layout
      rw [parts_scriptList] at inside
      have words : (Form.script (.call callee p args close layout) []).words =
          (callee.script .suffix).words ++ .symbol .lparen ::
            (separated trail (args.map fun v => (v.script .low).words) ++ [.symbol .rparen]) := by
        rw [← inside, Form.script, Script.words_append, none]
        rfl
      rw [words]
      exact Says.call (inner .suffix) (Says.separated each)
  | collection kind p items close layout =>
      obtain ⟨bracketed, some, all⟩ := test
      have none : close.comments = .none := Comments.eq_none held
      have each (x : Node) (member : x ∈ items) : x.Said (if kind = .dict then .entry else .test) :=
        parts.said x member _ (playAll_iff.mp all x member)
      refine Says.nodeOfOperand (Says.operand_of_atom ?_)
      obtain ⟨trail, inside, single, _⟩ := Script.words_inside (.ofCollection kind)
        ((scriptList items).map Script.Line.part) [] layout
      rw [parts_scriptList] at inside
      have words : (Form.script (.collection kind p items close layout) []).words =
          (Script.opening (.ofCollection kind)).words ++
            separated trail (items.map fun v => (v.script .low).words) ++
            (Script.closeOf (.ofCollection kind)).words := by
        rw [← inside, Form.script, none]
        rfl
      rw [words]
      cases kind with
      | bareTuple => exact absurd rfl bracketed
      | list => exact Says.list (Says.separated fun x member => each x member .low)
      | dict => exact Says.dict (Says.separated each)
      | set =>
          obtain ⟨v, vs, rfl⟩ := List.exists_cons_of_ne_nil (some rfl)
          exact Says.set fun x member => each x member .low
      | tuple =>
          refine Says.tuple (fun x member => each x member .low) fun one => single rfl ?_
          rw [List.length_map, length_scriptList, one]
  | comprehension curly p body clauses close multiLine =>
      obtain ⟨plays, loops, all⟩ := test
      have each (x : Node) (member : x ∈ clauses) : x.Said .clause :=
        parts.said x (by simp [Form.children, member]) _ (playAll_iff.mp all x member)
      have element := parts.said body (by simp [Form.children]) (.element curly) plays
      refine Says.nodeOfOperand (Says.operand_of_atom ?_)
      rw [Form.script, Script.words_comprehension, flatMap_scriptList]
      exact Says.comprehension element each loops
  | paren p x close multiLine =>
      have inner := parts.said x (by simp [Form.children]) .test test
      have none : close.comments = .none := Comments.eq_none held
      refine Says.nodeOfOperand (Says.operand_of_atom ?_)
      obtain ⟨trail, inside, _, free⟩ := Script.words_inside .paren
        [⟨!x.comments.before.isEmpty, x.script .low⟩] [] ⟨false, multiLine⟩
      obtain rfl := free rfl
      have words : (Form.script (.paren p x close multiLine) []).words =
          .symbol .lparen :: ((x.script .low).words ++ [.symbol .rparen]) := by
        rw [Form.script, Script.words_sequence, none]
        show [Word.symbol .lparen] ++ (Script.inside .paren _ [] _).words ++ [.symbol .rparen] = _
        rw [inside]
        simp [separated, followed]
      rw [words]
      exact Says.paren (inner .low)
  | _ => cases test

/-- A test is an expression, and an operand can be bound by a loop. -/
theorem Node.Said.expression (said : (Node.bare f).Said .test) (test : f.IsTest) :
    (Node.bare f).Said .expression := by
  refine ⟨fun outer => (said.loose outer).impOne .single, fun target => ?_⟩
  have free : f.needsParens .suffix = false := by
    cases f with
    | collection kind =>
        cases kind with
        | bareTuple => exact absurd rfl test.1
        | list | set | dict | tuple => rfl
    | _ => simpa [Node.isTarget, Node.bare] using target
  have operand : Says .operand ((Node.bare f).script .suffix).words [.bare f] := said .suffix
  rw [Node.words_script_bare, if_neg (by simp [free])] at operand
  exact Says.bare (operand.impOne .target)

/-- The words of a legible form spell it where its node plays a part. -/
theorem Form.said {r : Role} (plays : (Node.bare f).Plays r)
    (legible : Node.isLegible (.bare f) = true) (held : f.held = []) (parts : f.PartsSaid) :
    (Node.bare f).Said r := by
  have test (test : f.IsTest) : (Node.bare f).Said .test := test.said legible held parts
  have entry {x y : Node} {p : Position} (left : x.Said .test) (right : y.Said .test) :
      Says .entry ((Node.bare (.keyValue x p y)).script .low).words [.bare (.keyValue x p y)] := by
    have words : (Form.script (.keyValue x p y) []).words =
        (x.script .low).words ++ .symbol .colon :: (y.script .low).words := by
      simp [Form.script, Script.words, mark]
    refine Says.bare ?_
    rw [words]
    exact Says.entry (left .low) (right .low)
  cases r with
  | line => trivial
  | test => exact test plays
  | expression =>
      cases f with
      | collection kind p items close layout =>
          cases kind with
          | bareTuple =>
              have several : 1 < items.length := by simpa [Node.isLegible, Node.bare] using legible
              have each (x : Node) (member : x ∈ items) : x.Said .test :=
                parts.said x member .test (playAll_iff.mp plays.2 x member)
              have none : close.comments = .none := Comments.eq_none held
              obtain ⟨trail, inside, _⟩ := Script.words_inside .none
                ((scriptList items).map Script.Line.part) [] layout
              rw [parts_scriptList] at inside
              have words : (Form.script (.collection .bareTuple p items close layout) []).words =
                  separated trail (items.map fun v => (v.script .low).words) := by
                rw [← inside, Form.script, none]
                exact List.append_nil _
              refine ⟨fun outer => ?_, fun target => Says.bare ?_⟩
              · have free : Form.needsParens (.collection .bareTuple p items close layout) outer =
                    false := rfl
                rw [Node.words_script_bare, if_neg (by simp [free]), words]
                exact Says.bareTuple several (fun x member => each x member .low) .several
              · have free (x : Node) (member : x ∈ items) :
                    Says .operand (x.script .low).words [x] := by
                  have all : (items.all fun x => !x.form.needsParens .suffix) = true := target
                  have free : x.form.needsParens .suffix = false := by
                    simpa using List.all_eq_true.mp all x member
                  have quiet := parts.quiet x member
                  have operand : Says .operand (x.script .suffix).words [x] := each x member .suffix
                  obtain ⟨c, g⟩ := x
                  rw [Node.remarks_mk, List.append_eq_nil_iff] at quiet
                  obtain rfl : c = .none := Comments.eq_none quiet.1
                  have plain := Node.words_script_bare g .suffix
                  rw [if_neg (by simpa using free)] at plain
                  exact Says.bare (plain ▸ operand)
                rw [words]
                exact Says.bareTuple several free .severalTargets
          | list | set | dict | tuple => exact (test plays).expression plays
      | _ => exact (test plays).expression plays
  | argument =>
      cases f with
      | unary p op x =>
          cases x with
          | none => exact (test plays .low).impOne .positional
          | some x =>
              obtain ⟨known, inside⟩ := plays
              rcases List.mem_append.mp known with sign | star
              · exact (test ⟨sign, rfl, inside⟩ .low).impOne .positional
              · have inner := parts.said x (by simp [Form.children]) .test inside
                exact Says.bare (Form.words_unary ▸ Says.starred star (inner.loose .unary))
      | binary assigns x p op breaks y =>
          cases assigns with
          | false => exact (test plays .low).impOne .positional
          | true =>
              obtain ⟨rfl, left, right⟩ := plays
              have first := parts.said x (by simp [Form.children]) .test left
              have second := parts.said y (by simp [Form.children]) .test right
              exact Says.bare (Form.words_assignment ▸
                Says.keyword (first.loose .assign) (second.loose .comma))
      | _ => exact (test plays .low).impOne .positional
  | entry =>
      cases f with
      | keyValue key p value =>
          exact entry (parts.said key (by simp [Form.children]) .test plays.1)
            (parts.said value (by simp [Form.children]) .test plays.2)
      | _ => cases plays
  | element curly =>
      cases f with
      | keyValue key p value =>
          exact .inr ⟨plays.1, entry (parts.said key (by simp [Form.children]) .test plays.2.1)
            (parts.said value (by simp [Form.children]) .test plays.2.2)⟩
      | _ => exact .inl (test plays .low)
  | clause =>
      cases f with
      | forClause p vars q x =>
          have bound := parts.said vars (by simp [Form.children]) .expression plays.1
          have range := parts.said x (by simp [Form.children]) .test plays.2
          have words : (Form.script (.forClause p vars q x) []).words = .keyword .for ::
              ((vars.script .low).words ++ .keyword .in :: (x.script .or).words) := by
            simp [Form.script, Script.words, key]
          show SaysClause ((Node.bare _).script .low).words _
          rw [Node.words_script_bare, if_neg (by simp), words]
          exact SaysClause.loop (bound.2 legible) (range .or)
      | ifClause p cond =>
          have inner := parts.said cond (by simp [Form.children]) .test plays
          have words : (Form.script (.ifClause p cond) []).words =
              .keyword .if :: (cond.script .or).words := by
            simp [Form.script, Script.words, key]
          show SaysClause ((Node.bare _).script .low).words _
          rw [Node.words_script_bare, if_neg (by simp), words]
          exact SaysClause.filter (inner .or)
      | _ => cases plays
  | param types =>
      rintro rfl
      cases f with
      | ident p name => exact Says.bare Says.plainParam
      | typed name p type => cases plays.1
      | unary p op x =>
          cases x with
          | none =>
              obtain rfl : op = "*" := plays
              exact Says.bare Says.bareStar
          | some x =>
              have quiet := parts.quiet x (by simp [Form.children])
              obtain ⟨c, g⟩ := x
              rw [Node.remarks_mk, List.append_eq_nil_iff] at quiet
              obtain rfl : c = .none := Comments.eq_none quiet.1
              cases g with
              | ident q name =>
                  exact Says.bare (Form.words_unary ▸ Says.starParam plays.1)
              | _ => cases plays
      | binary assigns x p op breaks y =>
          cases assigns with
          | false => cases plays
          | true =>
              have quiet := parts.quiet x (by simp [Form.children])
              obtain ⟨c, g⟩ := x
              rw [Node.remarks_mk, List.append_eq_nil_iff] at quiet
              obtain rfl : c = .none := Comments.eq_none quiet.1
              cases g with
              | ident q name =>
                  obtain ⟨rfl, _, right⟩ := plays
                  have value := parts.said y (by simp [Form.children]) .test right
                  exact Says.bare (Form.words_assignment ▸ Says.defaultParam (value.loose .comma))
              | typed name q type => cases plays.2.1
              | _ => cases plays
      | _ => cases plays

end Forms

/-- The words of a legible tree without comments spell it wherever it plays a part. -/
theorem Node.said (v : Node) : ∀ r : Role, v.Plays r → v.remarks = [] →
    v.everywhere isLegible = true → v.Said r := by
  induction v using Node.inductionOnChildren with
  | step v ih =>
      obtain ⟨comments, f⟩ := v
      intro r plays quiet legible
      obtain ⟨here, below⟩ := everywhere_iff.mp legible
      simp only [Node.remarks_mk, Form.remarks, List.append_eq_nil_iff] at quiet
      obtain ⟨own, held, inner⟩ := quiet
      obtain rfl : comments = .none := Comments.eq_none own
      have none (c : Node) (member : c ∈ f.children) : c.remarks = [] :=
        List.flatMap_eq_nil_iff.mp inner c member
      exact Form.said plays here held ⟨none, fun c member r plays =>
        ih c member r plays (none c member) (below c member)⟩

/-- Portable trees are legible. -/
theorem Portable.legible {r : Role} {v : Node} (portable : Portable r v) :
    v.everywhere Node.isLegible = true := by
  induction v using Node.inductionOnChildren generalizing r with
  | step v ih =>
      refine Node.everywhere_iff.mpr ⟨?_, fun c member => ?_⟩
      · induction portable with
        | binary _ _ _ alone => simpa [Node.isLegible, Node.bare, or_iff_not_imp_left] using alone
        | @collection kind _ _ items _ bracketed =>
            cases kind with
            | bareTuple => exact absurd rfl bracketed
            | list | set | dict | tuple => rfl
        | positional _ inner | plainElement _ inner | entryElement _ inner => exact inner ih
        | _ => rfl
      · obtain ⟨s, part⟩ := portable.children c member
        exact ih c member part

theorem Portable.said {r : Role} {v : Node} (portable : Portable r v) : v.Said r :=
  v.said r portable.plays portable.quiet portable.legible

end Starlark
