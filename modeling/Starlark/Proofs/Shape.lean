import Starlark.Proofs.Grammar.Statement
import Starlark.Proofs.Word
import Starlark.Node.Print

/-!
# The shape of trees

Which trees are expressions, arguments, parameters and statements, said of the
trees alone. Places, comments and hints do not matter, and operators may nest
in every way: parentheses are a matter of printing. Every tree that is read has
this shape (`Spells.plays`).
-/

set_option autoImplicit false

namespace Starlark

/-- The parts that a node can play. -/
inductive Role where
  | test
  /-- A test, or several that form a tuple without parentheses. -/
  | expression
  | argument
  /-- An entry of a dict. -/
  | entry
  /-- The body of a comprehension. -/
  | element (curly : Bool)
  /-- A clause of a comprehension. -/
  | clause
  | param (types : Bool)
  /-- A statement or a comment block. -/
  | line (types : Bool)
  deriving DecidableEq

/-- The signs in front of operands. -/
def signs : List String := ["-", "+", "~", "not"]

/-- The stars in front of arguments and parameters. -/
def stars : List String := ["*", "**"]

/-- The operators between operands. -/
def binaryOperators : List String :=
  ["or", "and", "in", "not in", "is", "is not", "<", ">", "==", "!=", "<=", ">=", "|", "^", "&",
    "<<", ">>", "+", "-", "*", "/", "//", "%"]

/-- The operators of assignments. -/
def assignments : List String :=
  ["=", "+=", "-=", "*=", "/=", "//=", "%=", "&=", "|=", "^=", "<<=", ">>="]

/-- The words that are a statement by themselves. -/
def branches : List String := ["pass", "break", "continue"]

/-- A literal whose token, when it is kept, can be cut off a source. -/
def StringLit.Lexical (lit : StringLit) : Prop :=
  lit.isKept = true → (⟨.string, lit.token.toList⟩ : Word).Sound

/-- A symbol of a `load` whose name, when it is printed, can be cut off a source. -/
def Binding.Lexical (b : Binding) : Prop :=
  b.bound.text ≠ b.symbol.text → (Word.name b.bound.text).Sound

/-- Whether a form is a number. -/
def Form.isLiteral : Form → Bool
  | .literal .. => true
  | _ => false

/-- Whether clauses begin with a loop. -/
def startsWithLoop : List Node → Bool
  | .mk _ (.forClause ..) :: _ => true
  | _ => false

mutual

/-- A form that is a test. -/
def Form.IsTest : Form → Prop
  | .ident _ name => (Word.name name).Sound
  | .literal _ token => (⟨.number, token.toList⟩ : Word).Sound
  | .string lit => lit.Lexical
  | .dot x _ _ name => x.Plays .test ∧ (Word.name name).Sound
  | .index x _ y _ => x.Plays .test ∧ y.Plays .expression
  | .slice x _ lower _ upper second step _ =>
    x.Plays .test ∧ PlaysMaybe .expression lower ∧ PlaysMaybe .test upper ∧
      PlaysMaybe .test step ∧ (second = none → step = none)
  | .unary _ op x => op ∈ signs ∧ x.isSome ∧ PlaysMaybe .test x
  | .binary assigns x _ op _ y =>
    assigns = false ∧ op ∈ binaryOperators ∧ x.Plays .test ∧ y.Plays .test
  | .conditional yes _ test _ no => yes.Plays .test ∧ test.Plays .test ∧ no.Plays .test
  | .lambda _ params _ body => PlayAll (.param false) params ∧ body.Plays .test
  | .call callee _ args _ _ => callee.Plays .test ∧ PlayAll .argument args
  | .collection kind _ items _ _ =>
    kind ≠ .bareTuple ∧ (kind = .set → items ≠ []) ∧
      PlayAll (if kind = .dict then .entry else .test) items
  | .comprehension curly _ body clauses _ _ =>
    body.Plays (.element curly) ∧ startsWithLoop clauses = true ∧ PlayAll .clause clauses
  | .paren _ x _ _ => x.Plays .test
  | _ => False

/-- A node that plays a part. -/
def Node.Plays : Role → Node → Prop
  | .test, .mk _ f => f.IsTest
  | .expression, .mk _ f =>
    match f with
    | .collection .bareTuple _ items _ _ => items ≠ [] ∧ PlayAll .test items
    | f => f.IsTest
  | .argument, .mk _ f =>
    match f with
    | .unary _ op (some x) => op ∈ signs ++ stars ∧ x.Plays .test
    | .binary true x _ op _ y => op = "=" ∧ x.Plays .test ∧ y.Plays .test
    | f => f.IsTest
  | .entry, .mk _ f =>
    match f with
    | .keyValue key _ value => key.Plays .test ∧ value.Plays .test
    | _ => False
  | .element curly, .mk _ f =>
    match f with
    | .keyValue key _ value => curly = true ∧ key.Plays .test ∧ value.Plays .test
    | f => f.IsTest
  | .clause, .mk _ f =>
    match f with
    | .forClause _ vars _ x => vars.Plays .expression ∧ x.Plays .test
    | .ifClause _ cond => cond.Plays .test
    | _ => False
  | .param types, .mk _ f =>
    match f with
    | .ident _ name => (Word.name name).Sound
    | .typed name _ type => types = true ∧ (Word.name name.text).Sound ∧ type.Plays .test
    | .unary _ op none => op = "*"
    | .unary _ op (some (.mk _ (.ident _ name))) => op ∈ stars ∧ (Word.name name).Sound
    | .binary true (.mk _ (.ident _ name)) _ op _ y =>
      op = "=" ∧ (Word.name name).Sound ∧ y.Plays .test
    | .binary true (.mk _ (.typed name _ type)) _ op _ y =>
      op = "=" ∧ types = true ∧ (Word.name name.text).Sound ∧ type.Plays .test ∧ y.Plays .test
    | _ => False
  | .line types, .mk _ f =>
    match f with
    | .commentBlock _ => True
    | .returnStmt _ result => PlaysMaybe .expression result
    | .branch token _ => token ∈ branches
    | .load _ label _ bindings _ _ => label.Lexical ∧ ∀ b ∈ bindings, b.Lexical
    | .binary true x _ op _ y =>
      op ∈ assignments ∧ x.Plays .expression ∧ y.Plays .expression
    | .defStmt _ name _ params _ _ body _ =>
      (Word.name name).Sound ∧ PlayAll (.param types) params ∧ PlayAll (.line types) body
    | .forStmt _ vars x body =>
      vars.Plays .expression ∧ x.Plays .expression ∧ PlayAll (.line types) body
    | .ifStmt _ cond yesBody _ noBody =>
      cond.Plays .expression ∧ PlayAll (.line types) yesBody ∧ PlayAll (.line types) noBody
    | .collection .bareTuple _ items _ _ => items ≠ [] ∧ PlayAll .test items
    | f => f.IsTest

/-- Nodes that all play a part. -/
def PlayAll : Role → List Node → Prop
  | _, [] => True
  | r, v :: vs => v.Plays r ∧ PlayAll r vs

/-- A node that plays a part if it is there. -/
def PlaysMaybe : Role → Option Node → Prop
  | _, none => True
  | r, some v => v.Plays r

end

theorem playAll_iff {r : Role} {vs : List Node} : PlayAll r vs ↔ ∀ v ∈ vs, v.Plays r := by
  induction vs with
  | nil => simp [PlayAll]
  | cons v vs ih => simp [PlayAll, ih]

theorem Node.Plays.expression {v : Node} (test : v.Plays .test) : v.Plays .expression := by
  obtain ⟨c, f⟩ := v
  cases f with
  | collection kind p items close layout =>
      cases kind with
      | bareTuple => exact absurd rfl test.1
      | list | set | dict | tuple => exact test
  | _ => exact test

/-! ## The texts of tokens -/

namespace Word

open Lexeme

variable {text : List Char}

/-- A keyword that is cut off a source is spelled as keywords are. -/
theorem Sound.keyword {k : Keyword} (sound : (⟨.keyword k, text⟩ : Word).Sound) :
    text = k.letters := by
  obtain ⟨_, _, _, _, rest, kind⟩ := sound
  have kind : Margin.wordKind text rest = .keyword k := kind
  have letters {word : Keyword} (found : Keyword.ofLetters? text = some word) :
      text = word.letters := by
    have same := List.find?_some found
    exact (beq_iff_eq.mp same).symm
  unfold Margin.wordKind at kind
  split at kind
  next found =>
    split at kind
    · cases kind
      exact letters found
    · cases kind
  next word _ found =>
    cases kind
    exact letters found
  next => cases kind

/-- So is a symbol. -/
theorem Sound.symbol {s : Symbol} (sound : (⟨.symbol s, text⟩ : Word).Sound) : text = s.signs := by
  obtain ⟨_, _, _, _, rest, kind⟩ := sound
  have kind : Margin.operatorKind text = .symbol s := kind
  unfold Margin.operatorKind Token.Kind.ofOperator? at kind
  split at kind
  next found =>
    cases kind
    have same := List.find?_some found
    exact (beq_iff_eq.mp same).symm
  next => split at kind <;> cases kind

theorem Sound.augmented (sound : (⟨.augmented, text⟩ : Word).Sound) : text ∈ augmentedSigns := by
  obtain ⟨c, more, same, cuts, rest, kind⟩ := sound
  have kind : Margin.operatorKind text = .augmented := kind
  have known := cuts.mem_operators
  rw [← same, operators, List.mem_append] at known
  rcases known with symbol | augmented
  · obtain ⟨s, _, rfl⟩ := List.mem_map.mp symbol
    simp [Margin.operatorKind, Token.Kind.ofOperator?, Symbol.ofSigns?_signs] at kind
  · exact augmented

/-- A name that is `load` before a parenthesis is a name elsewhere. -/
theorem Sound.name {kind : Token.Kind} (sound : (⟨kind, text⟩ : Word).Sound)
    (named : Reader.isName kind = true) : (⟨.ident, text⟩ : Word).Sound := by
  unfold Reader.isName at named
  split at named
  · exact sound
  · have letters := sound.keyword
    obtain ⟨c, more, same, cuts, _⟩ := sound
    refine ⟨c, more, same, cuts, [], ?_⟩
    show Margin.wordKind text [] = .ident
    rw [letters]
    rfl
  · cases named

end Word

namespace Token

variable {t : Token}

theorem text_of_keyword {k : Keyword} (sound : t.word.Sound) (kind : t.kind = .keyword k) :
    t.text = k.text := by
  unfold word at sound
  rw [kind] at sound
  rw [Keyword.text, ← sound.keyword, String.ofList_toList]

theorem text_of_symbol {s : Symbol} (sound : t.word.Sound) (kind : t.kind = .symbol s) :
    t.text = s.text := by
  unfold word at sound
  rw [kind] at sound
  rw [Symbol.text, ← sound.symbol, String.ofList_toList]

theorem name_sound (sound : t.word.Sound) (named : Reader.isName t.kind = true) :
    (Word.name t.text).Sound :=
  Word.Sound.name sound named

/-- A token that is read as a sign is one of the signs. -/
theorem text_mem_signs (sound : t.word.Sound) (sign : Reader.isSign t.kind = true) :
    t.text ∈ signs := by
  unfold Reader.isSign at sign
  split at sign
  iterate 3
    next kind =>
      rw [text_of_symbol sound kind]
      decide
  next kind =>
    rw [text_of_keyword sound kind]
    decide
  next => cases sign

theorem text_mem_stars (sound : t.word.Sound)
    (star : t.kind = .symbol .star ∨ t.kind = .symbol .starStar) : t.text ∈ stars := by
  rcases star with kind | kind <;>
    · rw [text_of_symbol sound kind]
      decide

/-- A token that is read as an assignment is one of the assignments. -/
theorem text_mem_assignments (sound : t.word.Sound)
    (assigns : t.kind = .symbol .eq ∨ t.kind = .augmented) : t.text ∈ assignments := by
  rcases assigns with kind | kind
  · rw [text_of_symbol sound kind]
    decide
  · have all : ∀ signs ∈ augmentedSigns, String.ofList signs ∈ assignments := by decide
    unfold word at sound
    rw [kind] at sound
    have member := all _ sound.augmented
    rwa [String.ofList_toList] at member

theorem text_mem_branches (sound : t.word.Sound) (branch : t.kind.isBranch = true) :
    t.text ∈ branches := by
  unfold Kind.isBranch at branch
  split at branch
  iterate 3
    next kind =>
      rw [text_of_keyword sound kind]
      decide
  next => cases branch

end Token

/-- Tokens that are read as an operator are one of the operators. -/
theorem OperatorTokens.mem_binaryOperators {layer : Nat} {next : Token.Kind} {ts : List Token}
    {pos : Position} {op : String} (operator : OperatorTokens layer next ts pos op)
    (sound : ∀ t ∈ ts, t.word.Sound) : op ∈ binaryOperators := by
  cases operator with
  | notIn | isNot => decide
  | @single t known notWord _ =>
      have here := sound t (by simp)
      generalize kind : t.kind = k at known notWord
      unfold Reader.layer? at known
      split at known
      all_goals first
        | exact absurd rfl notWord
        | cases known; done
        | (rw [Token.text_of_symbol here kind]; decide)
        | (rw [Token.text_of_keyword here kind]; decide)

/-! ## Trees that are read -/

namespace Phrase

/-- The part that the nodes of a phrase play. -/
def role : Phrase → Role
  | atom | operand | layer _ | test => .test
  | expression | targets => .expression
  | argument => .argument
  | entry => .entry
  | clauses => .clause
  | param types | params types => .param types
  | tail item | items item => item.role
  | maybe part => part.role

end Phrase

/-- Tokens that can all be cut off a source. -/
def SoundTokens (ts : List Token) : Prop := ∀ t ∈ ts, t.word.Sound

@[simp] theorem soundTokens_cons {t : Token} {ts : List Token} :
    SoundTokens (t :: ts) ↔ t.word.Sound ∧ SoundTokens ts := List.forall_mem_cons

@[simp] theorem soundTokens_append {ts us : List Token} :
    SoundTokens (ts ++ us) ↔ SoundTokens ts ∧ SoundTokens us := List.forall_mem_append

/-- A literal that is read from a sound token keeps a token that can be cut off. -/
theorem StringLit.lexical_ofToken {t : Token} {lit : StringLit} (sound : t.word.Sound)
    (kind : t.kind = .string) (value : ofToken t = .ok lit) : lit.Lexical := by
  unfold Token.word at sound
  rw [kind] at sound
  intro _
  unfold ofToken at value
  split at value
  · cases value
    exact sound
  · cases value

/-- Literals that stand next to each other are a test. -/
theorem Node.plays_ofStrings {first : StringLit} {rest : List StringLit} (lexical : first.Lexical)
    (others : ∀ lit ∈ rest, lit.Lexical) : (Node.ofStrings first rest).Plays .test := by
  have folded : ∀ x : Node, x.Plays .test → (rest.foldl
      (fun x lit => .joined false x lit.start "+" (.bare (.string lit))) x).Plays .test := by
    induction rest with
    | nil => exact fun x test => test
    | cons lit rest ih =>
        intro x test
        obtain ⟨here, later⟩ := List.forall_mem_cons.mp others
        exact ih later _ ⟨rfl, by decide, test, here⟩
  exact folded _ lexical

theorem StringLit.lexical_mapM {ts : List Token} {lits : List StringLit}
    (sound : SoundTokens ts) (kinds : ∀ t ∈ ts, t.kind = .string)
    (values : ts.mapM ofToken = .ok lits) : ∀ lit ∈ lits, lit.Lexical := by
  induction ts generalizing lits with
  | nil =>
      cases values
      simp
  | cons t ts ih =>
      obtain ⟨lit, more, value, others, rfl⟩ := Outcome.mapM_cons_eq_ok.mp values
      obtain ⟨kind, kinds⟩ := List.forall_mem_cons.mp kinds
      rw [soundTokens_cons] at sound
      exact List.forall_mem_cons.mpr
        ⟨lexical_ofToken sound.1 kind value, ih sound.2 kinds others⟩

theorem plays_head? {r : Role} {vs : List Node} (all : PlayAll r vs) : PlaysMaybe r vs.head? := by
  cases vs with
  | nil => exact trivial
  | cons v vs => exact all.1

theorem Node.Plays.element {v : Node} (test : v.Plays .test) (curly : Bool) :
    v.Plays (.element curly) := by
  obtain ⟨c, f⟩ := v
  cases f with
  | keyValue => cases test
  | _ => exact test

theorem Node.Plays.element_of_entry {v : Node} (entry : v.Plays .entry) :
    v.Plays (.element true) := by
  obtain ⟨c, f⟩ := v
  cases f with
  | keyValue => exact ⟨rfl, entry⟩
  | _ => cases entry

/-- A test can be an argument. -/
theorem Node.Plays.argument {v : Node} (test : v.Plays .test) : v.Plays .argument := by
  obtain ⟨c, f⟩ := v
  cases f with
  | unary p op x =>
      obtain ⟨sign, present, inner⟩ := test
      cases x with
      | none => cases present
      | some x => exact ⟨List.mem_append_left _ sign, inner⟩
  | binary assigns x p op b y =>
      cases assigns with
      | false => exact test
      | true => exact nomatch test.1
  | _ => exact test

theorem Spells.startsWithLoop {ts : List Token} {vs : List Node} (spells : Spells .clauses ts vs)
    (loops : (ts.headD .ended).kind = .keyword .for) : startsWithLoop vs = true := by
  cases spells with
  | noClause => cases loops
  | forClause => rfl
  | ifClause tests =>
      rw [List.headD_cons, tests] at loops
      cases loops

/-- The nodes of a phrase play the part of the phrase. -/
theorem Spells.plays {p : Phrase} {ts : List Token} {vs : List Node} (spells : Spells p ts vs)
    (sound : SoundTokens ts) : PlayAll p.role vs := by
  induction spells with
  | name named => exact ⟨Token.name_sound (sound _ (.head _)) named, trivial⟩
  | @number t kind =>
      have here := sound _ (.head _)
      unfold Token.word at here
      rw [kind] at here
      exact ⟨here, trivial⟩
  | strings kinds literals =>
      have all := StringLit.lexical_mapM sound kinds literals
      obtain ⟨first, rest⟩ := List.forall_mem_cons.mp all
      exact ⟨Node.plays_ofStrings first rest, trivial⟩
  | unit => exact ⟨⟨nofun, nofun, trivial⟩, trivial⟩
  | paren _ _ _ ih =>
      simp only [soundTokens_cons, soundTokens_append] at sound
      exact ⟨(ih sound.2.1).1, trivial⟩
  | tuple _ _ _ _ _ first more =>
      simp only [soundTokens_cons, soundTokens_append] at sound
      exact ⟨⟨nofun, nofun, (first sound.2.1.1).1, more sound.2.1.2⟩, trivial⟩
  | list _ _ _ ih | dict _ _ _ ih =>
      simp only [soundTokens_cons, soundTokens_append] at sound
      exact ⟨⟨nofun, nofun, ih sound.2.1⟩, trivial⟩
  | set _ _ _ _ first more =>
      simp only [soundTokens_cons, soundTokens_append] at sound
      exact ⟨⟨nofun, fun _ => nofun, (first sound.2.1.1).1, more sound.2.1.2⟩, trivial⟩
  | listComprehension _ _ _ parts loops first more =>
      simp only [soundTokens_cons, soundTokens_append] at sound
      exact ⟨⟨(first sound.2.1.1).1.element false, parts.startsWithLoop loops, more sound.2.1.2⟩,
        trivial⟩
  | braceComprehension _ _ phrase _ parts loops first more =>
      simp only [soundTokens_cons, soundTokens_append] at sound
      refine ⟨⟨?_, parts.startsWithLoop loops, more sound.2.1.2⟩, trivial⟩
      rcases phrase with rfl | rfl
      · exact (first sound.2.1.1).1.element true
      · exact (first sound.2.1.1).1.element_of_entry
  | entry _ _ _ key value =>
      simp only [soundTokens_cons, soundTokens_append] at sound
      exact ⟨⟨(key sound.1).1, (value sound.2.2).1⟩, trivial⟩
  | noClause | noParam | noMore | lastComma | noItem | missing => exact trivial
  | forClause _ _ _ _ _ bound range more =>
      simp only [soundTokens_cons, soundTokens_append] at sound
      exact ⟨⟨(bound sound.2.1).1, (range sound.2.2.2.1).1⟩, more sound.2.2.2.2⟩
  | ifClause _ _ _ cond more =>
      simp only [soundTokens_cons, soundTokens_append] at sound
      exact ⟨(cond sound.2.1).1, more sound.2.2⟩
  | atom _ ih | operand _ ih | tighter _ ih | disjunction _ ih | lastParam _ ih | present _ ih =>
      exact ih sound
  | dot _ _ named ih =>
      simp only [soundTokens_cons, soundTokens_append] at sound
      exact ⟨⟨(ih sound.1).1, Token.name_sound sound.2.2.1 named⟩, trivial⟩
  | call _ _ _ _ callee args =>
      simp only [soundTokens_cons, soundTokens_append] at sound
      exact ⟨⟨(callee sound.1).1, args sound.2.2.1⟩, trivial⟩
  | index _ _ _ _ inner place =>
      simp only [soundTokens_cons, soundTokens_append] at sound
      exact ⟨⟨(inner sound.1).1, (place sound.2.2.1).1⟩, trivial⟩
  | slice _ _ _ _ _ _ inner start stop =>
      simp only [soundTokens_cons, soundTokens_append] at sound
      exact ⟨⟨(inner sound.1).1, plays_head? (start sound.2.2.1),
        plays_head? (stop sound.2.2.2.2.1), trivial, fun _ => rfl⟩, trivial⟩
  | stepSlice _ _ _ _ _ _ _ _ inner start stop stride =>
      simp only [soundTokens_cons, soundTokens_append] at sound
      exact ⟨⟨(inner sound.1).1, plays_head? (start sound.2.2.1),
        plays_head? (stop sound.2.2.2.2.1), plays_head? (stride sound.2.2.2.2.2.2.1), nofun⟩,
        trivial⟩
  | starred star _ ih =>
      rw [soundTokens_cons] at sound
      exact ⟨⟨List.mem_append_right _ (Token.text_mem_stars sound.1 star), (ih sound.2).1⟩, trivial⟩
  | keyword _ eq _ left right =>
      simp only [soundTokens_cons, soundTokens_append] at sound
      exact ⟨⟨Token.text_of_symbol sound.2.1 eq, (left sound.1).1, (right sound.2.2).1⟩, trivial⟩
  | positional _ ih => exact ⟨(ih sound).1.argument, trivial⟩
  | sign sign _ ih =>
      rw [soundTokens_cons] at sound
      exact ⟨⟨Token.text_mem_signs sound.1 sign, rfl, (ih sound.2).1⟩, trivial⟩
  | binary _ operator _ left right =>
      simp only [soundTokens_append] at sound
      exact ⟨⟨rfl, operator.mem_binaryOperators sound.1.2, (left sound.1.1).1, (right sound.2).1⟩,
        trivial⟩
  | starStarParam star named =>
      simp only [soundTokens_cons] at sound
      exact ⟨⟨Token.text_mem_stars sound.1 (.inr star), Token.name_sound sound.2.1 named⟩, trivial⟩
  | starParam star named =>
      simp only [soundTokens_cons] at sound
      exact ⟨⟨Token.text_mem_stars sound.1 (.inl star), Token.name_sound sound.2.1 named⟩, trivial⟩
  | bareStar star => exact ⟨Token.text_of_symbol (sound _ (.head _)) star, trivial⟩
  | plainParam named => exact ⟨Token.name_sound (sound _ (.head _)) named, trivial⟩
  | defaultParam named eq _ value =>
      simp only [soundTokens_cons] at sound
      exact ⟨⟨Token.text_of_symbol sound.2.1 eq, Token.name_sound sound.1 named,
        (value sound.2.2).1⟩, trivial⟩
  | typedParam named _ _ type =>
      simp only [soundTokens_cons] at sound
      exact ⟨⟨rfl, Token.name_sound sound.1 named, (type sound.2.2).1⟩, trivial⟩
  | typedDefaultParam named _ _ eq _ type value =>
      simp only [soundTokens_cons, soundTokens_append] at sound
      exact ⟨⟨Token.text_of_symbol sound.2.2.2.1 eq, rfl, Token.name_sound sound.1 named,
        (type sound.2.2.1).1, (value sound.2.2.2.2).1⟩, trivial⟩
  | moreParams _ _ _ first more =>
      simp only [soundTokens_cons, soundTokens_append] at sound
      exact ⟨(first sound.1).1, more sound.2.2⟩
  | conditional _ _ _ _ _ yes cond no =>
      simp only [soundTokens_cons, soundTokens_append] at sound
      exact ⟨⟨(yes sound.1).1, (cond sound.2.2.1).1, (no sound.2.2.2.2).1⟩, trivial⟩
  | lambda _ _ _ _ parts body =>
      simp only [soundTokens_cons, soundTokens_append] at sound
      exact ⟨⟨parts sound.2.1, (body sound.2.2.2).1⟩, trivial⟩
  | single _ ih | target _ ih => exact ⟨(ih sound).1.expression, trivial⟩
  | several _ _ _ first more | severalTargets _ _ _ first more =>
      rw [soundTokens_append] at sound
      exact ⟨⟨nofun, (first sound.1).1, more sound.2⟩, trivial⟩
  | oneMore _ _ _ next more =>
      simp only [soundTokens_cons, soundTokens_append] at sound
      exact ⟨(next sound.2.1).1, more sound.2.2⟩
  | someItems _ _ first more =>
      rw [soundTokens_append] at sound
      exact ⟨(first sound.1).1, more sound.2⟩

end Starlark
