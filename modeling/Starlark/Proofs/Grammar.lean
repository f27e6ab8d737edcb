import Starlark.Proofs.Outcome
import Starlark.Reader.Expression

/-!
# The grammar of expressions

What the readers of expressions accept, written down without lookahead and
without bounds: `Spells p ts vs` says that the tokens `ts` spell the nodes `vs`
as a phrase of the kind `p`. Most phrases spell one node; sequences spell
several. Chains of operators and of suffixes are built from the left, the way
the nodes nest.

The readers and this relation describe each other. That a reader accepts only
what the relation allows lets every property of the trees that are read be
proved by induction on the relation, one case for each rule.
-/

set_option autoImplicit false

namespace Starlark

/-- The kinds of phrases. -/
inductive Phrase where
  /-- A name, a literal, or something in brackets. -/
  | atom
  /-- An atom with attributes, calls and subscripts. -/
  | operand
  /-- Binary operators of the tightest `count` layers; with none of them, an
  operand behind signs. -/
  | layer (count : Nat)
  /-- A conditional, a lambda, or binary operators of all layers. -/
  | test
  /-- One test, or several that form a tuple. -/
  | expression
  /-- What a `for` binds. -/
  | targets
  | argument
  /-- An entry of a dict. -/
  | entry
  /-- The clauses of a comprehension. -/
  | clauses
  | param (types : Bool)
  | params (types : Bool)
  /-- Commas and items behind a first item; a comma may stand at the end. -/
  | tail (item : Phrase)
  /-- Items with commas between them; a comma may stand at the end. -/
  | items (item : Phrase)
  /-- A phrase that may be missing. -/
  | maybe (part : Phrase)
  deriving DecidableEq

namespace Node

/-- String literals joined by `+`. -/
def ofStrings (first : StringLit) (rest : List StringLit) : Node :=
  rest.foldl (fun x lit => .joined false x lit.start "+" (.bare (.string lit)))
    (.bare (.string first))

end Node

/-- The tokens of a binary operator of a layer in front of a token of the kind
`next`, and the place and the text of the operator. An `is` takes a `not` behind
it along. -/
inductive OperatorTokens (layer : Nat) (next : Token.Kind) :
    List Token → Position → String → Prop
  | single {t : Token} (known : Reader.layer? t.kind = some layer)
      (notWord : t.kind ≠ .keyword .not)
      (alone : t.kind = .keyword .is → next ≠ .keyword .not) :
      OperatorTokens layer next [t] t.pos t.text
  | notIn {s t : Token} (known : Reader.layer? s.kind = some layer)
      (first : s.kind = .keyword .not) (second : t.kind = .keyword .in) :
      OperatorTokens layer next [s, t] s.pos "not in"
  | isNot {s t : Token} (known : Reader.layer? s.kind = some layer)
      (first : s.kind = .keyword .is) (second : t.kind = .keyword .not) :
      OperatorTokens layer next [s, t] s.pos "is not"

open Phrase Node in
/-- The tokens spell the nodes as a phrase of the kind. -/
inductive Spells : Phrase → List Token → List Node → Prop
  | name {t : Token} (named : Reader.isName t.kind = true) : Spells atom [t] [.ofName t]
  | number {t : Token} (kind : t.kind = .number) :
      Spells atom [t] [.bare (.literal t.pos t.text)]
  | strings {ts : List Token} {first : StringLit} {rest : List StringLit}
      (kinds : ∀ t ∈ ts, t.kind = .string)
      (literals : ts.mapM StringLit.ofToken = .ok (first :: rest)) :
      Spells atom ts [.ofStrings first rest]
  | unit {a b : Token} (opening : a.kind = .symbol .lparen) (closing : b.kind = .symbol .rparen) :
      Spells atom [a, b] [.collected .tuple a [] b]
  | paren {a b : Token} {ts : List Token} {x : Node} (opening : a.kind = .symbol .lparen)
      (closing : b.kind = .symbol .rparen) (inside : Spells test ts [x]) :
      Spells atom (a :: (ts ++ [b]))
        [.bare (.paren a.pos x (.at b.pos) (Layout.staysOpen a.pos [x] b.pos))]
  | tuple {a b : Token} {ts us : List Token} {x : Node} {xs : List Node}
      (opening : a.kind = .symbol .lparen) (closing : b.kind = .symbol .rparen)
      (first : Spells test ts [x]) (more : Spells (tail test) us xs) (several : us ≠ []) :
      Spells atom (a :: (ts ++ us ++ [b])) [.collected .tuple a (x :: xs) b]
  | list {a b : Token} {ts : List Token} {xs : List Node} (opening : a.kind = .symbol .lbrack)
      (closing : b.kind = .symbol .rbrack) (inside : Spells (items test) ts xs) :
      Spells atom (a :: (ts ++ [b])) [.collected .list a xs b]
  | dict {a b : Token} {ts : List Token} {xs : List Node} (opening : a.kind = .symbol .lbrace)
      (closing : b.kind = .symbol .rbrace) (inside : Spells (items entry) ts xs) :
      Spells atom (a :: (ts ++ [b])) [.collected .dict a xs b]
  | set {a b : Token} {ts us : List Token} {x : Node} {xs : List Node}
      (opening : a.kind = .symbol .lbrace) (closing : b.kind = .symbol .rbrace)
      (first : Spells test ts [x]) (more : Spells (tail test) us xs) :
      Spells atom (a :: (ts ++ us ++ [b])) [.collected .set a (x :: xs) b]
  | listComprehension {a b : Token} {ts us : List Token} {x : Node} {xs : List Node}
      (opening : a.kind = .symbol .lbrack) (closing : b.kind = .symbol .rbrack)
      (body : Spells test ts [x]) (parts : Spells clauses us xs)
      (loops : (us.headD .ended).kind = .keyword .for) :
      Spells atom (a :: (ts ++ us ++ [b]))
        [.bare (.comprehension false a.pos x xs (.at b.pos)
          (Layout.comprehensionStaysOpen a.pos x xs b.pos))]
  | braceComprehension {p : Phrase} {a b : Token} {ts us : List Token} {x : Node}
      {xs : List Node} (opening : a.kind = .symbol .lbrace)
      (closing : b.kind = .symbol .rbrace) (phrase : p = test ∨ p = entry)
      (body : Spells p ts [x]) (parts : Spells clauses us xs)
      (loops : (us.headD .ended).kind = .keyword .for) :
      Spells atom (a :: (ts ++ us ++ [b]))
        [.bare (.comprehension true a.pos x xs (.at b.pos)
          (Layout.comprehensionStaysOpen a.pos x xs b.pos))]
  | entry {c : Token} {ts us : List Token} {x y : Node} (key : Spells test ts [x])
      (colon : c.kind = .symbol .colon) (value : Spells test us [y]) :
      Spells entry (ts ++ c :: us) [.bare (.keyValue x c.pos y)]
  | noClause : Spells clauses [] []
  | forClause {a b : Token} {ts us vs : List Token} {x y : Node} {zs : List Node}
      (loops : a.kind = .keyword .for) (bound : Spells targets ts [x])
      (inside : b.kind = .keyword .in) (range : Spells (layer 9) us [y])
      (more : Spells clauses vs zs) :
      Spells clauses (a :: (ts ++ b :: (us ++ vs))) (.bare (.forClause a.pos x b.pos y) :: zs)
  | ifClause {a : Token} {ts us : List Token} {x : Node} {zs : List Node}
      (tests : a.kind = .keyword .if) (cond : Spells (layer 9) ts [x])
      (more : Spells clauses us zs) :
      Spells clauses (a :: (ts ++ us)) (.bare (.ifClause a.pos x) :: zs)
  | atom {ts : List Token} {x : Node} (plain : Spells atom ts [x]) : Spells operand ts [x]
  | dot {d t : Token} {ts : List Token} {x : Node} (inner : Spells operand ts [x])
      (dot : d.kind = .symbol .dot) (named : Reader.isName t.kind = true) :
      Spells operand (ts ++ [d, t]) [.bare (.dot x d.pos t.pos t.text)]
  | call {a b : Token} {ts us : List Token} {x : Node} {xs : List Node}
      (callee : Spells operand ts [x]) (opening : a.kind = .symbol .lparen)
      (args : Spells (items argument) us xs) (closing : b.kind = .symbol .rparen) :
      Spells operand (ts ++ a :: (us ++ [b]))
        [.bare (.call x a.pos xs (.at b.pos) (.ofParts a.pos xs b.pos))]
  | index {a b : Token} {ts us : List Token} {x y : Node} (inner : Spells operand ts [x])
      (opening : a.kind = .symbol .lbrack) (place : Spells expression us [y])
      (closing : b.kind = .symbol .rbrack) :
      Spells operand (ts ++ a :: (us ++ [b])) [.bare (.index x a.pos y b.pos)]
  | slice {a b c : Token} {ts us vs : List Token} {x : Node} {lower upper : List Node}
      (inner : Spells operand ts [x]) (opening : a.kind = .symbol .lbrack)
      (start : Spells (maybe expression) us lower) (colon : c.kind = .symbol .colon)
      (stop : Spells (maybe test) vs upper) (closing : b.kind = .symbol .rbrack) :
      Spells operand (ts ++ a :: (us ++ c :: (vs ++ [b])))
        [.bare (.slice x a.pos lower.head? c.pos upper.head? none none b.pos)]
  | stepSlice {a b c d : Token} {ts us vs ws : List Token} {x : Node}
      {lower upper step : List Node}
      (inner : Spells operand ts [x]) (opening : a.kind = .symbol .lbrack)
      (start : Spells (maybe expression) us lower) (colon : c.kind = .symbol .colon)
      (stop : Spells (maybe test) vs upper) (second : d.kind = .symbol .colon)
      (stride : Spells (maybe test) ws step) (closing : b.kind = .symbol .rbrack) :
      Spells operand (ts ++ a :: (us ++ c :: (vs ++ d :: (ws ++ [b]))))
        [.bare (.slice x a.pos lower.head? c.pos upper.head? (some d.pos) step.head? b.pos)]
  | starred {s : Token} {ts : List Token} {x : Node}
      (star : s.kind = .symbol .star ∨ s.kind = .symbol .starStar)
      (inner : Spells test ts [x]) :
      Spells argument (s :: ts) [.bare (.unary s.pos s.text (some x))]
  | keyword {e : Token} {ts us : List Token} {x y : Node} (left : Spells test ts [x])
      (eq : e.kind = .symbol .eq) (right : Spells test us [y]) :
      Spells argument (ts ++ e :: us) [.joined true x e.pos e.text y]
  | positional {ts : List Token} {x : Node} (inner : Spells test ts [x]) :
      Spells argument ts [x]
  | operand {ts : List Token} {x : Node} (plain : Spells operand ts [x]) :
      Spells (layer 0) ts [x]
  | sign {s : Token} {ts : List Token} {x : Node} (sign : Reader.isSign s.kind = true)
      (inner : Spells (layer 0) ts [x]) :
      Spells (layer 0) (s :: ts) [.bare (.unary s.pos s.text (some x))]
  | tighter {count : Nat} {ts : List Token} {x : Node} (inner : Spells (layer count) ts [x]) :
      Spells (layer (count + 1)) ts [x]
  | binary {count : Nat} {ts os us : List Token} {pos : Position} {op : String} {x y : Node}
      (left : Spells (layer (count + 1)) ts [x])
      (operator : OperatorTokens (9 - count) (us.headD .ended).kind os pos op)
      (right : Spells (layer count) us [y]) :
      Spells (layer (count + 1)) (ts ++ os ++ us) [.joined false x pos op y]
  | starStarParam {types : Bool} {s t : Token} (star : s.kind = .symbol .starStar)
      (named : Reader.isName t.kind = true) :
      Spells (param types) [s, t] [.bare (.unary s.pos s.text (some (.ofName t)))]
  | starParam {types : Bool} {s t : Token} (star : s.kind = .symbol .star)
      (named : Reader.isName t.kind = true) :
      Spells (param types) [s, t] [.bare (.unary s.pos s.text (some (.ofName t)))]
  | bareStar {types : Bool} {s : Token} (star : s.kind = .symbol .star) :
      Spells (param types) [s] [.bare (.unary s.pos s.text none)]
  | plainParam {types : Bool} {t : Token} (named : Reader.isName t.kind = true) :
      Spells (param types) [t] [.ofName t]
  | defaultParam {types : Bool} {t e : Token} {ts : List Token} {y : Node}
      (named : Reader.isName t.kind = true) (eq : e.kind = .symbol .eq)
      (value : Spells test ts [y]) :
      Spells (param types) (t :: e :: ts) [.joined true (.ofName t) e.pos e.text y]
  | typedParam {t c : Token} {ts : List Token} {x : Node}
      (named : Reader.isName t.kind = true) (colon : c.kind = .symbol .colon)
      (type : Spells test ts [x]) :
      Spells (param true) (t :: c :: ts) [.bare (.typed ⟨t.pos, t.text, .none⟩ c.pos x)]
  | typedDefaultParam {t c e : Token} {ts us : List Token} {x y : Node}
      (named : Reader.isName t.kind = true) (colon : c.kind = .symbol .colon)
      (type : Spells test ts [x]) (eq : e.kind = .symbol .eq) (value : Spells test us [y]) :
      Spells (param true) (t :: c :: (ts ++ e :: us))
        [.joined true (.bare (.typed ⟨t.pos, t.text, .none⟩ c.pos x)) e.pos e.text y]
  | noParam {types : Bool} : Spells (params types) [] []
  | lastParam {types : Bool} {ts : List Token} {x : Node}
      (inner : Spells (param types) ts [x]) : Spells (params types) ts [x]
  | moreParams {types : Bool} {c : Token} {ts us : List Token} {x : Node} {xs : List Node}
      (first : Spells (param types) ts [x]) (comma : c.kind = .symbol .comma)
      (more : Spells (params types) us xs) :
      Spells (params types) (ts ++ c :: us) (x :: xs)
  | disjunction {ts : List Token} {x : Node} (plain : Spells (layer 9) ts [x]) :
      Spells test ts [x]
  | conditional {a b : Token} {ts us vs : List Token} {x y z : Node}
      (yes : Spells (layer 9) ts [x]) (tests : a.kind = .keyword .if)
      (cond : Spells (layer 9) us [y]) (otherwise : b.kind = .keyword .else)
      (no : Spells test vs [z]) :
      Spells test (ts ++ a :: (us ++ b :: vs)) [.bare (.conditional x a.pos y b.pos z)]
  | lambda {a c : Token} {ts us : List Token} {xs : List Node} {y : Node}
      (opening : a.kind = .keyword .lambda) (parts : Spells (params false) ts xs)
      (colon : c.kind = .symbol .colon) (body : Spells test us [y]) :
      Spells test (a :: (ts ++ c :: us)) [.bare (.lambda a.pos xs c.pos y)]
  | single {ts : List Token} {x : Node} (plain : Spells test ts [x]) : Spells expression ts [x]
  | several {ts us : List Token} {x : Node} {xs : List Node} (first : Spells test ts [x])
      (more : Spells (tail test) us xs) (commas : us ≠ []) :
      Spells expression (ts ++ us) [.bareTuple (x :: xs)]
  | target {ts : List Token} {x : Node} (plain : Spells operand ts [x]) : Spells targets ts [x]
  | severalTargets {ts us : List Token} {x : Node} {xs : List Node}
      (first : Spells operand ts [x]) (more : Spells (tail operand) us xs) (commas : us ≠ []) :
      Spells targets (ts ++ us) [.bareTuple (x :: xs)]
  | noMore {p : Phrase} : Spells (tail p) [] []
  | lastComma {p : Phrase} {c : Token} (comma : c.kind = .symbol .comma) :
      Spells (tail p) [c] []
  | oneMore {p : Phrase} {c : Token} {ts us : List Token} {x : Node} {xs : List Node}
      (comma : c.kind = .symbol .comma) (next : Spells p ts [x]) (more : Spells (tail p) us xs) :
      Spells (tail p) (c :: (ts ++ us)) (x :: xs)
  | noItem {p : Phrase} : Spells (items p) [] []
  | someItems {p : Phrase} {ts us : List Token} {x : Node} {xs : List Node}
      (first : Spells p ts [x]) (more : Spells (tail p) us xs) :
      Spells (items p) (ts ++ us) (x :: xs)
  | missing {p : Phrase} : Spells (maybe p) [] []
  | present {p : Phrase} {ts : List Token} {x : Node} (inner : Spells p ts [x]) :
      Spells (maybe p) ts [x]

/-- Whether a phrase is always there. -/
def Phrase.isSolid : Phrase → Bool
  | .clauses | .params _ | .tail _ | .items _ | .maybe _ => false
  | _ => true

/-- Phrases that are always there take a token. -/
theorem Spells.ne_nil {p : Phrase} {ts : List Token} {vs : List Node} (spells : Spells p ts vs)
    (solid : p.isSolid = true) : ts ≠ [] := by
  induction spells with
  | strings _ literals =>
      rintro rfl
      cases literals
  | atom _ ih | positional _ ih | operand _ ih | tighter _ ih | disjunction _ ih | single _ ih
  | target _ ih => exact ih rfl
  | several _ _ commas | severalTargets _ _ commas => simp [commas]
  | binary _ _ _ left => simp [left rfl]
  | noClause | noParam | noMore | noItem => cases solid
  | forClause | ifClause | lastParam | moreParams | lastComma | oneMore | someItems | missing
  | present => cases solid
  | _ => simp

/-! ## Tokens of expressions -/

/-- Whether tokens of a kind stand inside a line; the others are comments, line
ends and the ends of blocks and of the source. -/
def Token.Kind.isInline : Token.Kind → Bool
  | .comment | .newline | .indent | .unindent | .eof => false
  | _ => true

namespace Token.Kind

@[simp] theorem isInline_number : isInline .number = true := rfl

@[simp] theorem isInline_string : isInline .string = true := rfl

@[simp] theorem isInline_augmented : isInline .augmented = true := rfl

@[simp] theorem isInline_keyword (word : Keyword) : isInline (.keyword word) = true := rfl

@[simp] theorem isInline_symbol (sign : Symbol) : isInline (.symbol sign) = true := rfl

theorem isInline_of_isName {kind : Kind} (named : Reader.isName kind = true) :
    kind.isInline = true := by
  unfold Reader.isName at named
  split at named <;> first | rfl | cases named

theorem isInline_of_isSign {kind : Kind} (sign : Reader.isSign kind = true) :
    kind.isInline = true := by
  unfold Reader.isSign at sign
  split at sign <;> first | rfl | cases sign

theorem isInline_of_layer? {kind : Kind} {layer : Nat} (known : Reader.layer? kind = some layer) :
    kind.isInline = true := by
  unfold Reader.layer? at known
  split at known <;> first | rfl | cases known

end Token.Kind

/-- Tokens that all stand inside a line. -/
def Inline (ts : List Token) : Prop := ∀ t ∈ ts, t.kind.isInline = true

@[simp] theorem inline_nil : Inline [] := fun _ member => nomatch member

@[simp] theorem inline_cons {t : Token} {ts : List Token} :
    Inline (t :: ts) ↔ t.kind.isInline = true ∧ Inline ts := List.forall_mem_cons

@[simp] theorem inline_append {ts us : List Token} :
    Inline (ts ++ us) ↔ Inline ts ∧ Inline us := List.forall_mem_append

theorem OperatorTokens.inline {layer : Nat} {next : Token.Kind} {ts : List Token}
    {pos : Position} {op : String} (operator : OperatorTokens layer next ts pos op) :
    Inline ts := by
  cases operator with
  | single known => simpa using Token.Kind.isInline_of_layer? known
  | notIn _ first second | isNot _ first second => simp [first, second]

/-- Expressions are made of tokens that stand inside a line. -/
theorem Spells.inline {p : Phrase} {ts : List Token} {vs : List Node} (spells : Spells p ts vs) :
    Inline ts := by
  induction spells with
  | strings kinds _ =>
      intro t member
      rw [kinds t member]
      rfl
  | binary _ operator _ left right => simp [left, right, operator.inline]
  | starred star _ ih =>
      obtain star | star := star <;> simp [star, ih]
  | _ => simp_all [Token.Kind.isInline_of_isName, Token.Kind.isInline_of_isSign]

/-! ## Where phrases start -/

theorem Node.start_ofStrings (first : StringLit) (rest : List StringLit) :
    (Node.ofStrings first rest).start = first.start := by
  have folded : ∀ x : Node, (rest.foldl
      (fun x lit => .joined false x lit.start "+" (.bare (.string lit))) x).start = x.start := by
    induction rest with
    | nil => exact fun x => rfl
    | cons lit rest ih => exact fun x => ih _
  exact folded _

theorem StringLit.start_ofToken {t : Token} {lit : StringLit} (value : ofToken t = .ok lit) :
    lit.start = t.pos := by
  unfold ofToken at value
  split at value
  · cases value
    rfl
  · cases value

/-- A phrase starts where its first token does. -/
theorem Spells.start_eq {p : Phrase} {ts : List Token} {v : Node} (spells : Spells p ts [v])
    (solid : p.isSolid = true) : v.start = (ts.headD .ended).pos := by
  generalize same : [v] = vs at spells
  induction spells generalizing v with
  | strings kinds literals =>
      rename_i ts first rest
      cases same
      cases ts with
      | nil => cases literals
      | cons t ts =>
          obtain ⟨lit, _, value, _, same⟩ := Outcome.mapM_cons_eq_ok.mp literals
          obtain ⟨rfl, _⟩ := List.cons.inj same
          rw [Node.start_ofStrings, StringLit.start_ofToken value, List.headD_cons]
  | atom _ ih | positional _ ih | operand _ ih | tighter _ ih | disjunction _ ih | single _ ih
  | target _ ih => exact ih rfl same
  -- phrases that start with another one
  | dot first _ _ ih | call first _ _ _ ih | index first _ _ _ ih | slice first _ _ _ _ _ ih
  | stepSlice first _ _ _ _ _ _ _ ih | binary first _ _ ih | conditional first _ _ _ _ ih
  | entry first _ _ ih | keyword first _ _ ih | several first _ _ ih
  | severalTargets first _ _ ih =>
      cases same
      obtain ⟨t, us, rfl⟩ := List.exists_cons_of_ne_nil (first.ne_nil rfl)
      have start := ih rfl rfl
      exact start
  | noClause | noParam | noMore | noItem | forClause | ifClause | lastParam | moreParams
  | lastComma | oneMore | someItems | missing | present => cases solid
  | _ =>
      cases same
      rfl

end Starlark
