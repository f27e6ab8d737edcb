import Starlark.Proofs.Shape

/-!
# Portable trees

A portable tree is an expression whose text can be read back. It may come from
an edit instead of from a source: operators nest in every way, strings have a
value and no token, and the hints for the layout are arbitrary. What is asked
for is only what no way of printing could make up for: names are no keywords, a
number has no attribute, an `is` does not stand in front of a `not`, sets are not
empty, and loops bind one name.
-/

set_option autoImplicit false

namespace Starlark

open Lexeme (isWordChar startsNumber numberExtent)

/-- Whether a text is an identifier that is no keyword. -/
def isIdentifier (name : String) : Bool :=
  match name.toList with
  | [] => false
  | c :: rest =>
    isWordChar c && !c.isDigit && rest.all isWordChar && (Keyword.ofLetters? (c :: rest)).isNone

/-- Whether a text is the token of a number. -/
def isNumeral (token : String) : Bool :=
  match token.toList with
  | [] => false
  | c :: rest => startsNumber c rest && numberExtent rest == rest.length

mutual

/-- Whether a node is printed with `not` as its first word where `outer` is asked for. -/
def Node.beginsWithNot : Node → Strength → Bool
  | .mk _ f, outer => !f.needsParens outer && f.beginsWithNot

/-- Whether a form is printed with `not` as its first word. -/
def Form.beginsWithNot : Form → Bool
  | .unary _ op _ => op == "not"
  | .binary false x _ op _ _ => x.beginsWithNot (.ofOperator op)
  | .conditional yes _ _ _ _ => yes.beginsWithNot .or
  | _ => false

end

/-- A tree without comments whose text can be read back as the part it plays. -/
inductive Portable : Role → Node → Prop
  | ident {p : Position} {name : String} (known : isIdentifier name = true) :
      Portable .test (.bare (.ident p name))
  | literal {p : Position} {token : String} (known : isNumeral token = true) :
      Portable .test (.bare (.literal p token))
  | string {p q : Position} {value : String} {triple : Bool} :
      Portable .test (.bare (.string ⟨p, value, triple, q, ""⟩))
  | dot {x : Node} {p q : Position} {name : String} (inner : Portable .test x)
      (sharp : x.form.isLiteral = false) (known : isIdentifier name = true) :
      Portable .test (.bare (.dot x p q name))
  | index {x y : Node} {p q : Position} (inner : Portable .test x) (place : Portable .test y) :
      Portable .test (.bare (.index x p y q))
  | slice {x : Node} {p q s : Position} {second : Option Position} {lower upper step : Option Node}
      (inner : Portable .test x) (start : ∀ y ∈ lower, Portable .test y)
      (stop : ∀ y ∈ upper, Portable .test y) (stride : ∀ y ∈ step, Portable .test y)
      (colons : second = none → step = none) :
      Portable .test (.bare (.slice x p lower q upper second step s))
  | unary {x : Node} {p : Position} {op : String} (sign : op ∈ signs) (inner : Portable .test x) :
      Portable .test (.bare (.unary p op (some x)))
  | binary {x y : Node} {p : Position} {op : String} {breaks : Bool}
      (operator : op ∈ binaryOperators) (left : Portable .test x) (right : Portable .test y)
      (alone : op = "is" → y.beginsWithNot (Strength.ofOperator op).next = false) :
      Portable .test (.bare (.binary false x p op breaks y))
  | conditional {x y z : Node} {p q : Position} (yes : Portable .test x) (cond : Portable .test y)
      (no : Portable .test z) : Portable .test (.bare (.conditional x p y q z))
  | lambda {p q : Position} {params : List Node} {body : Node}
      (parts : ∀ x ∈ params, Portable (.param false) x) (inner : Portable .test body) :
      Portable .test (.bare (.lambda p params q body))
  | call {x : Node} {p q : Position} {args : List Node} {layout : Layout}
      (callee : Portable .test x) (parts : ∀ x ∈ args, Portable .argument x) :
      Portable .test (.bare (.call x p args (.at q) layout))
  | collection {kind : Collection} {p q : Position} {items : List Node} {layout : Layout}
      (bracketed : kind ≠ .bareTuple) (some : kind = .set → items ≠ [])
      (parts : ∀ x ∈ items, Portable (if kind = .dict then .entry else .test) x) :
      Portable .test (.bare (.collection kind p items (.at q) layout))
  | comprehension {curly multiLine : Bool} {p q : Position} {body : Node} {clauses : List Node}
      (element : Portable (.element curly) body) (loops : startsWithLoop clauses = true)
      (parts : ∀ x ∈ clauses, Portable .clause x) :
      Portable .test (.bare (.comprehension curly p body clauses (.at q) multiLine))
  | paren {x : Node} {p q : Position} {multiLine : Bool} (inner : Portable .test x) :
      Portable .test (.bare (.paren p x (.at q) multiLine))
  | positional {x : Node} (inner : Portable .test x) : Portable .argument x
  | starred {x : Node} {p : Position} {op : String} (star : op ∈ stars) (inner : Portable .test x) :
      Portable .argument (.bare (.unary p op (some x)))
  | keyword {y : Node} {p q : Position} {name : String} {breaks : Bool}
      (known : isIdentifier name = true) (value : Portable .test y) :
      Portable .argument (.bare (.binary true (.bare (.ident p name)) q "=" breaks y))
  | entry {key value : Node} {p : Position} (left : Portable .test key)
      (right : Portable .test value) : Portable .entry (.bare (.keyValue key p value))
  | plainElement {curly : Bool} {x : Node} (inner : Portable .test x) : Portable (.element curly) x
  | entryElement {x : Node} (inner : Portable .entry x) : Portable (.element true) x
  | forClause {x : Node} {p q r : Position} {name : String} (known : isIdentifier name = true)
      (range : Portable .test x) :
      Portable .clause (.bare (.forClause p (.bare (.ident q name)) r x))
  | ifClause {cond : Node} {p : Position} (test : Portable .test cond) :
      Portable .clause (.bare (.ifClause p cond))
  | plainParam {p : Position} {name : String} (known : isIdentifier name = true) :
      Portable (.param false) (.bare (.ident p name))
  | defaultParam {y : Node} {p q : Position} {name : String} {breaks : Bool}
      (known : isIdentifier name = true) (value : Portable .test y) :
      Portable (.param false) (.bare (.binary true (.bare (.ident p name)) q "=" breaks y))

/-! ## Portable trees have the shape of what is read -/

open Lexeme in
/-- An identifier is cut off whole as a word. -/
theorem Word.sound_name {name : String} (known : isIdentifier name = true) :
    (Word.name name).Sound := by
  unfold isIdentifier at known
  split at known
  · cases known
  · rename_i c rest letters
    simp only [Bool.and_eq_true, Bool.not_eq_true', Option.isNone_iff_eq_none] at known
    obtain ⟨⟨⟨letter, noDigit⟩, word⟩, none⟩ := known
    have extent : wordExtent rest = rest.length := by
      rw [wordExtent, List.takeWhile_eq_self_iff.mpr (by simpa using word)]
    have cuts : Cuts c rest .word (wordExtent rest) := by
      refine .word letter noDigit fun _ => ?_
      cases rest with
      | nil => rfl
      | cons d rest =>
          have here : isWordChar d = true := (Bool.and_eq_true_iff.mp word).1
          have plain := isMark_of_isWordChar here
          simp only [isMark, Bool.or_eq_false_iff] at plain
          simp [plain.2]
    rw [extent] at cuts
    refine ⟨c, rest, letters, cuts, [], ?_⟩
    show Margin.wordKind name.toList [] = .ident
    rw [letters, Margin.wordKind, none]

/-- A number is cut off whole as a word. -/
theorem Word.sound_number {token : String} (known : isNumeral token = true) :
    (⟨.number, token.toList⟩ : Word).Sound := by
  unfold isNumeral at known
  split at known
  · cases known
  · rename_i c rest letters
    obtain ⟨starts, extent⟩ := Bool.and_eq_true_iff.mp known
    have cuts : Lexeme.Cuts c rest .number (numberExtent rest) := .number starts
    rw [beq_iff_eq.mp extent] at cuts
    exact ⟨c, rest, letters, cuts, [], rfl⟩

theorem playsMaybe_iff {r : Role} {part : Option Node} :
    PlaysMaybe r part ↔ ∀ v ∈ part, v.Plays r := by
  cases part <;> simp [PlaysMaybe]

/-- A portable tree can play its part, by induction on what makes it portable. -/
theorem Portable.plays {r : Role} {v : Node} (portable : Portable r v) : v.Plays r := by
  induction portable with
  | ident known | plainParam known => exact Word.sound_name known
  | literal known => exact Word.sound_number known
  | string => exact nofun
  | dot _ _ known inner => exact ⟨inner, Word.sound_name known⟩
  | index _ _ inner place => exact ⟨inner, place.expression⟩
  | slice _ _ _ _ colons inner start stop stride =>
      exact ⟨inner, playsMaybe_iff.mpr fun y member => (start y member).expression,
        playsMaybe_iff.mpr stop, playsMaybe_iff.mpr stride, colons⟩
  | unary sign _ inner => exact ⟨sign, rfl, inner⟩
  | binary operator _ _ _ left right => exact ⟨rfl, operator, left, right⟩
  | conditional _ _ _ yes cond no => exact ⟨yes, cond, no⟩
  | lambda _ _ parts inner => exact ⟨playAll_iff.mpr parts, inner⟩
  | call _ _ callee parts => exact ⟨callee, playAll_iff.mpr parts⟩
  | collection bracketed some _ parts => exact ⟨bracketed, some, playAll_iff.mpr parts⟩
  | comprehension _ loops _ element parts => exact ⟨element, loops, playAll_iff.mpr parts⟩
  | paren _ inner => exact inner
  | positional _ inner => exact inner.argument
  | starred star _ inner => exact ⟨List.mem_append_right _ star, inner⟩
  | keyword known _ value => exact ⟨rfl, Word.sound_name known, value⟩
  | entry _ _ left right => exact ⟨left, right⟩
  | plainElement _ inner => exact inner.element _
  | entryElement _ inner => exact inner.element_of_entry
  | forClause known _ range => exact ⟨Word.sound_name known, range⟩
  | ifClause _ test => exact test
  | defaultParam known _ value => exact ⟨rfl, Word.sound_name known, value⟩

end Starlark
