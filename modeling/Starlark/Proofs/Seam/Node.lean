import Starlark.Node.Walk
import Starlark.Proofs.Quoted
import Starlark.Proofs.Remarks
import Starlark.Proofs.Seam
import Starlark.Proofs.Shape

/-!
# The seams of trees

The scripts of trees keep sheets tidy (`fits_statements`). The first words of
operands and the marks that may stand behind operands are told apart by their
first characters (`opens`, `closes`), so the proof asks of each word no more
than what it is and where it stands.
-/

set_option autoImplicit false

namespace Starlark

/-! ## Words -/

namespace Word

open Lexeme

/-- Every operator is a sound word. -/
theorem sound_operator {text : List Char} (known : text ∈ operators) :
    (⟨Margin.operatorKind text, text⟩ : Word).Sound := by
  have number : ∀ signs ∈ operators,
      signs.head?.all (fun c => !startsNumber c signs.tail) = true := by decide
  have same : Word.piece ⟨Margin.operatorKind text, text⟩ = .operator :=
    @piece_kindOf .operator rfl text []
  cases text with
  | nil => exact absurd known (by decide)
  | cons c rest =>
      have longest : IsLongest (c :: rest) (c :: rest) :=
        ⟨known, List.prefix_rfl, fun _ _ front => front.length_le⟩
      have free : startsNumber c rest = false := by simpa using number _ known
      refine ⟨c, rest, rfl, ?_, [], ?_⟩
      · rw [same]
        exact .operator longest.operatorText? free
      · rw [same]
        rfl

theorem sound_symbol (s : Symbol) : (symbol s).Sound := by
  have known : s.signs ∈ operators := by cases s <;> decide
  have kind : Margin.operatorKind s.signs = .symbol s := by cases s <;> decide
  have sound := sound_operator known
  rwa [kind] at sound

theorem sound_keyword (k : Keyword) : (keyword k).Sound := by
  cases k <;> exact ⟨_, _, rfl, .word rfl rfl (by decide), ['('], rfl⟩

/-- Whether a text is a keyword or an operator. -/
def isSign (op : String) : Bool :=
  (Keyword.ofLetters? op.toList).isSome || operators.contains op.toList

/-- A keyword or an operator is cut off whole. -/
theorem sound_sign {op : String} (known : isSign op = true) : (sign op).Sound := by
  unfold sign
  unfold isSign at known
  cases found : Keyword.ofLetters? op.toList with
  | some k =>
      have same := List.find?_some found
      have letters : k.letters = op.toList := beq_iff_eq.mp same
      have kind : Token.Kind.ofKeyword? op.toList = some (.keyword k) := by
        rw [Token.Kind.ofKeyword?, found]
        rfl
      rw [kind, ← letters]
      exact sound_keyword k
  | none =>
      have kind : Token.Kind.ofKeyword? op.toList = none := by
        rw [Token.Kind.ofKeyword?, found]
        rfl
      rw [found] at known
      rw [kind]
      exact sound_operator (by simpa using known)

/-- The characters that make a longer operator of a text. -/
def extensions (text : List Char) : List Char :=
  operators.filterMap fun signs => if text.isPrefixOf signs then signs[text.length]? else none

/-- An operator ends in front of a character that does not make it longer. -/
theorem endsOperator_of_not_mem {text : List Char} {d : Char} (free : d ∉ extensions text) :
    endsOperator text d = true := by
  refine List.all_eq_true.mpr fun signs member => ?_
  by_contra longer
  have front : text ++ [d] <+: signs := by simpa using longer
  obtain ⟨rest, same⟩ := front
  refine free (List.mem_filterMap.mpr ⟨signs, member, ?_⟩)
  have begins : text.isPrefixOf signs = true :=
    List.isPrefixOf_iff_prefix.mpr ⟨[d] ++ rest, by rw [← same, List.append_assoc]⟩
  rw [if_pos begins, ← same]
  simp

theorem admits_operator {dots : Bool} {w : Word} {d : Char} (operator : w.piece = .operator)
    (free : d ∉ extensions w.text) (dot : w.text = ['.'] → d.isDigit = false) :
    w.admits dots d = true := by
  rw [admits, operator, ends, endsOperator_of_not_mem free]
  by_cases same : w.text = ['.']
  · simp [same, dot same]
  · simp [same]

end Word

/-! ## First characters -/

/-- The characters that operands begin with; with `star`, arguments too. -/
def opens (star : Bool) (d : Char) : Bool :=
  Lexeme.isWordChar d || ['.', '"', '(', '[', '\x7b', '-', '+', '~'].contains d ||
    (star && d == '*')

/-- The characters of the marks that stand directly behind operands; with `dot`, the
one of an attribute too. -/
def closes (dot : Bool) (d : Char) : Bool :=
  ['[', '(', ')', ']', '\x7d', ',', ':'].contains d || (dot && d == '.')

theorem opens_of_false {star : Bool} {d : Char} (open' : opens false d = true) :
    opens star d = true := by
  simp only [opens, Bool.false_and, Bool.or_false] at open' ⊢
  rw [open', Bool.true_or]

theorem closes_of_false {dot : Bool} {d : Char} (close : closes false d = true) :
    closes dot d = true := by
  simp only [closes, Bool.false_and, Bool.or_false] at close ⊢
  rw [close, Bool.true_or]

/-- The marks behind operands are no parts of words, strings and numbers. -/
theorem closes_cases {dot : Bool} {d : Char} (close : closes dot d = true) :
    Lexeme.isWordChar d = false ∧ Lexeme.isQuote d = false ∧ d ≠ '+' ∧ d ≠ '-' ∧
      ((dot = true ∧ d = '.') ∨ Lexeme.isNumberChar d = false) := by
  simp only [closes, Bool.or_eq_true, List.contains_iff_mem, List.mem_cons, List.not_mem_nil,
    or_false, Bool.and_eq_true, beq_iff_eq] at close
  rcases close with (rfl | rfl | rfl | rfl | rfl | rfl | rfl) | ⟨rfl, rfl⟩ <;> decide +revert

namespace Word

open Lexeme

variable {dots : Bool} {w : Word} {d : Char}

theorem admits_word (word : w.piece = .word) (close : closes true d = true) :
    w.admits dots d = true := by
  obtain ⟨letter, quote, _⟩ := closes_cases close
  rw [admits, word, ends, letter, quote]
  rfl

theorem admits_string (string : w.piece = .string) (close : closes true d = true) :
    w.admits dots d = true := by
  obtain ⟨_, quote, _⟩ := closes_cases close
  rw [admits, string, ends, quote]
  rfl

theorem admits_number {text : List Char} (close : closes dots d = true) :
    (⟨.number, text⟩ : Word).admits dots d = true := by
  obtain ⟨_, _, plus, minus, dot | free⟩ := closes_cases close
  · simp [admits, dot.1, dot.2]
  · rw [admits, show Word.piece ⟨.number, text⟩ = .number from rfl, ends, free]
    simp [plus, minus]

end Word

/-! ## Parts of scripts -/

namespace Fits

open Script (key mark)

variable {dots : Bool} {e e' : Edge} {p q : Char → Bool} {s t : Script}

theorem ofTakes (less : ∀ d, q d = true → p d = true) : Edge.Implies dots (.takes p) (.takes q) :=
  fun _ takes => takes.mono less

theorem ofFresh : Edge.Implies dots .fresh (.takes p) := fun _ fresh => fresh.takes

theorem beginsOfTakes (less : ∀ d, q d = true → p d = true) :
    Edge.Implies dots (.takes p) (.begins q) :=
  fun _ takes => .inr (takes.mono less)

theorem beginsOfFresh : Edge.Implies dots .fresh (.begins q) := fun _ fresh => .inr fresh.takes

theorem everyChar_of {d : Char} (_ : q d = true) : everyChar d = true := rfl

theorem keyword {k : Keyword} (first : k.letters.head?.all p = true) :
    Fits dots (.takes p) (key k) (.takes (closes true)) :=
  (word (Word.sound_keyword k) first).after (ofTakes fun _ close => Word.admits_word rfl close)

/-- A mark behind which every word may stand. -/
theorem symbol {x : Symbol} (first : x.signs.head?.all p = true)
    (free : Word.extensions x.signs = []) (dot : x ≠ .dot) :
    Fits dots (.takes p) (mark x) (.takes everyChar) := by
  refine (word (Word.sound_symbol x) first).after (ofTakes fun d _ => ?_)
  refine Word.admits_operator rfl ?_ fun same => absurd ?_ dot
  · rw [show (Word.symbol x).text = x.signs from rfl, free]
    exact List.not_mem_nil
  · have sign : x.signs = Symbol.dot.signs := same
    have both := congrArg Symbol.ofSigns? sign
    rw [Symbol.ofSigns?_signs, Symbol.ofSigns?_signs] at both
    exact Option.some.inj both

/-- The sign of an attribute. -/
theorem dot : Fits dots (.takes (closes true)) (Script.mark .dot)
    (.takes fun d => Lexeme.isWordChar d && !d.isDigit) := by
  refine (word (Word.sound_symbol .dot) rfl).after (ofTakes fun d letter => ?_)
  rw [Bool.and_eq_true, Bool.not_eq_true'] at letter
  refine Word.admits_operator rfl ?_ fun _ => letter.2
  rw [show Word.extensions (Word.symbol .dot).text = [] by decide]
  exact List.not_mem_nil

theorem head_of_name {name : String} (sound : (Word.name name).Sound) :
    (Word.name name).text.head?.all (fun d => Lexeme.isWordChar d && !d.isDigit) = true := by
  obtain ⟨c, text, same, cuts, _⟩ := sound
  rw [same]
  have cuts : Lexeme.Cuts c text .word text.length := cuts
  generalize text.length = n at cuts
  cases cuts with
  | word letter noDigit => simp [letter, noDigit]

/-- Behind a name every mark may stand. -/
theorem name {name : String} (sound : (Word.name name).Sound)
    (letters : ∀ d, Lexeme.isWordChar d = true → d.isDigit = false → p d = true) :
    Fits dots (.takes p) (.word (.name name)) (.takes (closes true)) := by
  refine (word sound ?_).after (ofTakes fun _ close => Word.admits_word rfl close)
  have first := head_of_name sound
  cases head : (Word.name name).text.head? with
  | none => rfl
  | some d =>
      rw [head] at first
      obtain ⟨letter, digit⟩ : Lexeme.isWordChar d = true ∧ d.isDigit = false := by
        simpa using first
      exact letters d letter digit

theorem opens_of_letter {star : Bool} {d : Char} (letter : Lexeme.isWordChar d = true) :
    opens star d = true := by
  rw [opens, letter]
  rfl

/-- Behind a number every mark may stand, a dot only where `dots` is set. -/
theorem number {text : List Char} (sound : (⟨.number, text⟩ : Word).Sound) :
    Fits dots (.takes (opens false)) (.word ⟨.number, text⟩) (.takes (closes dots)) := by
  refine (word sound ?_).after (ofTakes fun _ close => Word.admits_number close)
  obtain ⟨c, text, rfl, cuts, _⟩ := sound
  have cuts : Lexeme.Cuts c text .number text.length := cuts
  generalize text.length = n at cuts
  cases cuts with
  | number starts =>
      show opens false c = true
      simp only [Lexeme.startsNumber, Bool.or_eq_true, Bool.and_eq_true, beq_iff_eq] at starts
      rcases starts with digit | ⟨rfl, _⟩
      · refine opens_of_letter ?_
        simp [Lexeme.isWordChar, Char.isAlphanum, digit]
      · rfl

end Fits

/-- A literal is written as a whole string. -/
theorem StringLit.spelling_sound {lit : StringLit} (lexical : lit.Lexical) :
    (⟨.string, lit.spelling⟩ : Word).Sound ∧ lit.spelling.head? = some '"' := by
  unfold spelling
  cases kept : lit.isKept with
  | true =>
      refine ⟨lexical kept, ?_⟩
      simp only [isKept, Bool.and_eq_true, beq_iff_eq] at kept
      exact kept.1
  | false =>
      obtain ⟨text, same, cuts⟩ := Quoted.cuts_encodeChars lit.value.toList lit.triple
      rw [if_neg Bool.false_ne_true, same]
      exact ⟨⟨'"', text, rfl, cuts, [], rfl⟩, rfl⟩

theorem Fits.string {dots : Bool} {p : Char → Bool} {lit : StringLit} (lexical : lit.Lexical)
    (quote : p '"' = true) : Fits dots (.takes p) lit.script (.takes (closes true)) := by
  obtain ⟨sound, head⟩ := lit.spelling_sound lexical
  have written : Fits dots (.takes p) (.word ⟨.string, lit.spelling⟩) (.takes (closes true)) := by
    refine (word sound ?_).after (ofTakes fun _ close => Word.admits_string rfl close)
    rw [head]
    exact quote
  exact (onlyIf (fun _ => note) (fun _ _ => id)).seq written

namespace Fits

open Script (key mark Part Line)

variable {dots : Bool} {e e' : Edge} {p q : Char → Bool} {x y body : Script}

/-- An operator between blanks. -/
theorem operator {op : String} (known : op = "not in" ∨ op = "is not" ∨ Word.isSign op = true) :
    Fits dots (.takes everyChar) (Script.operator op) (.takes fun _ => false) := by
  have pair (k l : Keyword) : Fits dots (.takes everyChar) (key k ++ .blank ++ key l)
      (.takes fun _ => false) :=
    (((Fits.keyword (by cases k <;> rfl)).seq blank).seq (Fits.keyword (by cases l <;> rfl))).after
      (ofTakes fun _ none => nomatch none)
  unfold Script.operator
  split
  · exact pair .not .in
  split
  · exact pair .is .not
  · rename_i one two
    have known := (known.resolve_left one).resolve_left two
    refine (word (Word.sound_sign known) ?_).after (ofTakes fun _ none => nomatch none)
    cases (Word.sign op).text.head? <;> rfl

/-- An operation fits if its sides do, with blanks around the operator. -/
theorem operation {op : String} {breaks : Bool} {extra : Nat}
    (known : op = "not in" ∨ op = "is not" ∨ Word.isSign op = true)
    (left : Fits dots (.takes p) x (.takes q)) {r : Char → Bool}
    (right : Fits dots (.begins r) y e') :
    Fits dots (.takes p) (Script.operation x op breaks y extra) e' := by
  have gap : Fits dots (.takes fun _ => false) (if breaks then Script.breakInside else .blank)
      (.takes everyChar) := by
    cases breaks with
    | true => exact breakInside
    | false => exact blank
  have all := (((left.seq blank).seq (operator known)).seq gap).seq
    (right.before (beginsOfTakes fun _ => everyChar_of))
  exact all.hang

/-- The comments around a node without parentheses. -/
theorem bare {comments : Comments} {isBlock : Bool} (fits : Fits dots (.takes p) body e')
    (block : isBlock = false → ∃ q, e' = .takes q) :
    Fits dots (.begins p) (Script.framed comments false isBlock body) e' := by
  have start : Fits dots (.begins p) .breakIfDue (.takes p) :=
    breakIfDue ofFresh fun s holds calm => holds.resolve_left (by simp [calm])
  refine ((start.seq leading).seq fits).seq ?_
  cases isBlock with
  | true => exact done
  | false =>
      obtain ⟨q, rfl⟩ := block rfl
      exact queue

/-- A node, with parentheses or without. -/
theorem framed {comments : Comments} {parens isBlock : Bool}
    (fits : Fits dots (.takes p) body (.takes q)) (paren : p '(' = true) (close : q ')' = true) :
    Fits dots (.begins p) (Script.framed comments parens isBlock body)
      (.takes fun d => parens || q d) := by
  cases parens with
  | false => exact fits.bare fun _ => ⟨q, rfl⟩
  | true =>
      have inside : Fits dots (.takes everyChar) body (.takes q) :=
        fits.before (ofTakes fun _ => everyChar_of)
      have opened : Fits dots (.takes p) (mark .lparen) (.takes everyChar) :=
        Fits.symbol paren (by decide) (by decide)
      have closed : Fits dots (.takes q) (mark .rparen) (.takes everyChar) :=
        Fits.symbol close (by decide) (by decide)
      exact ((opened.seq inside.enclosed).seq closed).bare fun _ => ⟨_, rfl⟩

/-! ## Sequences -/

/-- A part of a sequence that may stand behind every mark. -/
def IsPart (dots : Bool) (script : Script) : Prop :=
  Fits dots (.begins (opens true)) script (.takes (closes dots))

theorem comma {rest : Script} (fits : Fits dots (.takes everyChar) rest e') :
    Fits dots (.takes (closes dots)) (mark .comma ++ rest) e' :=
  (Fits.symbol (by cases dots <;> rfl) (by decide) (by decide)).seq fits

theorem onOneLine_cons {part : Part} {parts : List Part} {r : Char → Bool}
    (first : Fits dots (.begins r) part.script (.takes (closes dots)))
    (others : ∀ x ∈ parts, IsPart dots x.script) :
    Fits dots (.begins r) (Script.onOneLine (part :: parts)) (.takes (closes dots)) := by
  induction parts generalizing part r with
  | nil => exact first
  | cons next rest ih =>
      obtain ⟨second, rest⟩ := List.forall_mem_cons.mp others
      have more := (ih second rest).before (beginsOfTakes fun _ => everyChar_of)
      exact (first.seq (comma blank)).seq more

theorem onOneLine {parts : List Part} (each : ∀ x ∈ parts, IsPart dots x.script) :
    Fits dots (.takes everyChar) (Script.onOneLine parts) (.takes (closes dots)) := by
  cases parts with
  | nil => exact done.after (ofTakes fun _ => everyChar_of)
  | cons part parts =>
      obtain ⟨first, others⟩ := List.forall_mem_cons.mp each
      exact (onOneLine_cons first others).before (beginsOfTakes fun _ => everyChar_of)

/-- Parts on lines of their own fit if each of them does. -/
theorem onLines {enclosure : Enclosure} {parts : List Part}
    (each : ∀ x ∈ parts, IsPart dots x.script) :
    Fits dots .any (Script.onLines enclosure parts) .any := by
  induction parts with
  | nil => exact done
  | cons part parts ih =>
      obtain ⟨first, others⟩ := List.forall_mem_cons.mp each
      have line : Fits dots .any (.newline ++ part.script) (.takes (closes dots)) :=
        newline.seq (first.before beginsOfFresh)
      refine (line.seq ?_).seq (ih others)
      exact onlyIf (fun _ => (Fits.symbol (by cases dots <;> rfl) (by decide) (by decide)).forget)
        fun _ _ _ => trivial

/-- What stands between brackets fits, on one line or on several. -/
theorem inside {enclosure : Enclosure} {parts : List Part} {cs : List Comment} {layout : Layout}
    (oneLine : Fits dots e (Script.onOneLine parts) (.takes (closes dots)))
    (each : ∀ x ∈ parts, IsPart dots x.script) :
    Fits dots e (Script.inside enclosure parts cs layout) (.takes (closes dots)) := by
  unfold Script.inside
  split
  · refine oneLine.seq (onlyIf (fun _ => ?_) fun _ _ => id)
    exact (comma done).after (ofTakes fun _ => everyChar_of)
  · have start : Fits dots e (.onlyIf (!parts.isEmpty) .room) .any :=
      onlyIf (fun _ => room) fun _ _ _ => trivial
    have lines := (start.seq (@onLines dots enclosure _ each)).seq (@closing dots _ cs)
    exact (lines.indented.seq newline).after ofFresh

/-- The opening bracket of a sequence. -/
theorem bracket {enclosure : Enclosure} (bracketed : enclosure ≠ .none)
    (first : enclosure.opening.toList.head?.all p = true) :
    Fits dots (.takes p) (Script.opening enclosure) (.takes everyChar) := by
  cases enclosure with
  | none => exact absurd rfl bracketed
  | call | tuple | paren | list | braces => exact Fits.symbol first (by decide) (by decide)

/-- A sequence in brackets fits, and everything may stand behind it. -/
theorem sequence {enclosure : Enclosure} {parts : List Part} {cs : List Comment} {layout : Layout}
    (bracketed : enclosure ≠ .none) (first : enclosure.opening.toList.head?.all p = true)
    (each : ∀ x ∈ parts, IsPart dots x.script) :
    Fits dots (.takes p) (Script.sequence enclosure parts cs layout) (.takes everyChar) := by
  have closed : Fits dots (.takes (closes dots)) (Script.closeOf enclosure) (.takes everyChar) := by
    cases enclosure with
    | none => exact absurd rfl bracketed
    | call | tuple | paren | list | braces =>
        exact Fits.symbol (by cases dots <;> rfl) (by decide) (by decide)
  exact ((bracket bracketed first).seq (inside (onOneLine each) each).enclosed).seq closed

/-- A sequence without brackets is not empty. -/
theorem tuple {part : Part} {parts : List Part} {cs : List Comment} {layout : Layout}
    {r : Char → Bool} (first : Fits dots (.begins r) part.script (.takes (closes dots)))
    (each : ∀ x ∈ part :: parts, IsPart dots x.script) :
    Fits dots (.takes r) (Script.sequence .none (part :: parts) cs layout)
      (.takes (closes dots)) := by
  obtain ⟨_, others⟩ := List.forall_mem_cons.mp each
  have line := (onOneLine_cons first others).before (beginsOfTakes fun _ => id)
  exact (done.seq (inside line each).enclosed).seq done

theorem clauses {multiLine : Bool} {parts : List Part} (each : ∀ x ∈ parts, IsPart dots x.script) :
    Fits dots (.takes (closes dots)) (Script.clauses multiLine parts) (.takes (closes dots)) := by
  induction parts with
  | nil => exact done
  | cons part parts ih =>
      obtain ⟨first, others⟩ := List.forall_mem_cons.mp each
      have gap : Fits dots (.takes (closes dots)) (if multiLine then Script.breakInside else .blank)
          (.takes everyChar) := by
        cases multiLine with
        | true => exact breakInside
        | false => exact blank
      exact (gap.seq (first.before (beginsOfTakes fun _ => everyChar_of))).seq (ih others)

/-- So does a comprehension. -/
theorem comprehension {curly multiLine : Bool} {parts : List Part} {cs : List Comment}
    (paren : ∀ d, d = '(' ∨ d = '[' ∨ d = '\x7b' → p d = true) (first : IsPart dots body)
    (each : ∀ x ∈ parts, IsPart dots x.script) :
    Fits dots (.takes p) (Script.comprehension curly body parts cs multiLine)
      (.takes everyChar) := by
  have opened : Fits dots (.takes p) (mark (if curly then .lbrace else .lbrack))
      (.takes everyChar) := by
    cases curly <;> exact Fits.symbol (by simp [Symbol.signs, paren]) (by decide) (by decide)
  have closed : Fits dots (.takes (closes dots)) (mark (if curly then .rbrace else .rbrack))
      (.takes everyChar) := by
    cases curly <;> exact Fits.symbol (by cases dots <;> rfl) (by decide) (by decide)
  refine ((opened.seq ?_).seq closed).enclosed
  split
  · have line : Fits dots (.takes everyChar) (.newline ++ body) (.takes (closes dots)) :=
      newline.seq (first.before beginsOfFresh)
    have lines := (line.seq (@clauses dots true _ each)).seq (@closing dots _ cs)
    exact (lines.indented.seq newline).after ofFresh
  · have line : Fits dots (.takes everyChar) body (.takes (closes dots)) :=
      first.before (beginsOfTakes fun _ => everyChar_of)
    exact line.seq (clauses each)

theorem lambdaParams {parts : List Part} (each : ∀ x ∈ parts, IsPart dots x.script) :
    Fits dots (.takes (closes true)) (Script.lambdaParams parts) (.takes (closes dots)) := by
  cases parts with
  | nil =>
      refine done.after (ofTakes fun d close => ?_)
      cases dots with
      | true => exact close
      | false => exact closes_of_false close
  | cons part parts => exact blank.seq (onOneLine each)

end Fits

/-! ## Trees -/

namespace Node

/-- Whether a predicate holds at every node of a tree. -/
def everywhere (p : Node → Bool) (v : Node) : Bool := v.walk.all fun x => p x.node

/-- What holds along a walk does not depend on the ancestors. -/
theorem walkBelow_all (p : Node → Bool) (above : List Node) (v : Node) :
    (v.walkBelow above).all (fun x => p x.node) = v.everywhere p := by
  unfold everywhere walk
  generalize [] = others
  induction v using inductionOnChildren generalizing above others with
  | step v ih =>
      rw [walkBelow_eq, walkBelow_eq, List.all_cons, List.all_cons, List.all_flatMap,
        List.all_flatMap]
      congr 1
      rw [Bool.eq_iff_iff, List.all_eq_true, List.all_eq_true]
      exact forall₂_congr fun c member => by rw [ih c member (v :: above) (v :: others)]

theorem everywhere_iff {p : Node → Bool} {v : Node} :
    v.everywhere p = true ↔ p v = true ∧ ∀ c ∈ v.children, c.everywhere p = true := by
  rw [everywhere, walk, walkBelow_eq, List.all_cons, List.all_flatMap, Bool.and_eq_true,
    List.all_eq_true]
  simp only [walkBelow_all]

/-- Whether a node is no attribute of a number. -/
def isSharp : Node → Bool
  | .mk _ (.dot (.mk _ (.literal ..)) ..) => false
  | _ => true

/-- A tree in which no number has an attribute, unless `dots` is set. -/
def Sharp (dots : Bool) (v : Node) : Prop := dots = true ∨ v.everywhere isSharp = true

theorem Sharp.child {dots : Bool} {v c : Node} (sharp : v.Sharp dots) (member : c ∈ v.children) :
    c.Sharp dots :=
  sharp.imp_right fun all => (everywhere_iff.mp all).2 c member

end Node

/-- Whether a form ends in something other than a number, whatever its parts are. -/
def Form.endsClosed : Form → Bool
  | .ident .. | .string _ | .dot .. | .index .. | .slice .. | .call .. | .comprehension ..
  | .paren .. => true
  | .collection kind .. => kind ≠ .bareTuple
  | _ => false

namespace Role

/-- Whether the part is that of a statement. -/
def isLine : Role → Bool
  | line _ => true
  | _ => false

/-- The characters that a node begins with where it plays a part. -/
def opens : Role → Char → Bool
  | argument | param _ => Starlark.opens true
  | _ => Starlark.opens false

theorem opens_true {r : Role} {d : Char} (first : r.opens d = true) :
    Starlark.opens true d = true := by
  cases r <;> first | exact first | exact opens_of_false first

theorem opens_of_opens_false {r : Role} {d : Char} (first : Starlark.opens false d = true) :
    r.opens d = true := by
  cases r <;> first | exact first | exact opens_of_false first

end Role

theorem closes_true {dot : Bool} {d : Char} (close : closes dot d = true) :
    closes true d = true := by
  cases dot with
  | true => exact close
  | false => exact closes_of_false close

theorem closes_or {dots more : Bool} {d : Char} (close : closes dots d = true) :
    closes (dots || more) d = true := by
  cases dots with
  | true => exact close
  | false => exact closes_of_false close

/-- The script of a node fits where the node plays a part, and words that close operands may
stand behind it. A dot may stand there as well unless the node ends in a number. -/
def Node.FitsAs (dots : Bool) (r : Role) (v : Node) : Prop :=
  ∀ outer : Strength, Fits dots (.begins r.opens) (v.script outer)
    (.takes (closes (dots || (v.form.needsParens outer || v.form.endsClosed))))

namespace Node.FitsAs

variable {dots : Bool} {r : Role} {v : Node}

theorem closed (fits : v.FitsAs dots r) (outer : Strength) :
    Fits dots (.begins r.opens) (v.script outer) (.takes (closes dots)) :=
  (fits outer).after (Fits.ofTakes fun _ close => closes_or close)

theorem part (fits : v.FitsAs dots r) (outer : Strength) : Fits.IsPart dots (v.script outer) := by
  refine (fits.closed outer).before fun s holds => ?_
  exact holds.imp_right fun takes => takes.mono fun _ first => Role.opens_true first

end Node.FitsAs

/-- In front of an attribute, a node has parentheses or ends in no number. -/
theorem Form.isClosed_suffix {f : Form} (test : f.IsTest) (other : f.isLiteral = false) :
    (f.needsParens .suffix || f.endsClosed) = true := by
  cases f with
  | literal => cases other
  | binary assigns x p op breaks y =>
      obtain ⟨rfl, _⟩ := test
      rw [Form.needsParens_operation]
      rfl
  | collection kind =>
      have bracketed : decide (kind ≠ .bareTuple) = true := decide_eq_true test.1
      exact bracketed
  | ident | string | dot | index | slice | unary | conditional | lambda | call | comprehension
  | paren => rfl
  | _ => cases test

/-! ## Expressions -/

namespace Fits

open Script (key mark)

variable {dots : Bool} {e e' : Edge} {p q : Char → Bool} {x y z : Script}

theorem lbrack (fits : Fits dots e x (.takes (closes dots))) :
    Fits dots e (x ++ mark .lbrack) (.takes everyChar) :=
  fits.seq (Fits.symbol (by cases dots <;> rfl) (by decide) (by decide))

theorem rbrack (fits : Fits dots e x (.takes (closes dots))) :
    Fits dots e (x ++ mark .rbrack) (.takes everyChar) :=
  fits.seq (Fits.symbol (by cases dots <;> rfl) (by decide) (by decide))

theorem colon (fits : Fits dots e x (.takes (closes dots))) :
    Fits dots e (x ++ mark .colon) (.takes everyChar) :=
  fits.seq (Fits.symbol (by cases dots <;> rfl) (by decide) (by decide))

/-- Something that may stand behind everything. -/
theorem anywhere (fits : Fits dots (.begins q) x e') : Fits dots (.takes everyChar) x e' :=
  fits.before (beginsOfTakes fun _ => everyChar_of)

/-- A keyword between blanks, and what follows it. -/
theorem between {k : Keyword} (first : Fits dots e x (.takes p))
    (second : Fits dots (.begins q) y e') :
    Fits dots e (x ++ (.blank ++ key k ++ .blank) ++ y) e' := by
  have word : Fits dots (.takes p) (.blank ++ key k ++ .blank) (.takes everyChar) :=
    (blank.seq (Fits.keyword (by cases k <;> rfl))).seq blank
  exact (first.seq word).seq second.anywhere

/-- A keyword at the front. -/
theorem leading_keyword {k : Keyword} (first : k.letters.head?.all p = true)
    (second : Fits dots (.begins q) y e') : Fits dots (.takes p) (key k ++ .blank ++ y) e' :=
  ((Fits.keyword first).seq blank).seq second.anywhere

/-- The signs in front of operands, and the stars in front of arguments. -/
theorem sign_admits : ∀ op ∈ signs ++ stars, op ≠ "not" →
    Word.extensions (Word.sign op).text ⊆ ['=', '*', '>'] ∧ (Word.sign op).piece = .operator ∧
      (Word.sign op).text ≠ ['.'] := by decide

theorem sign_first : ∀ op ∈ signs,
    (Word.sign op).text.head?.all (Starlark.opens false) = true := by decide

theorem star_first : ∀ op ∈ signs ++ stars,
    (Word.sign op).text.head?.all (Starlark.opens true) = true := by decide

theorem isSign_sign : ∀ op ∈ signs ++ stars, Word.isSign op = true := by decide

/-- A sign stands directly in front of its operand, `not` with a blank between them. -/
theorem signed {op : String} (known : op ∈ signs ++ stars)
    (first : (Word.sign op).text.head?.all p = true)
    (fits : Fits dots (.begins (Starlark.opens false)) x e') :
    Fits dots (.takes p) (.word (.sign op) ++ .onlyIf (op = "not") .blank ++ x) e' := by
  have sound := Word.sound_sign (isSign_sign op known)
  by_cases word : op = "not"
  · have blanked : Fits dots (.takes p) (.word (.sign op) ++ .onlyIf (op = "not") .blank)
        (.takes everyChar) := by
      refine (Fits.word sound first).seq ?_
      rw [decide_eq_true word]
      exact blank
    exact blanked.seq fits.anywhere
  · obtain ⟨few, operator, noDot⟩ := sign_admits op known word
    have plain : Fits dots (.takes p) (.word (.sign op) ++ .onlyIf (op = "not") .blank)
        (.takes (Starlark.opens false)) := by
      refine Fits.seq ((Fits.word sound first).after (ofTakes fun d starts => ?_))
        (onlyIf (fun same => absurd (of_decide_eq_true same) word) fun _ _ => id)
      refine Word.admits_operator operator (fun member => ?_) fun same => absurd same noDot
      have listed := few member
      simp only [List.mem_cons, List.not_mem_nil, or_false] at listed
      rcases listed with rfl | rfl | rfl <;> cases starts
    exact plain.seq (fits.before (beginsOfTakes fun _ => id))

end Fits

section Forms

open Script (key mark)

variable {dots : Bool} {f : Form} {suffix : List Comment}

/-- Behind a form that ends in no number. -/
theorem Fits.ofClosed {e : Edge} {script : Script} {own : Bool}
    (fits : Fits dots e script (.takes (closes true))) :
    Fits dots e script (.takes (closes own)) :=
  fits.after (Fits.ofTakes fun _ close => closes_true close)

/-- Behind a form that may end in a number. -/
theorem Fits.ofOpen {e : Edge} {script : Script}
    (fits : Fits dots e script (.takes (closes dots))) :
    Fits dots e script (.takes (closes (dots || false))) := by
  rwa [Bool.or_false]

/-- Behind a bracket. -/
theorem Fits.ofBracket {e : Edge} {script : Script} {q : Char → Bool}
    (fits : Fits dots e script (.takes everyChar)) : Fits dots e script (.takes q) :=
  fits.after (Fits.ofTakes fun _ => Fits.everyChar_of)

/-- A node at the place of a word. -/
theorem Fits.front {e : Edge} {script : Script} {q : Char → Bool}
    (fits : Fits dots (.begins q) script e) : Fits dots (.takes q) script e :=
  fits.before (Fits.beginsOfTakes fun _ => id)

/-- Operators are words or pairs of words. -/
theorem operator_known : ∀ op ∈ binaryOperators,
    op = "not in" ∨ op = "is not" ∨ Word.isSign op = true := by decide

/-- An attribute fits behind everything but a number, unless `dots` is set. -/
theorem Form.fits_dot {x : Node} {p q : Position} {name : String} {suffix : List Comment}
    (inner : x.FitsAs dots .test) (test : x.form.IsTest) (named : (Word.name name).Sound)
    (sharp : dots = true ∨ x.form.isLiteral = false) :
    Fits dots (.takes (opens false)) (Form.script (.dot x p q name) suffix)
      (.takes (closes true)) := by
  have closed : (dots || (x.form.needsParens .suffix || x.form.endsClosed)) = true := by
    rcases sharp with rfl | other
    · rfl
    · rw [Form.isClosed_suffix test other, Bool.or_true]
  have operand := inner .suffix
  rw [closed] at operand
  refine (operand.front.seq Fits.dot).seq (Fits.name named fun d letter noDigit => ?_)
  rw [letter, noDigit]
  rfl

/-- A slice fits if its parts do. -/
theorem Form.fits_slice {x : Node} {lower upper step : Option Node} {p q s : Position}
    {second : Option Position} {suffix : List Comment} (inner : x.FitsAs dots .test)
    (start : ∀ y ∈ lower, y.FitsAs dots .expression) (stop : ∀ y ∈ upper, y.FitsAs dots .test)
    (stride : ∀ y ∈ step, y.FitsAs dots .test) :
    Fits dots (.takes (opens false)) (Form.script (.slice x p lower q upper second step s) suffix)
      (.takes everyChar) := by
  have maybe {c : Option Node} {r : Role} (each : ∀ y ∈ c, y.FitsAs dots r) :
      Fits dots (.takes everyChar) (scriptOption c .low) (.takes (closes dots)) := by
    cases c with
    | none => exact Fits.done.after (Fits.ofTakes fun _ => Fits.everyChar_of)
    | some y => exact ((each y rfl).closed .low).anywhere
  have front := ((inner.closed .suffix).front.lbrack.seq (maybe start)).colon.seq (maybe stop)
  have back : Fits dots (.takes (closes dots))
      (if second.isSome then mark .colon ++ scriptOption step .low else .done)
      (.takes (closes dots)) := by
    split
    · exact (Fits.symbol (by cases dots <;> rfl) (by decide) (by decide)).seq (maybe stride)
    · exact Fits.done
  exact (front.seq back).rbrack

theorem Form.fits_lambda {params : List Node} {body : Node} {p q : Position}
    {suffix : List Comment} (parts : ∀ x ∈ params, Fits.IsPart dots (x.script .low))
    (inner : body.FitsAs dots .test) :
    Fits dots (.takes (opens false)) (Form.script (.lambda p params q body) suffix)
      (.takes (closes dots)) := by
  have word : Fits dots (.takes (opens false)) (key .lambda) (.takes (closes true)) :=
    Fits.keyword (by decide)
  have named := word.seq (Fits.lambdaParams (forall_scriptList parts))
  have colon : Fits dots (.takes (closes dots)) (mark .colon ++ .blank) (.takes everyChar) :=
    (Fits.symbol (by cases dots <;> rfl) (by decide) (by decide)).seq Fits.blank
  exact (named.seq colon).seq (inner.closed .low).anywhere

/-- The form of a test fits wherever an operand may stand. -/
theorem Form.IsTest.fits (test : f.IsTest)
    (parts : ∀ c ∈ f.children, ∀ r : Role, r.isLine = false → c.Plays r → c.FitsAs dots r)
    (sharp : ∀ x p q name, f = .dot x p q name → dots = true ∨ x.form.isLiteral = false)
    (suffix : List Comment) :
    Fits dots (.takes (opens false)) (f.script suffix)
      (.takes (closes (dots || f.endsClosed))) := by
  have brackets : ∀ d, d = '(' ∨ d = '[' ∨ d = '\x7b' → opens false d = true := by
    rintro d (rfl | rfl | rfl) <;> rfl
  cases f with
  | ident => exact Fits.ofClosed (Fits.name test fun d letter _ => Fits.opens_of_letter letter)
  | literal => exact Fits.ofOpen (Fits.number test)
  | string lit => exact Fits.ofClosed (Fits.string test rfl)
  | dot x p q name =>
      have inner := parts x (by simp [Form.children]) .test rfl test.1
      have form : x.form.IsTest := by obtain ⟨c, f⟩ := x; exact test.1
      exact Fits.ofClosed (Form.fits_dot inner form test.2 (sharp x p q name rfl))
  | index x p y q =>
      have inner := parts x (by simp [Form.children]) .test rfl test.1
      have place := parts y (by simp [Form.children]) .expression rfl test.2
      exact Fits.ofBracket
        (((inner.closed .suffix).front.lbrack.seq (place.closed .low).anywhere).rbrack)
  | slice x p lower q upper second step s =>
      obtain ⟨operand, start, stop, stride, _⟩ := test
      have inner := parts x (by simp [Form.children]) .test rfl operand
      refine Fits.ofBracket (Form.fits_slice inner ?_ ?_ ?_)
      · rintro y ⟨⟩
        exact parts y (by simp [Form.children]) .expression rfl start
      · rintro y ⟨⟩
        exact parts y (by simp [Form.children]) .test rfl stop
      · rintro y ⟨⟩
        exact parts y (by simp [Form.children]) .test rfl stride
  | unary p op x =>
      obtain ⟨sign, present, plays⟩ := test
      obtain ⟨x, rfl⟩ := Option.isSome_iff_exists.mp present
      have inner := parts x (by simp [Form.children]) .test rfl plays
      exact Fits.ofOpen (Fits.signed (List.mem_append_left stars sign) (Fits.sign_first op sign)
        (inner.closed .unary))
  | binary assigns x p op breaks y =>
      obtain ⟨rfl, operator, left, right⟩ := test
      have inner := parts x (by simp [Form.children]) .test rfl left
      have other := parts y (by simp [Form.children]) .test rfl right
      exact Fits.ofOpen (Fits.operation (operator_known op operator) (inner.closed _).front
        (other.closed _))
  | conditional x p y q z =>
      obtain ⟨yes, cond, no⟩ := test
      have inner := parts x (by simp [Form.children]) .test rfl yes
      have middle := parts y (by simp [Form.children]) .test rfl cond
      have last := parts z (by simp [Form.children]) .test rfl no
      exact Fits.ofOpen (((inner.closed .or).front.between (middle.closed .or)).between
        (last.closed .ifElse))
  | lambda p params q body =>
      obtain ⟨all, inner⟩ := test
      refine Fits.ofOpen (Form.fits_lambda (fun x member => ?_)
        (parts body (by simp [Form.children]) .test rfl inner))
      exact (parts x (by simp [Form.children, member]) _ rfl
        (playAll_iff.mp all x member)).part .low
  | call callee p args close layout =>
      obtain ⟨inner, all⟩ := test
      have operand := parts callee (by simp [Form.children]) .test rfl inner
      have sequence : Fits dots (.takes (closes dots)) (Script.sequence .call
          ((scriptList args).map Script.Line.part) close.comments.before layout)
          (.takes everyChar) := by
        refine Fits.sequence (by decide) (by cases dots <;> rfl)
          (forall_scriptList fun x member => ?_)
        exact (parts x (by simp [Form.children, member]) _ rfl
          (playAll_iff.mp all x member)).part .low
      exact Fits.ofBracket ((operand.closed .suffix).front.seq sequence)
  | collection kind p items close layout =>
      obtain ⟨bracketed, _, all⟩ := test
      refine Fits.ofBracket (Fits.sequence ?_ ?_ (forall_scriptList fun x member => ?_))
      · cases kind <;> first | exact absurd rfl bracketed | decide
      · cases kind <;> first | exact absurd rfl bracketed | rfl
      · refine (parts x (by simp [Form.children, member]) _ ?_
          (playAll_iff.mp all x member)).part .low
        split <;> rfl
  | comprehension curly p body clauses close multiLine =>
      obtain ⟨element, _, all⟩ := test
      have inner := parts body (by simp [Form.children]) (.element curly) rfl element
      refine Fits.ofBracket (Fits.comprehension brackets (inner.part .low)
        (forall_scriptList fun x member => ?_))
      exact (parts x (by simp [Form.children, member]) _ rfl
        (playAll_iff.mp all x member)).part .low
  | paren p x close multiLine =>
      have inner := parts x (by simp [Form.children]) .test rfl test
      refine Fits.ofBracket (Fits.sequence (by decide) rfl ?_)
      exact List.forall_mem_singleton.mpr (inner.part .low)
  | _ => cases test

/-! ## Arguments, entries, clauses and parameters -/

theorem Form.fits_keyValue {x y : Node} {p : Position} {suffix : List Comment}
    (left : x.FitsAs dots .test) (right : y.FitsAs dots .test) :
    Fits dots (.takes (opens false)) (Form.script (.keyValue x p y) suffix)
      (.takes (closes dots)) := by
  have colon : Fits dots (.takes (closes dots)) (mark .colon ++ .blank) (.takes everyChar) :=
    (Fits.symbol (by cases dots <;> rfl) (by decide) (by decide)).seq Fits.blank
  exact ((left.closed .low).front.seq colon).seq (right.closed .low).anywhere

theorem Form.fits_assign {x y : Node} {p : Position} {breaks : Bool} {suffix : List Comment}
    {r : Role} (left : x.FitsAs dots r) (right : y.FitsAs dots .test) :
    Fits dots (.takes r.opens) (Form.script (.binary true x p "=" breaks y) suffix)
      (.takes (closes dots)) :=
  Fits.operation (.inr (.inr (by decide))) (left.closed .assign).front (right.closed .comma)

theorem Form.fits_starred {x : Node} {p : Position} {op : String} {suffix : List Comment}
    (known : op ∈ signs ++ stars) (inner : x.FitsAs dots .test) :
    Fits dots (.takes (opens true)) (Form.script (.unary p op (some x)) suffix)
      (.takes (closes dots)) :=
  Fits.signed known (Fits.star_first op known) (inner.closed .unary)

/-- The form of a node that is no statement fits where the node plays its part. -/
theorem Form.fits {comments : Comments} {r : Role} (noLine : r.isLine = false)
    (plays : (Node.mk comments f).Plays r)
    (parts : ∀ c ∈ f.children, ∀ r : Role, r.isLine = false → c.Plays r → c.FitsAs dots r)
    (sharp : ∀ x p q name, f = .dot x p q name → dots = true ∨ x.form.isLiteral = false)
    (suffix : List Comment) :
    Fits dots (.takes r.opens) (f.script suffix) (.takes (closes (dots || f.endsClosed))) := by
  have test (test : f.IsTest) : Fits dots (.takes r.opens) (f.script suffix)
      (.takes (closes (dots || f.endsClosed))) :=
    (test.fits parts sharp suffix).before (Fits.ofTakes fun _ => Role.opens_of_opens_false)
  cases r with
  | line => cases noLine
  | test => exact test plays
  | expression =>
      cases f with
      | collection kind p items close layout =>
          cases kind with
          | bareTuple =>
              obtain ⟨some, all⟩ := plays
              obtain ⟨x, xs, rfl⟩ := List.exists_cons_of_ne_nil some
              have fits (v : Node) (member : v ∈ x :: xs) : v.FitsAs dots .test :=
                parts v member .test rfl (playAll_iff.mp all v member)
              exact Fits.ofOpen (Fits.tuple ((fits x (.head _)).closed .low)
                (forall_scriptList fun v member => (fits v member).part .low))
          | list | set | dict | tuple => exact test plays
      | _ => exact test plays
  | argument =>
      cases f with
      | unary p op x =>
          cases x with
          | none => exact test plays
          | some x =>
              exact Fits.ofOpen (Form.fits_starred plays.1
                (parts x (by simp [Form.children]) .test rfl plays.2))
      | binary assigns x p op breaks y =>
          cases assigns with
          | false => exact test plays
          | true =>
              obtain ⟨rfl, left, right⟩ := plays
              have named := parts x (by simp [Form.children]) .test rfl left
              have value := parts y (by simp [Form.children]) .test rfl right
              exact Fits.ofOpen ((Form.fits_assign named value).before
                (Fits.ofTakes fun _ => opens_of_false))
      | _ => exact test plays
  | entry =>
      cases f with
      | keyValue key p value =>
          exact Fits.ofOpen
            (Form.fits_keyValue (parts key (by simp [Form.children]) .test rfl plays.1)
            (parts value (by simp [Form.children]) .test rfl plays.2))
      | _ => cases plays
  | element curly =>
      cases f with
      | keyValue key p value =>
          exact Fits.ofOpen (Form.fits_keyValue
            (parts key (by simp [Form.children]) .test rfl plays.2.1)
            (parts value (by simp [Form.children]) .test rfl plays.2.2))
      | _ => exact test plays
  | clause =>
      cases f with
      | forClause p vars q x =>
          have bound := parts vars (by simp [Form.children]) .expression rfl plays.1
          have range := parts x (by simp [Form.children]) .test rfl plays.2
          exact Fits.ofOpen ((Fits.leading_keyword (by decide) (bound.closed .low)).between
            (range.closed .or))
      | ifClause p cond =>
          have inner := parts cond (by simp [Form.children]) .test rfl plays
          exact Fits.ofOpen (Fits.leading_keyword (by decide) (inner.closed .or))
      | _ => cases plays
  | param types =>
      have letter {d : Char} (letter : Lexeme.isWordChar d = true) (_ : d.isDigit = false) :
          opens true d = true := Fits.opens_of_letter letter
      cases f with
      | ident => exact Fits.ofClosed (Fits.name plays fun _ => letter)
      | typed name p type =>
          obtain ⟨_, named, plays⟩ := plays
          have inner := parts type (by simp [Form.children]) .test rfl plays
          have colon :
              Fits dots (.takes (closes true)) (mark .colon ++ .blank) (.takes everyChar) :=
            (Fits.symbol (by decide) (by decide) (by decide)).seq Fits.blank
          exact Fits.ofOpen (((Fits.name named fun _ => letter).seq colon).seq
            (inner.closed .low).anywhere)
      | unary p op x =>
          cases x with
          | none =>
              obtain rfl : op = "*" := plays
              have star :
                  Fits dots (.takes (opens true)) (.word (.sign "*")) (.takes (closes true)) := by
                refine (Fits.word (Word.sound_sign (by decide)) (by decide)).after
                  (Fits.ofTakes fun d close => ?_)
                refine Word.admits_operator (by decide) (fun member => ?_) fun same =>
                  absurd same (by decide)
                have few : Word.extensions (Word.sign "*").text ⊆ ['=', '*'] := by decide
                have listed := few member
                simp only [List.mem_cons, List.not_mem_nil, or_false] at listed
                rcases listed with rfl | rfl <;> cases close
              exact Fits.ofClosed ((star.seq Fits.done).seq Fits.done)
          | some x =>
              obtain ⟨c, g⟩ := x
              cases g with
              | ident q name =>
                  have inner := parts (.mk c (.ident q name)) (by simp [Form.children]) .test rfl
                    plays.2
                  exact Fits.ofOpen (Form.fits_starred (List.mem_append_right signs plays.1) inner)
              | _ => cases plays
      | binary assigns x p op breaks y =>
          cases assigns with
          | false => cases plays
          | true =>
              obtain ⟨c, g⟩ := x
              cases g with
              | ident q name =>
                  obtain ⟨rfl, named, right⟩ := plays
                  have left :=
                    parts (.mk c (.ident q name)) (by simp [Form.children]) .test rfl named
                  have value := parts y (by simp [Form.children]) .test rfl right
                  exact Fits.ofOpen ((Form.fits_assign left value).before
                    (Fits.ofTakes fun _ => opens_of_false))
              | typed name q type =>
                  obtain ⟨rfl, types, named, type', right⟩ := plays
                  have left := parts (.mk c (.typed name q type)) (by simp [Form.children])
                    (.param true) rfl ⟨rfl, named, type'⟩
                  have value := parts y (by simp [Form.children]) .test rfl right
                  exact Fits.ofOpen (Form.fits_assign left value)
              | _ => cases plays
      | _ => cases plays

end Forms

/-- Trees without statements fit where they play a part. -/
theorem Node.fits {dots : Bool} (v : Node) : ∀ r : Role, r.isLine = false → v.Plays r →
    v.Sharp dots → v.FitsAs dots r := by
  induction v using Node.inductionOnChildren with
  | step v ih =>
      obtain ⟨comments, f⟩ := v
      intro r noLine plays sharp outer
      have parts : ∀ c ∈ f.children, ∀ r : Role, r.isLine = false → c.Plays r →
          c.FitsAs dots r := fun c member r noLine plays =>
        ih c member r noLine plays (sharp.child member)
      have noNumber : ∀ x p q name, f = .dot x p q name →
          dots = true ∨ x.form.isLiteral = false := by
        rintro ⟨c, g⟩ p q name rfl
        refine sharp.imp_right fun all => ?_
        have here := (everywhere_iff.mp all).1
        cases g <;> first | rfl | cases here
      have body := Form.fits noLine plays parts noNumber comments.suffix
      have paren : r.opens '(' = true := by cases r <;> rfl
      have close : closes (dots || f.endsClosed) ')' = true := by
        cases dots || f.endsClosed <;> rfl
      rw [Node.script]
      refine (Fits.framed body paren close).after (Fits.ofTakes fun d closing => ?_)
      cases parens : f.needsParens outer with
      | true => rfl
      | false =>
          rw [Node.form_mk, parens, Bool.false_or] at closing
          exact closing

end Starlark
