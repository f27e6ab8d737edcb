import Starlark.Proofs.Labels
import Starlark.Proofs.Sheet

/-!
# Brackets that printing opens

Printing a form asks each of its parts for a strength (`Form.asks`), and a part
that has less is put in parentheses. `Node.printings` lists the nodes in the
order in which they are printed, with the strength that is asked of each.

That this is what printing does is seen from the brackets that it opens: one for
each form that has brackets of its own, and one for each node that has too little
strength (`File.brackets_script`).
-/

set_option autoImplicit false

namespace Starlark

/-! ## What a form asks of its parts -/

/-- A part of a form, and the strength that is asked of it where the form is printed. -/
structure Ask where
  strength : Strength
  part : Node

/-- Any strength will do for some parts. -/
def asksLow (parts : List Node) : List Ask := parts.map (⟨.low, ·⟩)

namespace Form

/-- The parts of a form that are printed, in source order. The step of a slice is printed only
behind a second colon. -/
def asks : Form → List Ask
  | .dot x _ _ _ => [⟨.suffix, x⟩]
  | .index x _ y _ => [⟨.suffix, x⟩, ⟨.low, y⟩]
  | .slice x _ lower _ upper second step _ =>
    ⟨.suffix, x⟩ ::
      asksLow (lower.toList ++ upper.toList ++ if second.isSome then step.toList else [])
  | .unary _ _ x => x.toList.map (⟨.unary, ·⟩)
  | .binary false x _ op _ y => [⟨.ofOperator op, x⟩, ⟨(Strength.ofOperator op).next, y⟩]
  | .binary true x _ _ _ y => [⟨.assign, x⟩, ⟨.comma, y⟩]
  | .conditional yes _ test _ no => [⟨.or, yes⟩, ⟨.or, test⟩, ⟨.ifElse, no⟩]
  | .call callee _ args _ _ => ⟨.suffix, callee⟩ :: asksLow args
  | .forClause _ vars _ x => [⟨.low, vars⟩, ⟨.or, x⟩]
  | .ifClause _ cond => [⟨.or, cond⟩]
  | f => asksLow f.children

/-- How many pairs of brackets a form has itself. A tuple without parentheses counts as if it had
one. -/
def brackets : Form → Nat
  | .call .. | .collection .. | .comprehension .. | .paren .. | .defStmt .. | .load .. => 1
  | _ => 0

end Form

/-! ## Brackets that are opened -/

namespace Script

/-- How many brackets a script opens. -/
@[simp] def brackets : Script → Nat
  | hang _ _ body | indented body => body.brackets
  | enclosed body => body.brackets + 1
  | seq first second => first.brackets + second.brackets
  | _ => 0

@[simp] theorem brackets_append (s t : Script) :
    (s ++ t).brackets = s.brackets + t.brackets := rfl

@[simp] theorem brackets_key (k : Keyword) : (key k).brackets = 0 := rfl

@[simp] theorem brackets_mark (s : Symbol) : (mark s).brackets = 0 := rfl

@[simp] theorem brackets_onlyIf (b : Bool) (s : Script) :
    (onlyIf b s).brackets = if b then s.brackets else 0 := by
  cases b <;> rfl

@[simp] theorem brackets_operator (op : String) : (operator op).brackets = 0 := by
  unfold operator
  split
  · rfl
  · split <;> rfl

@[simp] theorem brackets_operation (x : Script) (op : String) (breaks : Bool) (y : Script)
    (extra : Nat) : (operation x op breaks y extra).brackets = x.brackets + y.brackets := by
  cases breaks <;> simp [operation]

@[simp] theorem brackets_framed (comments : Comments) (parens isBlock : Bool) (body : Script) :
    (framed comments parens isBlock body).brackets = parens.toNat + body.brackets := by
  cases parens <;> simp [framed, Nat.add_comm]

/-- How many brackets some parts open. -/
def bracketsOf (parts : List Part) : Nat := (parts.map fun x => x.script.brackets).sum

@[simp] theorem bracketsOf_nil : bracketsOf [] = 0 := rfl

@[simp] theorem bracketsOf_cons (x : Part) (parts : List Part) :
    bracketsOf (x :: parts) = x.script.brackets + bracketsOf parts := rfl

@[simp] theorem brackets_onOneLine (parts : List Part) :
    (onOneLine parts).brackets = bracketsOf parts := by
  fun_induction onOneLine parts with
  | case1 => rfl
  | case2 x => simp
  | case3 x y rest ih => simp [ih]

@[simp] theorem brackets_onLines (enclosure : Enclosure) (parts : List Part) :
    (onLines enclosure parts).brackets = bracketsOf parts := by
  induction parts with
  | nil => rfl
  | cons x rest ih => simp [onLines, ih]

@[simp] theorem brackets_sequence (enclosure : Enclosure) (parts : List Part)
    (comments : List Comment) (layout : Layout) :
    (sequence enclosure parts comments layout).brackets = bracketsOf parts + 1 := by
  have ends : (opening enclosure).brackets = 0 ∧ (closeOf enclosure).brackets = 0 := by
    cases enclosure <;> exact ⟨rfl, rfl⟩
  have body : (inside enclosure parts comments layout).brackets = bracketsOf parts := by
    unfold inside
    split <;> simp
  simp [sequence, ends, body]

@[simp] theorem brackets_clauses (multiLine : Bool) (parts : List Part) :
    (clauses multiLine parts).brackets = bracketsOf parts := by
  induction parts with
  | nil => rfl
  | cons x rest ih => cases multiLine <;> simp [clauses, ih]

@[simp] theorem brackets_comprehension (curly : Bool) (body : Script) (parts : List Part)
    (comments : List Comment) (multiLine : Bool) :
    (comprehension curly body parts comments multiLine).brackets =
      body.brackets + bracketsOf parts + 1 := by
  have inner : (if multiLine || !comments.isEmpty then
      indented (newline ++ body ++ clauses true parts ++ closing comments) ++ newline
      else body ++ clauses false parts).brackets = body.brackets + bracketsOf parts := by
    split <;> simp
  simp only [comprehension, brackets, brackets_append, inner, brackets_mark, Nat.zero_add,
    Nat.add_zero]

@[simp] theorem brackets_lambdaParams (parts : List Part) :
    (lambdaParams parts).brackets = bracketsOf parts := by
  cases parts with
  | nil => rfl
  | cons x rest => simp [lambdaParams]

end Script

/-- A literal opens no bracket. -/
@[simp] theorem StringLit.brackets_script (s : StringLit) : s.script.brackets = 0 := by
  simp [script]

/-- The symbols of a `load` open no brackets. -/
theorem Binding.bracketsOf_part (bindings : List Binding) :
    Script.bracketsOf (bindings.map part) = 0 := by
  have each (b : Binding) : b.part.script.brackets = 0 := by
    unfold part
    split <;> simp
  simp [Script.bracketsOf, Function.comp_def, each]

/-- How many brackets some nodes open, each printed with the strength that is asked of it. -/
def bracketsFor (asks : List Ask) : Nat :=
  (asks.map fun a => (a.part.script a.strength).brackets).sum

@[simp] theorem bracketsFor_nil : bracketsFor [] = 0 := rfl

@[simp] theorem bracketsFor_cons (a : Ask) (asks : List Ask) :
    bracketsFor (a :: asks) = (a.part.script a.strength).brackets + bracketsFor asks := rfl

theorem bracketsFor_append (asks more : List Ask) :
    bracketsFor (asks ++ more) = bracketsFor asks + bracketsFor more := by
  simp [bracketsFor]

@[simp] theorem asksLow_append (vs ws : List Node) :
    asksLow (vs ++ ws) = asksLow vs ++ asksLow ws := List.map_append

/-- Nodes in a sequence are printed with any strength. -/
@[simp] theorem bracketsOf_scriptList (vs : List Node) :
    Script.bracketsOf ((scriptList vs).map Script.Line.part) = bracketsFor (asksLow vs) := by
  induction vs with
  | nil => rfl
  | cons v vs ih =>
      simp only [Script.bracketsOf, bracketsFor, asksLow, scriptList, List.map_cons,
        List.sum_cons] at ih ⊢
      rw [ih]
      rfl

/-- So are statements; a comment block has nothing to print, and text printed as it is no
brackets. -/
@[simp] theorem brackets_statements (vs : List Node) :
    (Script.statements (scriptList vs)).brackets = bracketsFor (asksLow vs) := by
  have alone (v : Node) :
      (Script.Line.statement ⟨v, v.script .low⟩).brackets = (v.script .low).brackets := by
    obtain ⟨c, f⟩ := v
    cases f with
    | commentBlock | verbatim =>
        simp [Script.Line.statement, Node.script, Form.script, Form.needsParens, Form.strength?]
    | _ => rfl
  have whole (v : Node) :
      (Script.Line.whole ⟨v, v.script .low⟩).brackets = (v.script .low).brackets := by
    simp [Script.Line.whole, alone]
  induction vs with
  | nil => rfl
  | cons v vs ih =>
      cases vs with
      | nil => simp [scriptList, Script.statements, whole, asksLow]
      | cons w vs =>
          rw [scriptList] at ih
          simp only [scriptList, Script.statements, Script.brackets_append, whole, ih]
          simp [asksLow]

theorem brackets_headed (suffix : List Comment) (vs : List Node) :
    (Script.headed suffix (scriptList vs)).brackets = bracketsFor (asksLow vs) := by
  simp [Script.headed, Script.block]

/-- What follows a branch of an `if` opens the brackets of its statements, also where it is
printed as an `elif`. -/
theorem brackets_scriptElse (body : List Node) (gap : Bool) (close : Close) :
    (scriptElse body gap close).brackets = bracketsFor (asksLow body) := by
  rcases body with _ | ⟨x, _ | ⟨y, rest⟩⟩
  · rfl
  · have alone := brackets_statements [x]
    obtain ⟨comments, f⟩ := x
    cases f with
    | ifStmt pos cond yesBody elsePos noBody =>
        have rest := brackets_scriptElse noBody (gapBefore yesBody elsePos) elsePos
        simp [scriptElse, Script.elseLine, Script.branch, brackets_headed, rest, asksLow,
          Node.script, Form.script, Form.needsParens, Form.strength?]
    | _ =>
        rw [scriptList] at alone
        simp [scriptElse, Script.elseLine, Script.block, alone]
  · have lines := brackets_statements (x :: y :: rest)
    rw [scriptList] at lines
    simp [scriptElse, Script.elseLine, Script.block, lines]

@[simp] theorem brackets_scriptOption (v : Option Node) (s : Strength) :
    (scriptOption v s).brackets = bracketsFor (v.toList.map (⟨s, ·⟩)) := by
  cases v <;> simp [scriptOption]

/-- Printing a form opens its own brackets and those of its parts, each printed with the strength
that is asked of it. -/
theorem Form.brackets_script (f : Form) (suffix : List Comment) :
    (f.script suffix).brackets = f.brackets + bracketsFor f.asks := by
  cases f with
  | binary assigns => cases assigns <;> simp [script, brackets, asks]
  | returnStmt p result =>
      cases result <;> simp [script, brackets, asks, children, asksLow]
  | slice x p lower q upper second step s =>
      cases second <;>
        simp [script, brackets, asks, bracketsFor_append, asksLow] <;> omega
  | load => simp [script, brackets, asks, children, asksLow, Binding.bracketsOf_part]
  | ifStmt =>
      simp [script, brackets, asks, children, Script.branch, brackets_headed, brackets_scriptElse,
        bracketsFor_append, asksLow, Nat.add_assoc]
  | _ =>
      simp [script, brackets, asks, children, asksLow, brackets_headed, bracketsFor_append] <;>
        omega

/-- Printing a node opens one more where it has too little strength. -/
theorem Node.brackets_script (v : Node) (outer : Strength) :
    (v.script outer).brackets =
      (v.form.needsParens outer).toNat + v.form.brackets + bracketsFor v.form.asks := by
  obtain ⟨c, f⟩ := v
  rw [Node.script, Script.brackets_framed, Form.brackets_script, Nat.add_assoc]
  rfl

/-! ## Nodes in the order of printing -/

/-- Only children are printed as parts. -/
theorem Form.part_mem_children {f : Form} {a : Ask} (member : a ∈ f.asks) :
    a.part ∈ f.children := by
  have low {vs : List Node} (member : a ∈ asksLow vs) : a.part ∈ vs := by
    obtain ⟨v, inside, rfl⟩ := List.mem_map.mp member
    exact inside
  cases f with
  | binary assigns => cases assigns <;> grind [asks, children]
  | slice | dot | index | unary | conditional | call | forClause | ifClause =>
      grind [asks, children, asksLow]
  | _ => exact low member

/-- A node that is being printed: the strength that is asked of it, and its ancestors, nearest
first. -/
structure Printing where
  node : Node
  outer : Strength
  above : List Node

namespace Printing

/-- Whether the node is put in parentheses. -/
def isWrapped (x : Printing) : Bool := x.node.form.needsParens x.outer

/-- The brackets that are opened for the node itself. -/
def brackets (x : Printing) : Nat := x.isWrapped.toNat + x.node.form.brackets

end Printing

namespace Node

/-- The nodes in the order in which they are printed, when a strength is asked of the first. -/
def printings (above : List Node) (outer : Strength) (v : Node) : List Printing :=
  ⟨v, outer, above⟩ ::
    v.form.asks.attach.flatMap fun ⟨a, _⟩ => a.part.printings (v :: above) a.strength
termination_by sizeOf v
decreasing_by exact sizeOf_lt_of_mem_children (Form.part_mem_children ‹_›)

theorem printings_eq (above : List Node) (outer : Strength) (v : Node) :
    v.printings above outer =
      ⟨v, outer, above⟩ ::
        v.form.asks.flatMap fun a => a.part.printings (v :: above) a.strength := by
  rw [printings]
  simp [List.flatMap_subtype]

/-- The brackets that are opened when a node is printed are those of the nodes that are printed on
the way. -/
theorem brackets_script_eq_sum (v : Node) (above : List Node) (outer : Strength) :
    (v.script outer).brackets = ((v.printings above outer).map Printing.brackets).sum := by
  induction v using inductionOnChildren generalizing above outer with
  | step v ih =>
      have parts : bracketsFor v.form.asks = (v.form.asks.map fun a =>
          ((a.part.printings (v :: above) a.strength).map Printing.brackets).sum).sum := by
        unfold bracketsFor
        congr 1
        apply List.map_congr_left
        intro a member
        exact ih a.part (Form.part_mem_children member) _ _
      rw [brackets_script, printings_eq, parts, List.map_cons, List.sum_cons, List.map_flatMap,
        List.flatMap_def, List.sum_flatten, List.map_map]
      rfl

end Node

/-- The nodes of a file in the order in which they are printed. -/
def File.printings (f : File) : List Printing := f.statements.flatMap (Node.printings [] .low)

/-- The brackets that are opened when a file is printed. -/
theorem File.brackets_script (f : File) :
    f.script.brackets = (f.printings.map Printing.brackets).sum := by
  rw [script, printings, List.map_flatMap, List.flatMap_def, List.sum_flatten, List.map_map]
  simp [bracketsFor, asksLow, Function.comp_def, Node.brackets_script_eq_sum _ []]

end Starlark
