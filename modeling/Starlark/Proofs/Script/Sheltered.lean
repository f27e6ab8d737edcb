import Starlark.Proofs.Sheet

/-!
# Sheltered scripts

Whether two statements may follow each other without a blank line is decided
while they are printed, and the answer looks at the margin. Statements are
written at the top of a file and in bodies, and a body is indented. So a node,
whatever its form, asks that question only where the margin is positive
(`Node.sheltered_script`). The comments that wait before the first part of a
sequence start two columns to the left of the margin, and there too the margin
has been moved to the right before.

The margin can also be set to the column of an operand, which may be zero. The
margin is therefore not looked at between such a margin and the next indented
body.
-/

set_option autoImplicit false

namespace Starlark

namespace Script

/-- A blank line between statements, or room for comments to the left of the margin, is asked for
only inside an indented body, with no other margin set in between; `deep` says that such a body
stands around the script. -/
def Sheltered : Bool → Script → Prop
  | deep, apart _ _ | deep, room => deep = true
  | _, hang _ _ body => body.Sheltered false
  | _, indented body => body.Sheltered true
  | deep, enclosed body => body.Sheltered deep
  | deep, seq first second => first.Sheltered deep ∧ second.Sheltered deep
  | _, _ => True

variable {deep : Bool} {s t : Script}

@[simp] theorem sheltered_append :
    (s ++ t).Sheltered deep ↔ s.Sheltered deep ∧ t.Sheltered deep := by
  show (seq s t).Sheltered deep ↔ _
  rw [Sheltered]

theorem Sheltered.mono (sheltered : s.Sheltered false) (deep : Bool) : s.Sheltered deep := by
  induction s with
  | apart | room => cases sheltered
  | hang _ _ body => exact sheltered
  | indented body => exact sheltered
  | enclosed body ih => exact ih sheltered
  | seq first second one two => exact ⟨one sheltered.1, two sheltered.2⟩
  | _ => trivial

theorem Sheltered.onlyIf (sheltered : s.Sheltered deep) (b : Bool) :
    (onlyIf b s).Sheltered deep := by
  cases b with
  | false => trivial
  | true => exact sheltered

theorem sheltered_operator (op : String) : (operator op).Sheltered deep := by
  unfold operator
  split
  next => exact ⟨⟨trivial, trivial⟩, trivial⟩
  split
  next => exact ⟨⟨trivial, trivial⟩, trivial⟩
  next => trivial

theorem Sheltered.operation (left : s.Sheltered false) (op : String) (breaks : Bool)
    (right : t.Sheltered false) (extra : Nat) :
    (operation s op breaks t extra).Sheltered deep := by
  show (_ ++ _ : Script).Sheltered false
  cases breaks <;> exact ⟨⟨⟨⟨left, trivial⟩, sheltered_operator op⟩, trivial⟩, right⟩

theorem Sheltered.framed (sheltered : s.Sheltered deep) (comments : Comments)
    (parens isBlock : Bool) : (framed comments parens isBlock s).Sheltered deep := by
  refine ⟨⟨⟨trivial, trivial⟩, ?_⟩, Sheltered.onlyIf (s := .queue _) trivial _⟩
  cases parens with
  | false => exact sheltered
  | true => exact ⟨⟨trivial, sheltered⟩, trivial⟩

theorem sheltered_literal (lit : StringLit) : lit.script.Sheltered deep :=
  ⟨Sheltered.onlyIf (s := .note _) trivial _, trivial⟩

section Parts

variable {parts : List Part} (each : ∀ x ∈ parts, x.script.Sheltered false)
include each

theorem sheltered_onOneLine : (onOneLine parts).Sheltered deep := by
  fun_induction onOneLine parts with
  | case1 => trivial
  | case2 x => exact (each x List.mem_cons_self).mono deep
  | case3 x y rest ih =>
      obtain ⟨here, later⟩ := List.forall_mem_cons.mp each
      exact ⟨⟨here.mono deep, trivial, trivial⟩, ih later⟩

theorem sheltered_onLines (enclosure : Enclosure) : (onLines enclosure parts).Sheltered deep := by
  induction parts with
  | nil => trivial
  | cons x rest ih =>
      obtain ⟨here, later⟩ := List.forall_mem_cons.mp each
      exact ⟨⟨⟨trivial, here.mono deep⟩, Sheltered.onlyIf (s := mark .comma) trivial _⟩, ih later⟩

/-- A sequence is sheltered, since it indents its parts itself. -/
theorem sheltered_sequence (enclosure : Enclosure) (comments : List Comment) (layout : Layout) :
    (sequence enclosure parts comments layout).Sheltered deep := by
  have inner : (inside enclosure parts comments layout).Sheltered deep := by
    unfold inside
    split
    next => exact ⟨sheltered_onOneLine each, Sheltered.onlyIf (s := mark .comma) trivial _⟩
    next =>
      have first : room.Sheltered true := rfl
      refine ⟨⟨⟨first.onlyIf _, ?_⟩, trivial⟩, trivial⟩
      exact sheltered_onLines each enclosure
  cases enclosure <;> exact ⟨⟨trivial, inner⟩, trivial⟩

theorem sheltered_clauses (multiLine : Bool) : (clauses multiLine parts).Sheltered deep := by
  induction parts with
  | nil => trivial
  | cons x rest ih =>
      obtain ⟨here, later⟩ := List.forall_mem_cons.mp each
      cases multiLine <;> exact ⟨⟨trivial, here.mono deep⟩, ih later⟩

theorem sheltered_comprehension (curly : Bool) (body : s.Sheltered false)
    (comments : List Comment) (multiLine : Bool) :
    (comprehension curly s parts comments multiLine).Sheltered deep := by
  refine ⟨⟨trivial, ?_⟩, trivial⟩
  split
  next =>
    exact ⟨⟨⟨⟨trivial, body.mono true⟩, sheltered_clauses each true⟩, trivial⟩, trivial⟩
  next => exact ⟨body.mono deep, sheltered_clauses each false⟩

theorem sheltered_lambdaParams : (lambdaParams parts).Sheltered deep := by
  cases parts with
  | nil => trivial
  | cons x rest => exact ⟨trivial, sheltered_onOneLine each⟩

end Parts

theorem sheltered_parts {lines : List Line} (each : ∀ x ∈ lines, x.script.Sheltered false) :
    ∀ x ∈ lines.map Line.part, x.script.Sheltered false := List.forall_mem_map.mpr each

theorem Line.sheltered_whole {x : Line} (sheltered : x.script.Sheltered deep) :
    x.whole.Sheltered deep := by
  refine ⟨?_, trivial⟩
  unfold Line.statement
  split
  next => trivial
  next => exact ⟨⟨trivial, trivial⟩, trivial⟩
  next => exact ⟨sheltered, trivial⟩

/-- In a block the margin is positive. -/
theorem sheltered_block {lines : List Line} (each : ∀ x ∈ lines, x.script.Sheltered false) :
    (block lines).Sheltered deep := by
  refine ⟨trivial, ?_⟩
  fun_induction statements lines with
  | case1 => trivial
  | case2 x => exact Line.sheltered_whole ((each x List.mem_cons_self).mono true)
  | case3 x y rest ih =>
      obtain ⟨here, later⟩ := List.forall_mem_cons.mp each
      exact ⟨⟨⟨Line.sheltered_whole (here.mono true), trivial⟩, rfl⟩, ih later⟩

theorem sheltered_headed {lines : List Line} (each : ∀ x ∈ lines, x.script.Sheltered false)
    (suffix : List Comment) : (headed suffix lines).Sheltered deep :=
  ⟨⟨trivial, trivial⟩, sheltered_block each⟩

theorem sheltered_branch {lines : List Line} (each : ∀ x ∈ lines, x.script.Sheltered false)
    (k : Keyword) (cond : s.Sheltered deep) (suffix : List Comment) :
    (branch k s suffix lines).Sheltered deep :=
  ⟨⟨⟨trivial, trivial, trivial⟩, cond⟩, sheltered_headed each suffix⟩

theorem sheltered_elseLine (gap : Bool) (before : List Comment) :
    (elseLine gap before).Sheltered deep :=
  ⟨⟨trivial, Sheltered.onlyIf (s := .newline) trivial gap⟩, trivial⟩

end Script

theorem Binding.sheltered_part (b : Binding) : b.part.script.Sheltered false := by
  unfold part
  split
  next => exact Script.Sheltered.framed (Script.sheltered_literal _) _ _ _
  next =>
    refine Script.Sheltered.framed (.operation ?_ _ _ ?_ _) _ _ _
    · exact Script.Sheltered.framed (s := .word _) trivial _ _ _
    · exact Script.Sheltered.framed (Script.sheltered_literal _) _ _ _

open Script in
mutual

theorem Node.sheltered_script : ∀ (v : Node) (outer : Strength), (v.script outer).Sheltered false
  | .mk comments f, _ => .framed (f.sheltered_script comments.suffix) _ _ _

/-- Nodes ask for blank lines between statements only inside a body. -/
theorem Form.sheltered_script : ∀ (f : Form) (suffix : List Comment),
    (f.script suffix).Sheltered false
  | .ident .., _ | .literal .., _ | .commentBlock _, _ | .verbatim .., _
  | .returnStmt _ none, _ | .branch .., _ => trivial
  | .string lit, _ => sheltered_literal lit
  | .dot x _ _ _, _ => ⟨⟨x.sheltered_script _, trivial⟩, trivial⟩
  | .index x _ y _, _ => ⟨⟨⟨x.sheltered_script _, trivial⟩, y.sheltered_script _⟩, trivial⟩
  | .slice x _ lower _ upper second step _, _ => by
    have first := x.sheltered_script .suffix
    have parts := And.intro (sheltered_scriptOption lower .low)
      (And.intro (sheltered_scriptOption upper .low) (sheltered_scriptOption step .low))
    cases second <;> simp [Form.script, first, parts, Sheltered, mark]
  | .unary _ op x, _ =>
    ⟨⟨trivial, .onlyIf (s := .blank) trivial _⟩, sheltered_scriptOption x _⟩
  | .binary false x _ op _ y, _ => .operation (x.sheltered_script _) _ _ (y.sheltered_script _) _
  | .binary true x _ op _ y, _ => .operation (x.sheltered_script _) _ _ (y.sheltered_script _) _
  | .conditional yes _ test _ no, _ => by
    simp [Form.script, yes.sheltered_script, test.sheltered_script, no.sheltered_script, Sheltered,
      key]
  | .lambda _ params _ body, _ =>
    ⟨⟨⟨trivial, sheltered_lambdaParams (sheltered_parts (sheltered_scriptList params))⟩,
      trivial, trivial⟩, body.sheltered_script _⟩
  | .call callee _ args _ _, _ =>
    ⟨callee.sheltered_script _,
      sheltered_sequence (sheltered_parts (sheltered_scriptList args)) _ _ _⟩
  | .collection _ _ items _ _, _ =>
    sheltered_sequence (sheltered_parts (sheltered_scriptList items)) _ _ _
  | .keyValue key _ value, _ =>
    ⟨⟨key.sheltered_script _, trivial, trivial⟩, value.sheltered_script _⟩
  | .comprehension _ _ body clauses _ _, _ =>
    sheltered_comprehension (sheltered_parts (sheltered_scriptList clauses)) _
      (body.sheltered_script _) _ _
  | .forClause _ vars _ x, _ => by
    simp [Form.script, vars.sheltered_script, x.sheltered_script, Sheltered, key]
  | .ifClause _ cond, _ => ⟨⟨trivial, trivial⟩, cond.sheltered_script _⟩
  | .paren _ x _ _, _ =>
    sheltered_sequence (List.forall_mem_singleton.mpr (x.sheltered_script _)) _ _ _
  | .defStmt _ _ _ params _ _ body _, suffix =>
    ⟨⟨⟨⟨trivial, trivial⟩, trivial⟩,
      sheltered_sequence (sheltered_parts (sheltered_scriptList params)) _ _ _⟩,
      sheltered_headed (sheltered_scriptList body) _⟩
  | .forStmt _ vars x body, suffix => by
    simp [Form.script, vars.sheltered_script, x.sheltered_script, Sheltered, key,
      sheltered_headed (sheltered_scriptList body)]
  | .ifStmt _ cond yesBody elsePos noBody, suffix =>
    ⟨sheltered_branch (sheltered_scriptList yesBody) _ (cond.sheltered_script _) _,
      sheltered_scriptElse noBody _ _⟩
  | .returnStmt _ (some x), _ => ⟨⟨trivial, trivial⟩, x.sheltered_script _⟩
  | .load _ label comments bindings _ _, _ => by
    refine ⟨trivial, sheltered_sequence (List.forall_mem_cons.mpr ⟨?_, ?_⟩) _ _ _⟩
    · exact .framed (sheltered_literal label) _ _ _
    · exact List.forall_mem_map.mpr fun b _ => b.sheltered_part
  | .typed _ _ type, _ => ⟨⟨trivial, trivial, trivial⟩, type.sheltered_script _⟩

theorem sheltered_scriptList : ∀ (xs : List Node), ∀ x ∈ scriptList xs, x.script.Sheltered false
  | [] => nofun
  | x :: rest => List.forall_mem_cons.mpr ⟨x.sheltered_script _, sheltered_scriptList rest⟩

theorem sheltered_scriptOption : ∀ (x : Option Node) (outer : Strength),
    (scriptOption x outer).Sheltered false
  | none, _ => trivial
  | some x, outer => x.sheltered_script outer

/-- So are the branches behind an `if`. -/
theorem sheltered_scriptElse : ∀ (body : List Node) (gap : Bool) (close : Close),
    (scriptElse body gap close).Sheltered false
  | [], _, _ => trivial
  | [x], gap, close => by
    have alone := x.sheltered_script .low
    obtain ⟨comments, f⟩ := x
    cases f with
    | ifStmt pos cond yesBody elsePos noBody =>
        refine ⟨⟨⟨sheltered_elseLine gap _, trivial⟩, ?_⟩, sheltered_scriptElse noBody _ _⟩
        exact sheltered_branch (sheltered_scriptList yesBody) _ (cond.sheltered_script _) _
    | _ =>
        refine ⟨⟨⟨sheltered_elseLine gap _, trivial, trivial⟩, trivial⟩, ?_⟩
        exact sheltered_block (List.forall_mem_singleton.mpr alone)
  | x :: y :: rest, gap, close => by
    simp only [scriptElse]
    refine ⟨⟨⟨sheltered_elseLine gap _, trivial, trivial⟩, trivial⟩, sheltered_block ?_⟩
    exact List.forall_mem_cons.mpr ⟨x.sheltered_script _, sheltered_scriptList (y :: rest)⟩

end

end Starlark
