import Starlark.Proofs.Shape.Statement
import Starlark.Proofs.Throughout

/-!
# What holds throughout statements that are read

A property of forms that holds of every statement with a body, whatever its
parts, and throughout the expressions and small statements of a source, holds
throughout the source. Putting lines together to bodies and cutting comments off
their ends does not matter for it (`File.throughout_of_ofStream`).
-/

set_option autoImplicit false

namespace Starlark

variable {P : Form → Prop}

/-- The property holds of the form and of every form below it. -/
def Form.Throughout (P : Form → Prop) (f : Form) : Prop :=
  P f ∧ ∀ c ∈ f.children, c.Throughout fun v => P v.form

theorem Node.throughout_form_iff {v : Node} :
    (v.Throughout fun v => P v.form) ↔ v.form.Throughout P := throughout_iff

/-- A property that the statements with a body and the comment blocks have, whatever their
parts. -/
def HoldsOfBlocks (P : Form → Prop) : Prop := ∀ f, f.isBlock || f.isCommentBlock → P f

namespace HoldsOfBlocks

variable (blocks : HoldsOfBlocks P)
include blocks

/-- Comment blocks do not matter. -/
theorem forall_throughout_iff {vs : List Node} :
    (∀ v ∈ vs, v.Throughout fun v => P v.form) ↔ ∀ f ∈ formsOf vs, f.Throughout P := by
  simp only [Node.throughout_form_iff]
  exact forall_form_iff fun p => ⟨blocks _ rfl, List.forall_mem_nil _⟩

theorem defStmt {p q r s : Position} {name : String} {params body : List Node} {layout : Layout} :
    (Form.defStmt p name q params r s body layout).Throughout P ↔
      (∀ v ∈ params, v.Throughout fun v => P v.form) ∧
        ∀ v ∈ body, v.Throughout fun v => P v.form := by
  rw [Form.Throughout, Form.children, List.forall_mem_append]
  exact and_iff_right (blocks _ rfl)

theorem forStmt {p : Position} {vars x : Node} {body : List Node} :
    (Form.forStmt p vars x body).Throughout P ↔
      (vars.Throughout fun v => P v.form) ∧ (x.Throughout fun v => P v.form) ∧
        ∀ v ∈ body, v.Throughout fun v => P v.form := by
  rw [Form.Throughout, Form.children, List.forall_mem_cons, List.forall_mem_cons]
  exact and_iff_right (blocks _ rfl)

theorem ifStmt {p : Position} {cond : Node} {yesBody noBody : List Node} {e : Close} :
    (Form.ifStmt p cond yesBody e noBody).Throughout P ↔
      (cond.Throughout fun v => P v.form) ∧ (∀ v ∈ yesBody, v.Throughout fun v => P v.form) ∧
        ∀ v ∈ noBody, v.Throughout fun v => P v.form := by
  rw [Form.Throughout, Form.children, List.forall_mem_cons, List.forall_mem_append]
  exact and_iff_right (blocks _ rfl)

/-- A statement without the comments at its end. -/
theorem trimmed {f f' : Form} (trimmed : f.Trimmed f') (all : f.Throughout P) :
    f'.Throughout P := by
  have lines {body body' : List Node} (forms : formsOf body' = formsOf body)
      (all : ∀ v ∈ body, v.Throughout fun v => P v.form) :
      ∀ v ∈ body', v.Throughout fun v => P v.form := by
    rw [blocks.forall_throughout_iff] at all ⊢
    rwa [forms]
  induction trimmed with
  | same => exact all
  | define forms =>
      obtain ⟨params, body⟩ := blocks.defStmt.mp all
      exact blocks.defStmt.mpr ⟨params, lines forms body⟩
  | loop forms =>
      obtain ⟨vars, x, body⟩ := blocks.forStmt.mp all
      exact blocks.forStmt.mpr ⟨vars, x, lines forms body⟩
  | yes forms =>
      obtain ⟨cond, yes, no⟩ := blocks.ifStmt.mp all
      exact blocks.ifStmt.mpr ⟨cond, lines forms yes, no⟩
  | no forms =>
      obtain ⟨cond, yes, no⟩ := blocks.ifStmt.mp all
      exact blocks.ifStmt.mpr ⟨cond, yes, lines forms no⟩
  | arm _ ih =>
      obtain ⟨cond, yes, no⟩ := blocks.ifStmt.mp all
      refine blocks.ifStmt.mpr ⟨cond, yes, List.forall_mem_singleton.mpr ?_⟩
      exact Node.throughout_form_iff.mpr
        (ih (Node.throughout_form_iff.mp (List.forall_mem_singleton.mp no)))

end HoldsOfBlocks

/-- The property holds throughout the reading. -/
def Reading.Throughout (P : Form → Prop) : Reading → Prop
  | .suite s => ∀ v ∈ s.body, v.Throughout fun v => P v.form
  | .compound stmt => stmt.1.Throughout fun v => P v.form
  | .arms all => ∀ a ∈ all, (a.cond.Throughout fun v => P v.form) ∧
      ∀ v ∈ a.suite.body, v.Throughout fun v => P v.form
  | .lines entries => ∀ f ∈ entries.flatMap Entry.forms, f.Throughout P

/-- The property holds throughout the parts of which statements with a body are made. -/
structure HoldsOfParts (P : Form → Prop) : Prop where
  phrase : ∀ {p : Phrase} {ts : List Token} {vs : List Node}, Spells p ts vs → SoundTokens ts →
    ∀ v ∈ vs, v.Throughout fun v => P v.form
  small : ∀ {ts : List Token} {v : Node}, SmallStmt ts v → LexicalTokens ts →
    v.Throughout fun v => P v.form

/-- The same where the parts are spelled by tokens that are all good. -/
structure HoldsOfPartsOf (good : Token → Prop) (P : Form → Prop) : Prop where
  phrase : ∀ {p : Phrase} {ts : List Token} {vs : List Node}, Spells p ts vs → (∀ t ∈ ts, good t) →
    ∀ v ∈ vs, v.Throughout fun v => P v.form
  small : ∀ {ts : List Token} {v : Node}, SmallStmt ts v → (∀ t ∈ ts, good t) →
    v.Throughout fun v => P v.form

theorem HoldsOfParts.ofLexical (parts : HoldsOfParts P) :
    HoldsOfPartsOf (fun t => t.kind.isInline = true → t.word.Sound) P where
  phrase spells lexical := parts.phrase spells (spells.inline.sound lexical)
  small stmt lexical := parts.small stmt lexical

variable {good : Token → Prop}

namespace HoldsOfPartsOf

variable (parts : HoldsOfPartsOf good P)
include parts

theorem lineRest {ts : List Token} {vs : List Node} (line : LineRest ts vs)
    (all : ∀ t ∈ ts, good t) : ∀ v ∈ vs, v.Throughout fun v => P v.form := by
  induction line with
  | done | semi => exact List.forall_mem_nil _
  | next _ first _ ih =>
      simp only [List.forall_mem_cons, List.forall_mem_append] at all
      exact List.forall_mem_cons.mpr ⟨parts.small first all.2.1, ih all.2.2⟩

theorem stmtLine {ts : List Token} {vs : List Node} (line : StmtLine ts vs)
    (all : ∀ t ∈ ts, good t) : ∀ v ∈ vs, v.Throughout fun v => P v.form := by
  obtain ⟨first, more⟩ := line
  rw [List.forall_mem_append] at all
  exact List.forall_mem_cons.mpr ⟨parts.small first all.1, parts.lineRest more all.2⟩

theorem single {p : Phrase} {ts : List Token} {v : Node} (spells : Spells p ts [v])
    (all : ∀ t ∈ ts, good t) : v.Throughout fun v => P v.form :=
  parts.phrase spells all v (List.mem_singleton_self v)

end HoldsOfPartsOf

/-- The rest of an `if` behind its first branch. -/
theorem Reader.throughout_nested (blocks : HoldsOfBlocks P) {close : Close} {body : List Node}
    {arms : List Reader.Arm} (lines : ∀ v ∈ body, v.Throughout fun v => P v.form)
    (each : (Reading.arms arms).Throughout P) :
    ∀ v ∈ (Reader.nested close body arms).2, v.Throughout fun v => P v.form := by
  induction arms with
  | nil => exact lines
  | cons a arms ih =>
      obtain ⟨⟨cond, yes⟩, others⟩ := List.forall_mem_cons.mp each
      refine List.forall_mem_singleton.mpr (Node.throughout_form_iff.mpr ?_)
      exact blocks.ifStmt.mpr ⟨cond, yes, ih others⟩

/-- What holds of parts and of comment blocks holds throughout all that tokens build. -/
theorem Builds.throughout (blocks : HoldsOfBlocks P) (parts : HoldsOfPartsOf good P) {types : Bool}
    {ts : List Token} {r : Reading} (builds : Builds types ts r) (all : ∀ t ∈ ts, good t) :
    r.Throughout P := by
  induction builds with
  | lineSuite line => exact parts.stmtLine line all
  | @blockSuite _ _ _ _ _ _ leading entries _ above _ _ _ ih =>
      simp only [List.forall_mem_cons, List.forall_mem_append] at all
      refine blocks.forall_throughout_iff.mpr ?_
      rw [Block.formsOf_precede, Block.formsOf_ofEntries, Block.formsOf_ofEntries, above.forms_eq]
      exact ih all.2.2.1
  | define _ _ _ params _ _ _ ih =>
      simp only [List.forall_mem_cons, List.forall_mem_append] at all
      refine Node.throughout_form_iff.mpr (blocks.defStmt.mpr ⟨?_, ih all.2.2.2.2.2.2⟩)
      exact parts.phrase params all.2.2.2.1
  | loop _ bound _ range _ _ ih =>
      simp only [List.forall_mem_cons, List.forall_mem_append] at all
      exact Node.throughout_form_iff.mpr (blocks.forStmt.mpr ⟨parts.single bound all.2.1,
        parts.single range all.2.2.2.1, ih all.2.2.2.2.2⟩)
  | choice _ test _ _ _ body arms =>
      simp only [List.forall_mem_cons, List.forall_mem_append] at all
      exact Node.throughout_form_iff.mpr (blocks.ifStmt.mpr ⟨parts.single test all.2.1,
        body all.2.2.2.1,
        Reader.throughout_nested blocks (List.forall_mem_nil _) (arms all.2.2.2.2)⟩)
  | choiceElse _ test _ _ _ _ _ _ body arms last =>
      simp only [List.forall_mem_cons, List.forall_mem_append] at all
      exact Node.throughout_form_iff.mpr (blocks.ifStmt.mpr ⟨parts.single test all.2.1,
        body all.2.2.2.1.1,
        Reader.throughout_nested blocks (last all.2.2.2.2.2.2) (arms all.2.2.2.1.2)⟩)
  | noArm => exact List.forall_mem_nil _
  | arm _ test _ _ _ body arms =>
      simp only [List.forall_mem_cons, List.forall_mem_append] at all
      exact List.forall_mem_cons.mpr
        ⟨⟨parts.single test all.2.1, body all.2.2.2.1⟩, arms all.2.2.2.2⟩
  | noLine => exact List.forall_mem_nil _
  | blank _ _ ih =>
      rw [List.forall_mem_cons] at all
      exact ih all.2
  | remark _ _ _ ih =>
      simp only [List.forall_mem_cons] at all
      exact ih all.2.2
  | compound _ _ first more =>
      rw [List.forall_mem_append] at all
      have whole := blocks.trimmed (Node.splitTrailing_trimmed _).1
        (Node.throughout_form_iff.mp (first all.1))
      show ∀ f ∈ List.flatMap _ (_ :: _), _
      rw [List.flatMap_cons, Reader.forms_blockGroup]
      refine List.forall_mem_append.mpr ⟨?_, more all.2⟩
      rw [← blocks.forall_throughout_iff]
      exact List.forall_mem_singleton.mpr (Node.throughout_form_iff.mpr whole)
  | stmts first _ ih =>
      rw [List.forall_mem_append] at all
      refine List.forall_mem_append.mpr ⟨?_, ih all.2⟩
      exact blocks.forall_throughout_iff.mp (parts.stmtLine first all.1)

/-- The same of lines that are put together. -/
theorem Builds.throughout_nodes (blocks : HoldsOfBlocks P) (parts : HoldsOfPartsOf good P)
    {types : Bool} {ts : List Token} {entries : List Entry}
    (lines : Builds types ts (.lines entries)) (all : ∀ t ∈ ts, good t) :
    ∀ v ∈ (Block.ofEntries entries).nodes, v.Throughout fun v => P v.form := by
  have forms : (Reading.lines entries).Throughout P := lines.throughout blocks parts all
  refine blocks.forall_throughout_iff.mpr ?_
  rw [Block.formsOf_ofEntries]
  exact forms

/-- What holds of every statement with a body and throughout what such statements are made of holds
throughout a file, when comments do not matter for it. -/
theorem File.throughout_of_ofStream (blocks : HoldsOfBlocks P) (parts : HoldsOfParts P)
    (stable : Node.Stable fun v => P v.form) {path : String} {options : Options}
    {stream : TokenStream} {f : File} (lexical : LexicalTokens stream.tokens)
    (read : File.ofStream path options stream = .ok f) :
    ∀ v ∈ f.statements, v.Throughout fun v => P v.form := by
  obtain ⟨used, rest, entries, tokens, lines, attached⟩ := File.attached_of_ofStream read
  rw [tokens, lexicalTokens_append] at lexical
  rw [attached]
  exact throughout_attach stable (lines.throughout_nodes blocks parts.ofLexical lexical.1) _ _

end Starlark
