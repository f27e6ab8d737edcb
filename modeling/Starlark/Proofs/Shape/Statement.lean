import Starlark.Proofs.Block
import Starlark.Proofs.Block.Forms
import Starlark.Proofs.Shape

/-!
# The shape of statements

Every statement that is read plays the part of a line, and so do the statements
in its bodies. The proof follows the grammar of statements; what happens to the
comments between statements does not matter, since the statements themselves
stay what they are.
-/

set_option autoImplicit false

namespace Starlark

/-- A form that is a statement or a comment block. -/
def Form.IsLine (types : Bool) (f : Form) : Prop := (Node.mk .none f).Plays (.line types)

theorem Node.plays_line_iff {types : Bool} {v : Node} :
    v.Plays (.line types) ↔ v.form.IsLine types := by
  obtain ⟨comments, f⟩ := v
  cases f with
  | collection kind => cases kind <;> exact Iff.rfl
  | binary assigns => cases assigns <;> exact Iff.rfl
  | _ => exact Iff.rfl

/-- Lines are known by their statements. -/
theorem playAll_line_iff {types : Bool} {vs : List Node} :
    PlayAll (.line types) vs ↔ ∀ f ∈ formsOf vs, f.IsLine types := by
  rw [playAll_iff]
  simp only [formsOf, List.mem_filterMap, Node.statement?]
  constructor
  · rintro all f ⟨v, member, same⟩
    split at same
    · cases same
    · cases same
      exact Node.plays_line_iff.mp (all v member)
  · intro all v member
    rw [Node.plays_line_iff]
    by_cases block : v.isCommentBlock = true
    · obtain ⟨comments, f⟩ := v
      cases f <;> first | exact trivial | cases block
    · exact all v.form ⟨v, member, by rw [if_neg block]⟩

/-- Tokens of which those inside a line can be cut off a source. -/
def LexicalTokens (ts : List Token) : Prop :=
  ∀ t ∈ ts, t.kind.isInline = true → t.word.Sound

@[simp] theorem lexicalTokens_cons {t : Token} {ts : List Token} :
    LexicalTokens (t :: ts) ↔ (t.kind.isInline = true → t.word.Sound) ∧ LexicalTokens ts :=
  List.forall_mem_cons

@[simp] theorem lexicalTokens_append {ts us : List Token} :
    LexicalTokens (ts ++ us) ↔ LexicalTokens ts ∧ LexicalTokens us := List.forall_mem_append

theorem Inline.sound {ts : List Token} (inline : Inline ts) (lexical : LexicalTokens ts) :
    SoundTokens ts := fun t member => lexical t member (inline t member)

/-! ## Small statements -/

theorem Spells.playsOne {p : Phrase} {ts : List Token} {v : Node} (spells : Spells p ts [v])
    (lexical : LexicalTokens ts) : v.Plays p.role :=
  (spells.plays (spells.inline.sound lexical)).1

/-- An expression can be a statement. -/
theorem Node.Plays.line {v : Node} (expression : v.Plays .expression) (types : Bool) :
    v.Plays (.line types) := by
  obtain ⟨c, f⟩ := v
  cases f with
  | collection kind p items close layout => cases kind <;> exact expression
  | binary assigns x p op b y =>
      cases assigns with
      | false => exact expression
      | true => exact nomatch expression.1
  | commentBlock | returnStmt | branch | load | defStmt | forStmt | ifStmt => cases expression
  | _ => exact expression

theorem BindingTokens.lexical {ts : List Token} {b : Binding} (tokens : BindingTokens ts b)
    (lexical : LexicalTokens ts) : b.Lexical := by
  cases tokens with
  | symbol => exact fun other => absurd rfl other
  | @renamed t e s x named eq kind value =>
      intro _
      exact Token.name_sound (lexical t (by simp) (Token.Kind.isInline_of_isName named)) named

theorem Reader.Listed.lexical {ts : List Token} {bs : List Binding}
    (listed : Reader.Listed BindingTokens ts bs) (lexical : LexicalTokens ts) :
    ∀ b ∈ bs, b.Lexical := by
  induction listed with
  | none | comma => simp
  | item _ first _ ih =>
      simp only [lexicalTokens_cons, lexicalTokens_append] at lexical
      exact List.forall_mem_cons.mpr ⟨first.lexical lexical.2.1, ih lexical.2.2⟩

/-- A small statement of tokens that can be cut off is a line. -/
theorem SmallStmt.plays {ts : List Token} {v : Node} (stmt : SmallStmt ts v) (types : Bool)
    (lexical : LexicalTokens ts) : v.Plays (.line types) := by
  cases stmt with
  | returnNothing => exact trivial
  | returnValue _ value =>
      rw [lexicalTokens_cons] at lexical
      exact value.playsOne lexical.2
  | @branch t key =>
      exact Token.text_mem_branches (lexical t (by simp) (isInline_of_isBranch key)) key
  | @load a b c d ts label bindings key opening kind value symbols closing =>
      simp only [lexicalTokens_cons, lexicalTokens_append] at lexical
      refine ⟨?_, symbols.lexical lexical.2.2.2.1⟩
      exact StringLit.lexical_ofToken (lexical.2.2.1 (by simp [kind])) kind value
  | @assign e _ _ _ _ left eq right =>
      simp only [lexicalTokens_cons, lexicalTokens_append] at lexical
      have inline : e.kind.isInline = true := by
        rcases eq with kind | kind <;> simp [kind]
      exact ⟨Token.text_mem_assignments (lexical.2.1 inline) eq, left.playsOne lexical.1,
        right.playsOne lexical.2.2⟩
  | value plain => exact (plain.playsOne lexical).line types

theorem LineRest.plays {ts : List Token} {vs : List Node} (line : LineRest ts vs) (types : Bool)
    (lexical : LexicalTokens ts) : PlayAll (.line types) vs := by
  induction line with
  | done | semi => exact trivial
  | next _ first _ ih =>
      simp only [lexicalTokens_cons, lexicalTokens_append] at lexical
      exact ⟨first.plays types lexical.2.1, ih lexical.2.2⟩

theorem StmtLine.plays {ts : List Token} {vs : List Node} (line : StmtLine ts vs) (types : Bool)
    (lexical : LexicalTokens ts) : PlayAll (.line types) vs := by
  obtain ⟨first, more⟩ := line
  rw [lexicalTokens_append] at lexical
  exact ⟨first.plays types lexical.1, more.plays types lexical.2⟩

/-! ## Statements with a body -/

/-- A line stays one when comment blocks are cut off its bodies. -/
theorem Form.IsLine.trimmed {types : Bool} {f f' : Form} (line : f.IsLine types)
    (trimmed : f.Trimmed f') : f'.IsLine types := by
  have lines {body body' : List Node} (lines : PlayAll (.line types) body)
      (forms : formsOf body' = formsOf body) : PlayAll (.line types) body' := by
    rw [playAll_line_iff] at lines ⊢
    exact forms ▸ lines
  induction trimmed with
  | same f => exact line
  | define forms => exact ⟨line.1, line.2.1, lines line.2.2 forms⟩
  | loop forms => exact ⟨line.1, line.2.1, lines line.2.2 forms⟩
  | yes forms => exact ⟨line.1, lines line.2.1 forms, trivial⟩
  | no forms => exact ⟨line.1, line.2.1, lines line.2.2 forms⟩
  | arm inner ih =>
      obtain ⟨test, yes, no⟩ := line
      exact ⟨test, yes, Node.plays_line_iff.mpr (ih (Node.plays_line_iff.mp no.1)), trivial⟩

/-- A statement without the comments at its end is still a line. -/
theorem Node.Plays.splitTrailing {types : Bool} {v : Node} (line : v.Plays (.line types)) :
    v.splitTrailing.1.Plays (.line types) :=
  Node.plays_line_iff.mpr ((Node.plays_line_iff.mp line).trimmed v.splitTrailing_trimmed.1)

namespace Reading

/-- A reading whose statements all are lines. -/
def Plays (types : Bool) : Reading → Prop
  | .suite s => PlayAll (.line types) s.body
  | .compound stmt => stmt.1.Plays (.line types)
  | .arms all => ∀ a ∈ all, a.cond.Plays .expression ∧ PlayAll (.line types) a.suite.body
  | .lines entries => ∀ f ∈ entries.flatMap Entry.forms, f.IsLine types

end Reading

/-- The rest of an `if` behind its first branch is a list of lines. -/
theorem Reader.nested_plays {types : Bool} {close : Close} {body : List Node}
    {arms : List Reader.Arm} (lines : PlayAll (.line types) body)
    (each : ∀ a ∈ arms, a.cond.Plays .expression ∧ PlayAll (.line types) a.suite.body) :
    PlayAll (.line types) (Reader.nested close body arms).2 := by
  induction arms with
  | nil => exact lines
  | cons a arms ih =>
      obtain ⟨here, others⟩ := List.forall_mem_cons.mp each
      exact ⟨⟨here.1, here.2, ih others⟩, trivial⟩

/-- What is read as statements plays the part of lines. -/
theorem Builds.plays {types : Bool} {ts : List Token} {r : Reading} (builds : Builds types ts r)
    (lexical : LexicalTokens ts) : r.Plays types := by
  induction builds with
  | lineSuite line => exact line.plays types lexical
  | @blockSuite a b hs ls ts header leading entries ends above _ _ _ ih =>
      simp only [lexicalTokens_cons, lexicalTokens_append] at lexical
      have lines := ih lexical.2.2.1
      have blanks : leading.flatMap Entry.forms = [] := by
        clear ends lexical
        induction above with
        | none => rfl
        | blank _ _ ih | remark _ _ _ ih => exact ih
      show PlayAll _ _
      rw [playAll_line_iff, Block.formsOf_precede, Block.formsOf_ofEntries,
        Block.formsOf_ofEntries, blanks]
      exact lines
  | @define a t b c d ps ts params s _ named _ parts _ _ _ ih =>
      simp only [lexicalTokens_cons, lexicalTokens_append] at lexical
      exact ⟨Token.name_sound (lexical.2.1 (Token.Kind.isInline_of_isName named)) named,
        parts.plays (parts.inline.sound lexical.2.2.2.1), ih lexical.2.2.2.2.2.2⟩
  | loop _ bound _ range _ _ ih =>
      simp only [lexicalTokens_cons, lexicalTokens_append] at lexical
      exact ⟨bound.playsOne lexical.2.1, range.playsOne lexical.2.2.2.1, ih lexical.2.2.2.2.2⟩
  | choice _ test _ _ _ body arms =>
      simp only [lexicalTokens_cons, lexicalTokens_append] at lexical
      exact ⟨test.playsOne lexical.2.1, body lexical.2.2.2.1,
        Reader.nested_plays trivial (arms lexical.2.2.2.2)⟩
  | choiceElse _ test _ _ _ _ _ _ body arms last =>
      simp only [lexicalTokens_cons, lexicalTokens_append] at lexical
      exact ⟨test.playsOne lexical.2.1, body lexical.2.2.2.1.1,
        Reader.nested_plays (last lexical.2.2.2.2.2.2) (arms lexical.2.2.2.1.2)⟩
  | noArm => exact fun _ member => nomatch member
  | arm _ test _ _ _ body arms =>
      simp only [lexicalTokens_cons, lexicalTokens_append] at lexical
      exact List.forall_mem_cons.mpr
        ⟨⟨test.playsOne lexical.2.1, body lexical.2.2.2.1⟩, arms lexical.2.2.2.2⟩
  | noLine => exact fun _ member => nomatch member
  | blank _ _ ih =>
      rw [lexicalTokens_cons] at lexical
      exact ih lexical.2
  | remark _ _ _ ih =>
      simp only [lexicalTokens_cons] at lexical
      exact ih lexical.2.2
  | compound _ _ first more =>
      rw [lexicalTokens_append] at lexical
      have line := first lexical.1
      show ∀ f ∈ List.flatMap _ (_ :: _), _
      rw [List.flatMap_cons, Reader.forms_blockGroup]
      refine List.forall_mem_append.mpr ⟨?_, more lexical.2⟩
      rw [← playAll_line_iff]
      exact ⟨line.splitTrailing, trivial⟩
  | stmts first _ ih =>
      rw [lexicalTokens_append] at lexical
      refine List.forall_mem_append.mpr ⟨?_, ih lexical.2⟩
      exact playAll_line_iff.mp (first.plays types lexical.1)

end Starlark
