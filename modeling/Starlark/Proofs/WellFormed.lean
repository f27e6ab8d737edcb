import Starlark.Proofs.Lexeme.Straight
import Starlark.Proofs.Span.File

/-!
# Well-formed files

Every node of a file that is read stands where the grammar has a place for it
(`Node.Plays`), every body holds a statement, an `else` is there exactly if it
has a body, and comment blocks hold comments (`File.WellFormed`).

That bodies hold statements is not a matter of the grammar, which allows a block
of comments and blank lines. It rests on where blocks open: in front of code,
unless a backslash joins lines there. Moving comments about and cutting them off
the end of a body keep the statements of the body.
-/

set_option autoImplicit false

namespace Starlark

open Token (placesOf)

/-! ## Bodies with a statement -/

/-- A body that holds more than comment blocks. -/
def HasStatement (body : List Node) : Prop := ∃ v ∈ body, v.isCommentBlock = false

/-- The rest of an `if`: there is an `else` exactly if there is a body for it, which then holds a
statement. -/
structure FurnishesElse (e : Close) (body : List Node) : Prop where
  valid : e.pos.isValid = true ↔ body ≠ []
  statement : body ≠ [] → HasStatement body

/-- Each body of the form holds a statement, and an `else` is there exactly if it has a body. -/
def Form.Furnished : Form → Prop
  | .defStmt _ _ _ _ _ _ body _ | .forStmt _ _ _ body => HasStatement body
  | .ifStmt _ _ yesBody e noBody => HasStatement yesBody ∧ FurnishesElse e noBody
  | _ => True

/-- A node with a furnished form. -/
def Node.Furnished (v : Node) : Prop := v.form.Furnished

/-- A furnished form over parts that are furnished throughout. -/
def Form.AllFurnished (f : Form) : Prop :=
  f.Furnished ∧ ∀ c ∈ f.children, c.Throughout Node.Furnished

theorem hasStatement_iff {body : List Node} : HasStatement body ↔ formsOf body ≠ [] := by
  simp [HasStatement, formsOf, Node.statement?]

theorem HasStatement.ne_nil {body : List Node} (held : HasStatement body) : body ≠ [] := by
  obtain ⟨v, member, _⟩ := held
  exact List.ne_nil_of_mem member

theorem Form.furnished_of_not_isBlock {f : Form} (plain : f.isBlock = false) : f.Furnished := by
  cases f <;> trivial

theorem Form.allFurnished_commentBlock (p : Position) : (commentBlock p).AllFurnished :=
  ⟨trivial, nofun⟩

theorem Node.throughout_furnished_iff {v : Node} :
    v.Throughout Furnished ↔ v.form.AllFurnished := throughout_iff

/-- Comment blocks and comments do not matter. -/
theorem forall_furnished_iff {vs : List Node} :
    (∀ v ∈ vs, v.Throughout Node.Furnished) ↔ ∀ f ∈ formsOf vs, f.AllFurnished := by
  simp only [Node.throughout_furnished_iff]
  exact forall_form_iff Form.allFurnished_commentBlock

/-! ## Cutting comments off -/

theorem Form.Trimmed.isCommentBlock_eq {f f' : Form} (trimmed : f.Trimmed f') :
    f'.isCommentBlock = f.isCommentBlock := by
  cases trimmed <;> rfl

/-- Cutting comment blocks off the bodies of a form takes no statement from them. -/
theorem Form.AllFurnished.trimmed {f f' : Form} (furnished : f.AllFurnished)
    (trimmed : f.Trimmed f') : f'.AllFurnished := by
  have bodies {body body' : List Node} (forms : formsOf body' = formsOf body) :
      (HasStatement body → HasStatement body') ∧
        ((∀ v ∈ body, v.Throughout Node.Furnished) → ∀ v ∈ body', v.Throughout Node.Furnished) := by
    rw [hasStatement_iff, hasStatement_iff, forall_furnished_iff, forall_furnished_iff, forms]
    exact ⟨id, id⟩
  induction trimmed with
  | same f => exact furnished
  | define forms =>
      obtain ⟨statement, parts⟩ := furnished
      obtain ⟨params, lines⟩ := List.forall_mem_append.mp parts
      exact ⟨(bodies forms).1 statement,
        List.forall_mem_append.mpr ⟨params, (bodies forms).2 lines⟩⟩
  | loop forms =>
      obtain ⟨statement, parts⟩ := furnished
      simp only [children, List.forall_mem_cons] at parts
      refine ⟨(bodies forms).1 statement, ?_⟩
      simp only [children, List.forall_mem_cons]
      exact ⟨parts.1, parts.2.1, (bodies forms).2 parts.2.2⟩
  | yes forms =>
      obtain ⟨⟨statement, rest⟩, parts⟩ := furnished
      simp only [children, List.forall_mem_cons, List.append_nil] at parts
      refine ⟨⟨(bodies forms).1 statement, rest⟩, ?_⟩
      simp only [children, List.forall_mem_cons, List.append_nil]
      exact ⟨parts.1, (bodies forms).2 parts.2⟩
  | no forms some' =>
      obtain ⟨⟨statement, valid, last⟩, parts⟩ := furnished
      simp only [children, List.forall_mem_cons, List.forall_mem_append] at parts
      have held := (bodies forms).1 (last some')
      refine ⟨⟨statement, iff_of_true (valid.mpr some') held.ne_nil, fun _ => held⟩, ?_⟩
      simp only [children, List.forall_mem_cons, List.forall_mem_append]
      exact ⟨parts.1, parts.2.1, (bodies forms).2 parts.2.2⟩
  | @arm p cond yesBody e c f f' inner ih =>
      obtain ⟨⟨statement, valid, last⟩, parts⟩ := furnished
      simp only [children, List.forall_mem_cons, List.forall_mem_append] at parts
      obtain ⟨test, yes, branch, _⟩ := parts
      have held : HasStatement [.mk c f'] := by
        have before := last (List.cons_ne_nil _ _)
        simp only [HasStatement, List.mem_singleton, exists_eq_left] at before ⊢
        exact inner.isCommentBlock_eq.trans before
      refine ⟨⟨statement, iff_of_true (valid.mpr (List.cons_ne_nil _ _)) held.ne_nil,
        fun _ => held⟩, ?_⟩
      simp only [children, List.forall_mem_cons, List.forall_mem_append]
      refine ⟨test, yes, ?_, List.forall_mem_nil _⟩
      exact Node.throughout_furnished_iff.mpr (ih (Node.throughout_furnished_iff.mp branch))

/-! ## Reading statements -/

/-- A reading whose bodies hold statements. -/
def Reading.Furnished : Reading → Prop
  | .suite s => HasStatement s.body ∧ ∀ v ∈ s.body, v.Throughout Node.Furnished
  | .compound stmt => stmt.1.Throughout Node.Furnished
  | .arms all => ∀ a ∈ all, a.pos.isValid = true ∧ a.cond.Throughout Node.Furnished ∧
      HasStatement a.suite.body ∧ ∀ v ∈ a.suite.body, v.Throughout Node.Furnished
  | .lines entries => ∀ f ∈ entries.flatMap Entry.forms, f.AllFurnished

theorem StmtLine.hasStatement {ts : List Token} {vs : List Node} (line : StmtLine ts vs) :
    HasStatement vs := by
  obtain ⟨_, inert, v, rest, rfl, _⟩ := line.stmts
  exact ⟨v, List.mem_cons_self, (inert v List.mem_cons_self).statement⟩

/-- Lines that begin with a token inside a line hold a statement. -/
theorem Builds.forms_ne_nil {types : Bool} {ts : List Token} {entries : List Entry}
    (builds : Builds types ts (.lines entries)) {t : Token} (first : t ∈ ts.head?)
    (inline : t.kind.isInline = true) : entries.flatMap Entry.forms ≠ [] := by
  cases builds with
  | noLine => cases first
  | blank ends =>
      cases first
      rw [ends] at inline
      cases inline
  | remark kind =>
      cases first
      rw [kind] at inline
      cases inline
  | @compound _ _ stmt _ built =>
      have statement : stmt.1.splitTrailing.1.isCommentBlock = false := by
        rw [Node.isCommentBlock, stmt.1.splitTrailing_trimmed.1.isCommentBlock_eq]
        cases built <;> rfl
      rw [List.flatMap_cons, Reader.forms_blockGroup]
      refine List.append_ne_nil_of_left_ne_nil (hasStatement_iff.mp ?_) _
      exact ⟨_, List.mem_singleton_self _, statement⟩
  | stmts line =>
      exact List.append_ne_nil_of_left_ne_nil (hasStatement_iff.mp line.hasStatement) _

/-- The branches behind the first one of an `if` are furnished. -/
theorem Reader.furnished_nested {e : Close} {body : List Node} {arms : List Reader.Arm}
    (last : FurnishesElse e body) (lines : ∀ v ∈ body, v.Throughout Node.Furnished)
    (each : (Reading.arms arms).Furnished) :
    FurnishesElse (nested e body arms).1 (nested e body arms).2 ∧
      ∀ v ∈ (nested e body arms).2, v.Throughout Node.Furnished := by
  induction arms with
  | nil => exact ⟨last, lines⟩
  | cons a arms ih =>
      obtain ⟨⟨valid, test, held, yes⟩, others⟩ := List.forall_mem_cons.mp each
      obtain ⟨rest, no⟩ := ih others
      refine ⟨⟨iff_of_true valid (List.cons_ne_nil _ _), fun _ => ?_⟩, ?_⟩
      · exact ⟨_, List.mem_singleton_self _, rfl⟩
      · refine List.forall_mem_singleton.mpr (Node.throughout_iff.mpr ⟨⟨held, rest⟩, ?_⟩)
        exact List.forall_mem_cons.mpr ⟨test, List.forall_mem_append.mpr ⟨yes, no⟩⟩

section Read

variable {tokens : List Token} (placed : ∀ t ∈ tokens, t.stop = t.pos.add t.text)
  (lexical : LexicalTokens tokens) {lo hi : Nat} (row : Ordered lo (placesOf tokens) hi)

/-- Nodes that stand where some of the tokens do have no bodies. -/
theorem Seats.furnished {ts : List Token} {vs : List Node} (seats : Seats tokens ts vs)
    (row : Ordered lo (placesOf tokens) hi) (inside : ts <:+: tokens) :
    ∀ v ∈ vs, v.Throughout Node.Furnished := by
  intro v member x below
  have seated := (seats lo hi (row.sublist (inside.sublist.flatMap _))).2 v member x below
  have inner := seated.inner
  rw [Form.isInner, Bool.and_eq_true, Bool.not_eq_true'] at inner
  exact Form.furnished_of_not_isBlock inner.1

include placed lexical row

/-- What is read from tokens in which each block opens on code is furnished. -/
theorem Builds.furnished (opens : tokens.IsChain Token.OpensOn)
    (valid : ∀ t ∈ tokens, t.pos.isValid = true) {types : Bool} {ts : List Token} {r : Reading}
    (builds : Builds types ts r) (inside : ts <:+: tokens) : r.Furnished := by
  have line {ts : List Token} {vs : List Node} (line : StmtLine ts vs) (inside : ts <:+: tokens) :
      ∀ v ∈ vs, v.Throughout Node.Furnished :=
    (line.seats placed lexical inside.subset).furnished row inside
  have part {p : Phrase} {ts : List Token} {vs : List Node} (spells : Spells p ts vs)
      (inside : ts <:+: tokens) : ∀ v ∈ vs, v.Throughout Node.Furnished :=
    (spells.seats placed lexical inside.subset).furnished row inside
  have piece {all : List Token} (inside : all <:+: tokens) (front us back : List Token)
      (same : front ++ us ++ back = all) : us <:+: tokens :=
    List.IsInfix.trans ⟨front, back, same⟩ inside
  have noElse : FurnishesElse (.at .nowhere) [] :=
    ⟨iff_of_false (by decide) fun some' => some' rfl, fun some' => absurd rfl some'⟩
  induction builds with
  | lineSuite first => exact ⟨first.hasStatement, line first inside⟩
  | @blockSuite a b hs ls ts header leading entries _ above opening body closing ih =>
      have lines := ih (piece inside (hs ++ ls ++ [a]) ts [b] (by simp))
      have chain := opens.infix (piece inside (hs ++ ls) (a :: (ts ++ [b])) [] (by simp))
      have held : entries.flatMap Entry.forms ≠ [] := by
        have code := (List.isChain_cons.mp chain).1
        cases ts with
        | nil =>
            have inline := code b rfl opening
            rw [closing] at inline
            cases inline
        | cons t ts => exact body.forms_ne_nil rfl (code t rfl opening)
      have forms : formsOf ((Block.ofEntries leading).precede (Block.ofEntries entries).nodes) =
          entries.flatMap Entry.forms := by
        rw [Block.formsOf_precede, Block.formsOf_ofEntries, Block.formsOf_ofEntries, above.forms_eq,
          List.nil_append]
      refine ⟨hasStatement_iff.mpr ?_, forall_furnished_iff.mpr ?_⟩
      · rwa [forms]
      · rwa [forms]
  | @define a t b c d ps ts params s _ _ _ parts _ _ _ ih =>
      obtain ⟨held, lines⟩ := ih (piece inside (a :: t :: b :: (ps ++ [c, d])) ts [] (by simp))
      have names := part parts (piece inside [a, t, b] ps (c :: d :: ts) (by simp))
      exact Node.throughout_iff.mpr ⟨held, List.forall_mem_append.mpr ⟨names, lines⟩⟩
  | @loop a b c vs xs ts vars x s _ bound _ range _ _ ih =>
      obtain ⟨held, lines⟩ := ih (piece inside (a :: (vs ++ b :: (xs ++ [c]))) ts [] (by simp))
      have targets := part bound (piece inside [a] vs (b :: (xs ++ c :: ts)) (by simp))
      have source := part range (piece inside (a :: (vs ++ [b])) xs (c :: ts) (by simp))
      refine Node.throughout_iff.mpr ⟨held, ?_⟩
      exact List.forall_mem_append.mpr ⟨targets, List.forall_mem_append.mpr ⟨source, lines⟩⟩
  | @choice a b cs ts us cond s arms _ test _ _ _ body more =>
      obtain ⟨held, yes⟩ := body (piece inside (a :: (cs ++ [b])) ts us (by simp))
      have others := more (piece inside (a :: (cs ++ b :: ts)) us [] (by simp))
      have cond := part test (piece inside [a] cs (b :: (ts ++ us)) (by simp))
      obtain ⟨rest, no⟩ := Reader.furnished_nested noElse (List.forall_mem_nil _) others
      refine Node.throughout_iff.mpr ⟨⟨held, rest⟩, ?_⟩
      exact List.forall_mem_append.mpr ⟨cond, List.forall_mem_append.mpr ⟨yes, no⟩⟩
  | @choiceElse a b e c cs ts us vs cond s s' arms _ test _ _ _ _ _ _ body more last =>
      obtain ⟨held, yes⟩ := body (piece inside (a :: (cs ++ [b])) ts (us ++ e :: c :: vs) (by simp))
      have others := more (piece inside (a :: (cs ++ b :: ts)) us (e :: c :: vs) (by simp))
      obtain ⟨held', lines⟩ :=
        last (piece inside (a :: (cs ++ b :: (ts ++ us ++ [e, c]))) vs [] (by simp))
      have cond := part test (piece inside [a] cs (b :: (ts ++ us ++ e :: c :: vs)) (by simp))
      have else' : FurnishesElse ⟨e.pos, .ofSuffix s'.header⟩ s'.body :=
        ⟨iff_of_true (valid e (inside.subset (by simp))) held'.ne_nil, fun _ => held'⟩
      obtain ⟨rest, no⟩ := Reader.furnished_nested else' lines others
      refine Node.throughout_iff.mpr ⟨⟨held, rest⟩, ?_⟩
      exact List.forall_mem_append.mpr ⟨cond, List.forall_mem_append.mpr ⟨yes, no⟩⟩
  | noArm => exact nofun
  | @arm a b cs ts us cond s arms _ test _ _ _ body more =>
      obtain ⟨held, yes⟩ := body (piece inside (a :: (cs ++ [b])) ts us (by simp))
      have others := more (piece inside (a :: (cs ++ b :: ts)) us [] (by simp))
      have cond := part test (piece inside [a] cs (b :: (ts ++ us)) (by simp))
      refine List.forall_mem_cons.mpr
        ⟨⟨valid a (inside.subset List.mem_cons_self), ?_, held, yes⟩, others⟩
      exact cond _ (List.mem_singleton_self _)
  | noLine => exact nofun
  | @blank t ts entries _ _ ih => exact ih (piece inside [t] ts [] (by simp))
  | @remark c t ts entries _ _ _ ih => exact ih (piece inside [c, t] ts [] (by simp))
  | @compound ts us stmt entries _ _ first more =>
      have whole := Node.throughout_furnished_iff.mp (first (piece inside [] ts us (by simp)))
      have others := more (piece inside ts us [] (by simp))
      show ∀ f ∈ List.flatMap _ (_ :: _), _
      rw [List.flatMap_cons, Reader.forms_blockGroup]
      refine List.forall_mem_append.mpr ⟨forall_furnished_iff.mp ?_, others⟩
      refine List.forall_mem_singleton.mpr (Node.throughout_furnished_iff.mpr ?_)
      exact whole.trimmed stmt.1.splitTrailing_trimmed.1
  | @stmts ts us vs entries first _ ih =>
      have stmts := line first (piece inside [] ts us (by simp))
      have others := ih (piece inside ts us [] (by simp))
      exact List.forall_mem_append.mpr ⟨forall_furnished_iff.mp stmts, others⟩

end Read

/-! ## Files -/

theorem HasStatement.iff_plainList {body : List Node} :
    HasStatement (plainList body) ↔ HasStatement body := by
  have kept (v : Node) : v.plain.isCommentBlock = v.isCommentBlock := by
    obtain ⟨c, f⟩ := v
    cases f <;> rfl
  simp [HasStatement, plainList_eq_map, kept]

theorem Form.furnished_plain {f : Form} : f.plain.Furnished ↔ f.Furnished := by
  cases f with
  | defStmt | forStmt => exact HasStatement.iff_plainList
  | ifStmt p cond yesBody e noBody =>
      refine and_congr HasStatement.iff_plainList ?_
      have some' : plainList noBody ≠ [] ↔ noBody ≠ [] := not_congr plainList_eq_nil
      constructor
      · rintro ⟨valid, statement⟩
        exact ⟨valid.trans some', fun held =>
          HasStatement.iff_plainList.mp (statement (some'.mpr held))⟩
      · rintro ⟨valid, statement⟩
        exact ⟨valid.trans some'.symm, fun held =>
          HasStatement.iff_plainList.mpr (statement (some'.mp held))⟩
  | _ => exact Iff.rfl

theorem Node.furnished_stable : Stable Furnished := by
  rintro ⟨_, f⟩ ⟨_, g⟩ same _ furnished
  have forms : f.plain = g.plain := by simpa [Node.plain] using same
  exact Form.furnished_plain.mp (forms ▸ Form.furnished_plain.mpr furnished)

/-- A file in which every node stands where the grammar has a place for it. -/
structure File.WellFormed (types : Bool) (f : File) : Prop where
  /-- Statements are lines, and the nodes below them play the parts that their places ask for. -/
  shaped : PlayAll (.line types) f.statements
  /-- Bodies hold statements. -/
  furnished : ∀ x ∈ f.walk, x.node.Furnished
  /-- Comment blocks hold comments. -/
  remarked : ∀ x ∈ f.walk, x.node.isCommentBlock = true → x.node.comments.after ≠ []

theorem File.shaped_of_ofStream {path : String} {options : Options}
    {stream : TokenStream} {f : File}
    (lexical : LexicalTokens stream.tokens) (read : File.ofStream path options stream = .ok f) :
    PlayAll (.line options.types) f.statements := by
  obtain ⟨used, rest, entries, tokens, lines, attached⟩ := File.attached_of_ofStream read
  rw [tokens, lexicalTokens_append] at lexical
  have forms : ∀ g ∈ entries.flatMap Entry.forms, g.IsLine options.types := lines.plays lexical.1
  have built : PlayAll (.line options.types) (Block.ofEntries entries).nodes := by
    rw [playAll_line_iff, Block.formsOf_ofEntries]
    exact forms
  rw [attached, ← playAll_plain, plainList_eq_map, plain_attach, ← plainList_eq_map, playAll_plain]
  exact built

theorem File.furnished_of_ofStream {path : String} {options : Options} {stream : TokenStream}
    {f : File} (row : Token.Row stream.tokens) (lexical : LexicalTokens stream.tokens)
    (opens : stream.tokens.IsChain Token.OpensOn)
    (valid : ∀ t ∈ stream.tokens, t.pos.isValid = true)
    (read : File.ofStream path options stream = .ok f) :
    ∀ v ∈ f.statements, v.Throughout Node.Furnished := by
  obtain ⟨used, rest, entries, tokens, lines, attached⟩ := File.attached_of_ofStream read
  obtain ⟨hi, places⟩ := row.ordered_placesOf
  have each : ∀ g ∈ entries.flatMap Entry.forms, g.AllFurnished :=
    lines.furnished row.stops lexical places opens valid ⟨[], rest, tokens.symm⟩
  rw [attached]
  refine throughout_attach Node.furnished_stable (forall_furnished_iff.mpr ?_) _ _
  rwa [Block.formsOf_ofEntries]

/-- The files of sources without joined lines are well formed. -/
theorem File.wellFormed_of_ofChars {path : String} {options : Options} {source : List Char}
    {ls : List Lexeme} {f : File} (scanned : Lexeme.scan source = .ok ls)
    (straight : Lexeme.Straight 0 source ls) (read : File.ofChars path options source = .ok f) :
    f.WellFormed options.types := by
  have scans := Lexeme.scans_of_scanFrom scanned
  have stream : TokenStream.ofChars source = .ok (.ofLexemes ls) :=
    Outcome.map_eq_ok.mpr ⟨ls, scanned, rfl⟩
  have built : File.ofStream path options (.ofLexemes ls) = .ok f := by
    rw [File.ofChars, stream] at read
    exact read
  have lexical := TokenStream.lexical stream
  have valid : ∀ t ∈ (TokenStream.ofLexemes ls).tokens, t.pos.isValid = true := fun t member =>
    decide_eq_true (scans.line_le (Lexeme.mem_tokens.mp member))
  have furnished := File.furnished_of_ofStream (TokenStream.row stream) lexical
    (scans.opens straight) valid built
  have placed := (File.placed_of_ofStream stream built).2
  refine ⟨File.shaped_of_ofStream lexical built, fun x member => ?_, fun x member block => ?_⟩
  · obtain ⟨v, inside, below⟩ := List.mem_flatMap.mp member
    exact furnished v inside x below
  · obtain ⟨v, inside, below⟩ := List.mem_flatMap.mp member
    obtain ⟨c, rest, comments, _⟩ := (placed v inside x below).wellSpanned.anchor block
    rw [comments]
    exact List.cons_ne_nil c rest

/-- A function with a type and a lone star, comments above a statement and behind a body, and two
branches. -/
theorem File.wellFormed_of_definition :
    ∃ ls f,
      Lexeme.scan
        "def f(a: t, *):\n  # c\n  {x: a for x in b}\n # d\nif a: b\nelse: c\n".toList = .ok ls ∧
      Lexeme.Straight 0
        "def f(a: t, *):\n  # c\n  {x: a for x in b}\n # d\nif a: b\nelse: c\n".toList ls ∧
      File.ofChars "a.bzl" ⟨.bzl, true⟩
        "def f(a: t, *):\n  # c\n  {x: a for x in b}\n # d\nif a: b\nelse: c\n".toList = .ok f ∧
      f.WellFormed true := by
  obtain ⟨ls, scanned⟩ : ∃ ls, Lexeme.scan
      "def f(a: t, *):\n  # c\n  {x: a for x in b}\n # d\nif a: b\nelse: c\n".toList = .ok ls :=
    Outcome.exists_eq_ok (by cbv)
  obtain ⟨f, read⟩ : ∃ f, File.ofChars "a.bzl" ⟨.bzl, true⟩
      "def f(a: t, *):\n  # c\n  {x: a for x in b}\n # d\nif a: b\nelse: c\n".toList = .ok f :=
    Outcome.exists_eq_ok (by cbv)
  have straight : Lexeme.Straight 0
      "def f(a: t, *):\n  # c\n  {x: a for x in b}\n # d\nif a: b\nelse: c\n".toList ls :=
    fun before after same =>
      absurd (same ▸ List.mem_append_right before List.mem_cons_self) (by decide)
  exact ⟨ls, f, scanned, straight, read, File.wellFormed_of_ofChars scanned straight read⟩

end Starlark
