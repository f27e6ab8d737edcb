import Starlark.Proofs.Hushed
import Starlark.Proofs.Lines.Node
import Starlark.Proofs.Throughout.Statement
import Starlark.Proofs.WellFormed

/-!
# The lines of sources

Files that are read from a source are neat throughout, as long as no string of
the source has a line end in it and every comment has a line or a header to
itself (`Node.neat_of_fit`). So their text is clean, however the statements are
spaced (`File.clean_formatWith`).

What a node writes comes from the tokens that spell it. Expressions and small
statements are read without comments, so a tuple without brackets finds none in
its way (`Spells.tame`). The rest is what the shape of statements and the bodies
of well-formed trees say.
-/

set_option autoImplicit false

namespace Starlark

/-! ## Strings -/

namespace Quoted

/-- Escaping a character makes no line end. -/
theorem newline_of_mem_encodeChar {triple : Bool} {c : Char} (line : '\n' ∈ encodeChar triple c) :
    c = '\n' := by
  rcases encodeChar_cases triple c with ⟨same, _⟩ | ⟨d, same, _, other⟩ | ⟨same, small⟩
  · rw [same] at line
    exact (List.mem_singleton.mp line).symm
  · rw [same] at line
    simp [other.symm] at line
  · rw [same] at line
    have digit := (List.mem_cons.mp line).resolve_left (by decide)
    have octal := octalDigits_isOctal (n := c.toNat) (by omega) _ digit
    cases octal

/-- A spelling has a line end only where the value has one. -/
theorem Spells.newline {triple : Bool} {value body : List Char} (spells : Spells triple value body)
    (line : '\n' ∈ body) : '\n' ∈ value := by
  induction spells with
  | nil => exact line
  | @char c _ _ _ _ ih =>
      rcases List.mem_append.mp line with here | later
      · exact List.mem_cons.mpr (.inl (newline_of_mem_encodeChar here).symm)
      · exact List.mem_cons_of_mem c (ih later)
  | escaped _ ih | quote _ _ _ ih | quotes _ _ _ ih => simp_all

theorem newline_of_mem_encodeChars {triple : Bool} {value : List Char}
    (line : '\n' ∈ encodeChars value triple) : '\n' ∈ value := by
  have quotes : '\n' ∉ delimiter triple := by cases triple <;> decide
  simp only [encodeChars, List.mem_append, quotes, false_or, or_false] at line
  exact (spells_encodeBody triple value).newline line

end Quoted

/-- A literal is written on one line when neither its token nor its value has a line end. -/
theorem StringLit.oneLine_spelling {lit : StringLit} (lexical : lit.Lexical)
    (token : '\n' ∉ lit.token.toList) (value : '\n' ∉ lit.value.toList) :
    OneLine lit.spelling := by
  refine ⟨(lit.spelling_sound lexical).1.firm, ?_⟩
  unfold spelling
  split
  · exact token
  · exact fun line => value (Quoted.newline_of_mem_encodeChars line)

/-! ## Comments -/

namespace Text

theorem mem_dropWhile {text : List Char} {c : Char} (member : c ∈ text) (seen : isBlank c = false) :
    c ∈ text.dropWhile isBlank := by
  rw [← List.takeWhile_append_dropWhile (p := isBlank) (l := text)] at member
  refine (List.mem_append.mp member).resolve_left fun blank => ?_
  rw [List.mem_takeWhile_imp blank] at seen
  cases seen

/-- A line with something to see on it is on one line when it has been trimmed. -/
theorem oneLine_trim {text : List Char} {c : Char} (member : c ∈ text) (seen : isBlank c = false)
    (line : '\n' ∉ text) : OneLine (trim text) := by
  have inside := mem_dropWhile (List.mem_reverse.mpr (mem_dropWhile member seen)) seen
  obtain ⟨d, rest, same⟩ := List.exists_cons_of_ne_nil (List.ne_nil_of_mem inside)
  have last : isBlank d = false := by
    have head := List.head_dropWhile_not isBlank (List.ne_nil_of_mem inside)
    simpa [same] using head
  have trimmed : trim text = rest.reverse ++ [d] := by rw [trim, trimEnd, same, List.reverse_cons]
  refine ⟨⟨rest.reverse, d, trimmed, ?_, ?_⟩, fun here => line ?_⟩
  · rintro rfl
    cases last
  · rintro rfl
    cases last
  · rw [trim, trimEnd, List.mem_reverse] at here
    exact (List.dropWhile_sublist isBlank).subset
      (List.mem_reverse.mp ((List.dropWhile_sublist isBlank).subset here))

end Text

namespace Lexeme

/-- Only a comment is a token of that kind. -/
theorem Margin.lexeme?_eq_comment {m : Margin} {piece : Piece} {text rest : List Char} {t : Token}
    (found : m.lexeme? piece text rest = some (.token t)) (kind : t.kind = .comment) :
    piece = .comment ∧ t.text = String.ofList (Text.trimEnd text) := by
  cases piece with
  | newline =>
      simp only [lexeme?] at found
      split at found <;> cases found
      cases kind
  | comment =>
      simp only [lexeme?] at found
      (repeat' split at found) <;> cases found
      exact ⟨rfl, rfl⟩
  | continuation => cases found
  | string | number =>
      cases found
      cases kind
  | word =>
      cases found
      simp only [Token.mkAt, wordKind] at kind
      (repeat' split at kind) <;> cases kind
  | operator =>
      cases found
      rcases operatorKind_cases text with same | ⟨sign, same⟩ <;>
        simp [Token.mkAt, same] at kind

/-- The comments that a source has as tokens are printed on one line. -/
theorem Scans.oneLine_comment {m : Margin} {source : List Char} {ls : List Lexeme}
    (scans : Scans m source ls) {t : Token} (member : Lexeme.token t ∈ ls)
    (kind : t.kind = .comment) : t.comment.OneLine := by
  rcases scans.mem member with ⟨m, layout, same, -, other⟩ | ⟨m, piece, c, text, rest, cut, found⟩
  · cases same
    exact absurd kind other
  · obtain ⟨rfl, same⟩ := m.lexeme?_eq_comment found kind
    have line := newline_not_mem_of_comment cut
    obtain ⟨rfl, _⟩ := pieceAt_eq_comment cut
    have shown : t.comment.text.toList = Text.trimEnd ('#' :: text) := by
      rw [Token.comment, same, String.toList_ofList]
    rw [Comment.OneLine, Mark.remarkText, shown]
    refine Text.oneLine_trim (c := '#') ?_ rfl fun here => line ?_
    · exact List.mem_reverse.mpr (Text.mem_dropWhile (by simp) rfl)
    · exact List.mem_reverse.mp ((List.dropWhile_sublist _).subset (List.mem_reverse.mp here))

end Lexeme

/-! ## Tokens -/

/-- A token on one line. Where it is a string, so are the literal that it is and its value as a
literal of its own. -/
structure Token.Flat (t : Token) : Prop where
  text : OneLine t.text.toList
  literal : t.kind = .string → ∀ lit, StringLit.ofToken t = .ok lit →
    OneLine lit.spelling ∧ OneLine (StringLit.ofValue lit.value).spelling

/-- A string without a line end in its token and in its value. -/
def Token.IsUnbroken (t : Token) : Prop :=
  '\n' ∉ t.text.toList ∧ ∀ lit, StringLit.ofToken t = .ok lit → '\n' ∉ lit.value.toList

theorem StringLit.token_ofToken {t : Token} {lit : StringLit} (value : ofToken t = .ok lit) :
    lit.token = t.text := by
  unfold ofToken at value
  split at value
  · cases value
    rfl
  · cases value

/-- Sound tokens are on one line, strings being told apart. -/
theorem Token.flat_of_sound {t : Token} (sound : t.word.Sound)
    (unbroken : t.kind = .string → t.IsUnbroken) : t.Flat where
  text := by
    by_cases kind : t.kind = .string
    · exact ⟨sound.firm, (unbroken kind).1⟩
    · refine sound.oneLine fun string => kind ?_
      unfold word Word.piece at string
      split at string <;> first | assumption | cases string
  literal kind lit value := by
    obtain ⟨token, values⟩ := unbroken kind
    have free := values lit value
    refine ⟨lit.oneLine_spelling (lit.lexical_ofToken sound kind value) ?_ free,
      StringLit.oneLine_spelling nofun nofun free⟩
    rwa [StringLit.token_ofToken value]

/-! ## Expressions and small statements -/

/-- A form as expressions and small statements are read. -/
structure Form.Tame (f : Form) : Prop where
  texts : ∀ text ∈ f.texts, OneLine text
  bare : f.FitsBare
  inner : ∀ c ∈ f.children, c.form.isInner = true

/-- A node without comments whose form is tame throughout. -/
structure Node.Tame (v : Node) : Prop where
  comments : v.comments = .none
  inner : v.form.isInner = true
  all : v.Throughout fun u => u.form.Tame

theorem Node.tame_bare {f : Form} (inner : f.isInner = true)
    (texts : ∀ text ∈ f.texts, OneLine text) (bare : f.FitsBare)
    (parts : ∀ c ∈ f.children, c.Tame) : (Node.bare f).Tame where
  comments := rfl
  inner := inner
  all := throughout_iff.mpr
    ⟨⟨texts, bare, fun c member => (parts c member).inner⟩, fun c member => (parts c member).all⟩

theorem Node.tame_joined {assigns : Bool} {x y : Node} {pos : Position} {op : String}
    (left : x.Tame) (line : OneLine op.toList) (right : y.Tame) :
    (Node.joined assigns x pos op y).Tame :=
  tame_bare rfl (List.forall_mem_singleton.mpr line) trivial (by simp [Form.children, left, right])

theorem Node.tame_ofName {t : Token} (flat : t.Flat) : (Node.ofName t).Tame :=
  tame_bare rfl (List.forall_mem_singleton.mpr flat.text) trivial nofun

theorem Node.tame_bareTuple {v : Node} {vs : List Node} (parts : ∀ c ∈ v :: vs, c.Tame) :
    (Node.bareTuple (v :: vs)).Tame := by
  refine tame_bare rfl nofun ⟨List.cons_ne_nil v vs, rfl, fun c member => ?_⟩ parts
  rw [(parts c member).comments]
  rfl

/-- String tokens on one line are read as literals that are printed on one. -/
theorem StringLit.oneLine_mapM {ts : List Token} {lits : List StringLit}
    (flat : ∀ t ∈ ts, t.Flat) (kinds : ∀ t ∈ ts, t.kind = .string)
    (values : ts.mapM ofToken = .ok lits) : ∀ lit ∈ lits, OneLine lit.spelling := by
  induction ts generalizing lits with
  | nil =>
      cases values
      simp
  | cons t ts ih =>
      obtain ⟨lit, more, value, others, rfl⟩ := Outcome.mapM_cons_eq_ok.mp values
      obtain ⟨kind, kinds⟩ := List.forall_mem_cons.mp kinds
      obtain ⟨here, later⟩ := List.forall_mem_cons.mp flat
      exact List.forall_mem_cons.mpr ⟨(here.literal kind lit value).1, ih later kinds others⟩

theorem Node.tame_string {lit : StringLit} (line : OneLine lit.spelling) :
    (Node.bare (.string lit)).Tame :=
  tame_bare rfl (List.forall_mem_singleton.mpr line) trivial nofun

theorem Node.tame_ofStrings {first : StringLit} {rest : List StringLit}
    (lines : ∀ lit ∈ first :: rest, OneLine lit.spelling) : (Node.ofStrings first rest).Tame := by
  obtain ⟨line, others⟩ := List.forall_mem_cons.mp lines
  have plus : OneLine "+".toList := ⟨⟨[], '+', rfl, by decide, by decide⟩, by decide⟩
  refine List.foldlRecOn rest (motive := Node.Tame) _ (tame_string line) fun x tame lit member => ?_
  exact tame_joined tame plus (tame_string (others lit member))

/-- The text of an operator. -/
theorem OperatorTokens.oneLine {layer : Nat} {next : Token.Kind} {ts : List Token} {pos : Position}
    {op : String} (operator : OperatorTokens layer next ts pos op) (flat : ∀ t ∈ ts, t.Flat) :
    OneLine op.toList := by
  cases operator with
  | single => exact (flat _ (List.mem_singleton_self _)).text
  | notIn => exact ⟨⟨"not i".toList, 'n', rfl, by decide, by decide⟩, by decide⟩
  | isNot => exact ⟨⟨"is no".toList, 't', rfl, by decide, by decide⟩, by decide⟩

/-- Expressions are tame. -/
theorem Spells.tame {p : Phrase} {ts : List Token} {vs : List Node} (spells : Spells p ts vs)
    (flat : ∀ t ∈ ts, t.Flat) : ∀ v ∈ vs, v.Tame := by
  induction spells with
  | strings kinds literals =>
      exact List.forall_mem_singleton.mpr
        (Node.tame_ofStrings (StringLit.oneLine_mapM flat kinds literals))
  | atom _ ih | positional _ ih | operand _ ih | tighter _ ih | disjunction _ ih | single _ ih
  | target _ ih | lastParam _ ih | present _ ih => exact ih flat
  | noClause | noParam | noMore | noItem | missing | lastComma => simp
  | moreParams _ _ _ first more | oneMore _ _ _ first more | someItems _ _ first more =>
      simp only [List.forall_mem_append, List.forall_mem_cons] at flat
      simp_all
  | several _ _ _ first more | severalTargets _ _ _ first more =>
      simp only [List.forall_mem_append] at flat
      refine List.forall_mem_singleton.mpr (Node.tame_bareTuple ?_)
      exact List.forall_mem_cons.mpr ⟨first flat.1 _ (.head _), more flat.2⟩
  | binary _ operator _ left right =>
      simp only [List.forall_mem_append] at flat
      exact List.forall_mem_singleton.mpr (Node.tame_joined (left flat.1.1 _ (.head _))
        (operator.oneLine flat.1.2) (right flat.2 _ (.head _)))
  | forClause _ _ _ _ _ bound range more =>
      simp only [List.forall_mem_append, List.forall_mem_cons] at flat
      refine List.forall_mem_cons.mpr ⟨Node.tame_bare rfl (List.forall_mem_nil _) trivial ?_,
        more flat.2.2.2.2⟩
      simpa [Form.children] using ⟨bound flat.2.1 _ (.head _), range flat.2.2.2.1 _ (.head _)⟩
  | ifClause _ _ _ cond more =>
      simp only [List.forall_mem_append, List.forall_mem_cons] at flat
      refine List.forall_mem_cons.mpr ⟨Node.tame_bare rfl (List.forall_mem_nil _) trivial ?_,
        more flat.2.2⟩
      simpa [Form.children] using cond flat.2.1 _ (.head _)
  | slice _ _ _ _ _ _ inner start stop =>
      simp only [List.forall_mem_append, List.forall_mem_cons] at flat
      refine List.forall_mem_singleton.mpr (Node.tame_bare rfl (List.forall_mem_nil _) trivial ?_)
      intro v member
      simp only [Form.children, List.mem_cons, List.mem_append, Option.mem_toList,
        Option.toList_none, List.not_mem_nil, or_false] at member
      obtain rfl | member | member := member
      · exact inner flat.1 _ (.head _)
      · exact start flat.2.2.1 v (List.mem_of_mem_head? member)
      · exact stop flat.2.2.2.2.1 v (List.mem_of_mem_head? member)
  | stepSlice _ _ _ _ _ _ _ _ inner start stop stride =>
      simp only [List.forall_mem_append, List.forall_mem_cons] at flat
      refine List.forall_mem_singleton.mpr (Node.tame_bare rfl (List.forall_mem_nil _) trivial ?_)
      intro v member
      simp only [Form.children, List.mem_cons, List.mem_append, Option.mem_toList] at member
      obtain rfl | (member | member) | member := member
      · exact inner flat.1 _ (.head _)
      · exact start flat.2.2.1 v (List.mem_of_mem_head? member)
      · exact stop flat.2.2.2.2.1 v (List.mem_of_mem_head? member)
      · exact stride flat.2.2.2.2.2.2.1 v (List.mem_of_mem_head? member)
  | typedDefaultParam _ _ _ _ _ type value =>
      simp only [List.forall_mem_append, List.forall_mem_cons] at flat
      have typed := type flat.2.2.1 _ (.head _)
      refine List.forall_mem_singleton.mpr (Node.tame_joined ?_ flat.2.2.2.1.text
        (value flat.2.2.2.2 _ (.head _)))
      exact Node.tame_bare rfl (List.forall_mem_singleton.mpr flat.1.text) trivial
        (List.forall_mem_singleton.mpr typed)
  | lambda _ _ _ _ parts body =>
      simp only [List.forall_mem_append, List.forall_mem_cons] at flat
      refine List.forall_mem_singleton.mpr (Node.tame_bare rfl (List.forall_mem_nil _) trivial ?_)
      exact List.forall_mem_append.mpr ⟨parts flat.2.1, body flat.2.2.2⟩
  | _ =>
      simp only [List.forall_mem_append, List.forall_mem_cons, List.not_mem_nil, false_implies,
        implies_true, and_true] at *
      exact Node.tame_bare rfl (by simp_all [Form.texts, Token.Flat.text]) trivial
        (by simp_all [Form.children, Node.tame_ofName])

/-- A symbol of a `load` is printed on one line if its tokens are on one. -/
theorem BindingTokens.oneLine {ts : List Token} {b : Binding} (tokens : BindingTokens ts b)
    (flat : ∀ t ∈ ts, t.Flat) : ∀ text ∈ b.spellings, OneLine text := by
  have written {t : Token} {x : Name} (kind : t.kind = .string) (value : Reader.symbolOf t = .ok x)
      (here : t.Flat) : OneLine (StringLit.ofValue x.text).spelling := by
    obtain ⟨lit, read, same⟩ := Outcome.bind_eq_ok.mp value
    cases same
    exact (here.literal kind lit read).2
  cases tokens with
  | symbol kind value =>
      rw [Binding.spellings, if_pos rfl]
      exact List.forall_mem_singleton.mpr (written kind value (flat _ (by simp)))
  | renamed _ _ kind value =>
      refine List.forall_mem_cons.mpr ⟨written kind value (flat _ (by simp)), ?_⟩
      split
      · nofun
      · exact List.forall_mem_singleton.mpr (flat _ (by simp)).text

theorem Reader.Listed.oneLine {ts : List Token} {bindings : List Binding}
    (listed : Reader.Listed BindingTokens ts bindings) (flat : ∀ t ∈ ts, t.Flat) :
    ∀ text ∈ bindings.flatMap Binding.spellings, OneLine text := by
  induction listed with
  | none | comma => nofun
  | item _ first _ ih =>
      simp only [List.forall_mem_cons, List.forall_mem_append] at flat
      exact List.forall_mem_append.mpr ⟨first.oneLine flat.2.1, ih flat.2.2⟩

/-- Small statements of tokens on one line each are tame. -/
theorem SmallStmt.tame {ts : List Token} {v : Node} (stmt : SmallStmt ts v)
    (flat : ∀ t ∈ ts, t.Flat) : v.Tame := by
  cases stmt with
  | returnNothing => exact Node.tame_bare rfl nofun trivial nofun
  | returnValue _ value =>
      rw [List.forall_mem_cons] at flat
      refine Node.tame_bare rfl nofun trivial (List.forall_mem_singleton.mpr ?_)
      exact value.tame flat.2 _ (.head _)
  | branch =>
      exact Node.tame_bare rfl (List.forall_mem_singleton.mpr (flat _ (by simp)).text) trivial nofun
  | load _ _ kind value symbols _ =>
      simp only [List.forall_mem_cons, List.forall_mem_append] at flat
      refine Node.tame_bare rfl (List.forall_mem_cons.mpr ⟨?_, symbols.oneLine flat.2.2.2.1⟩)
        trivial nofun
      exact (flat.2.2.1.literal kind _ value).1
  | assign left _ right =>
      simp only [List.forall_mem_cons, List.forall_mem_append] at flat
      exact Node.tame_joined (left.tame flat.1 _ (.head _)) flat.2.1.text
        (right.tame flat.2.2 _ (.head _))
  | value plain => exact plain.tame flat _ (.head _)

/-! ## Statements with a body -/

/-- What is said of forms that are neither statements with a body nor comment blocks holds of
these in any case. -/
theorem holdsOfBlocks_tame : HoldsOfBlocks fun f => f.isInner = true → f.Tame := by
  intro f block inner
  rw [Form.isInner] at inner
  cases isBlock : f.isBlock <;> simp_all

theorem holdsOfParts_tame : HoldsOfPartsOf (fun t => t.kind.isInline = true → t.Flat)
    fun f => f.isInner = true → f.Tame where
  phrase spells flat v member x below _ :=
    (spells.tame (fun t inside => flat t inside (spells.inline t inside)) v member).all x below
  small stmt flat x below _ :=
    (stmt.tame fun t inside => flat t inside (stmt.inline t inside)).all x below

/-- Only statements can be blocks and comment blocks. -/
theorem Node.Plays.isInner {r : Role} {v : Node} (plays : v.Plays r)
    (other : ∀ types, r ≠ .line types) : v.form.isInner = true := by
  obtain ⟨c, f⟩ := v
  cases f with
  | defStmt | forStmt | ifStmt | commentBlock =>
      cases r with
      | line types => exact absurd rfl (other types)
      | _ => exact False.elim plays
  | _ => rfl

theorem Node.isCommentBlock_of_isInner {v : Node} (inner : v.form.isInner = true) :
    v.isCommentBlock = false := by
  rw [Form.isInner, Bool.and_eq_true, Bool.not_eq_true', Bool.not_eq_true'] at inner
  exact inner.2

/-- What is known of a node that is read, its shape left out. -/
structure Node.Fit (v : Node) : Prop where
  remarks : ∀ c ∈ v.comments.toList ++ v.form.held, c.OneLine
  tame : v.form.isInner = true → v.form.Tame
  furnished : v.Furnished
  block : v.isCommentBlock = true → v.comments.after ≠ []

/-- The same, said of the comments of the whole tree. -/
theorem Node.throughout_remarks {p : Comment → Prop} {v : Node} (all : ∀ c ∈ v.remarks, p c) :
    v.Throughout fun u => ∀ c ∈ u.comments.toList ++ u.form.held, p c := by
  induction v using inductionOnChildren with
  | step v ih =>
      obtain ⟨comments, f⟩ := v
      rw [remarks_mk, Form.remarks, ← List.append_assoc, List.forall_mem_append] at all
      refine throughout_iff.mpr ⟨all.1, fun c member => ih c member fun d inside => ?_⟩
      exact all.2 d (List.mem_flatMap_of_mem member inside)

namespace Node.Fit

variable {v : Node} {types : Bool}

/-- What is known of an expression makes it neat, whatever its shape. -/
theorem neat_of_isInner (fit : v.Fit) (inner : v.form.isInner = true) : v.Neat where
  remarks := fit.remarks
  texts := (fit.tame inner).texts
  bare := (fit.tame inner).bare
  parts c member :=
    isCommentBlock_of_isInner ((fit.tame inner).inner c (v.form.parts_subset member))
  bodies := by
    obtain ⟨comments, f⟩ := v
    cases f with
    | defStmt | forStmt | ifStmt => cases inner
    | _ => exact List.forall_mem_nil _
  block := fit.block

/-- A statement with a body has expressions and parameters in its header and statements in its
body. -/
theorem neat_of_plays (fit : v.Fit) (plays : v.Plays (.line types))
    (other : v.form.isInner = false) :
    v.Neat ∧ ∀ c ∈ v.children, c.form.isInner = true ∨ c.Plays (.line types) := by
  obtain ⟨comments, f⟩ := v
  have neat (texts : ∀ text ∈ f.texts, OneLine text) (bare : f.FitsBare)
      (parts : ∀ c ∈ f.parts, c.form.isInner = true) (bodies : ∀ body ∈ f.mainBodies, body ≠ []) :
      (Node.mk comments f).Neat :=
    ⟨fit.remarks, texts, bare, fun c member => isCommentBlock_of_isInner (parts c member), bodies,
      fit.block⟩
  have furnished : f.Furnished := fit.furnished
  have header {r : Role} {vs : List Node} (all : PlayAll r vs) (other : ∀ types, r ≠ .line types) :
      ∀ c ∈ vs, c.form.isInner = true := fun c member =>
    (playAll_iff.mp all c member).isInner other
  have body {vs : List Node} (all : PlayAll (.line types) vs) :
      ∀ c ∈ vs, c.form.isInner = true ∨ c.Plays (.line types) := fun c member =>
    .inr (playAll_iff.mp all c member)
  cases f with
  | commentBlock => exact ⟨neat nofun trivial nofun nofun, nofun⟩
  | defStmt =>
      obtain ⟨name, params, lines⟩ := plays
      have params := header params nofun
      refine ⟨neat (List.forall_mem_singleton.mpr (name.oneLine nofun)) trivial params
        (List.forall_mem_singleton.mpr furnished.ne_nil), ?_⟩
      exact List.forall_mem_append.mpr ⟨fun c member => .inl (params c member), body lines⟩
  | forStmt p vars x vs =>
      obtain ⟨vars', x', lines⟩ := plays
      have parts : ∀ c ∈ [vars, x], c.form.isInner = true :=
        header (r := .expression) ⟨vars', x', trivial⟩ nofun
      refine ⟨neat nofun trivial parts (List.forall_mem_singleton.mpr furnished.ne_nil), ?_⟩
      exact List.forall_mem_append.mpr ⟨fun c member => .inl (parts c member), body lines⟩
  | ifStmt p cond yes e no =>
      obtain ⟨cond', yes', no'⟩ := plays
      have parts : ∀ c ∈ [cond], c.form.isInner = true :=
        header (r := .expression) ⟨cond', trivial⟩ nofun
      refine ⟨neat nofun trivial parts (List.forall_mem_singleton.mpr furnished.1.ne_nil), ?_⟩
      exact List.forall_mem_cons.mpr ⟨.inl (parts cond (List.mem_singleton_self cond)),
        List.forall_mem_append.mpr ⟨body yes', body no'⟩⟩
  | _ => cases other

end Node.Fit

/-- Statements that are fit throughout are neat throughout. -/
theorem Node.neat_of_fit {types : Bool} {v : Node} (fit : v.Throughout Fit)
    (role : v.form.isInner = true ∨ v.Plays (.line types)) : v.Throughout Neat := by
  induction v using inductionOnChildren with
  | step v ih =>
      obtain ⟨own, parts⟩ := throughout_iff.mp fit
      cases inner : v.form.isInner with
      | true =>
          refine throughout_iff.mpr ⟨own.neat_of_isInner inner, fun c member => ?_⟩
          exact ih c member (parts c member) (.inl ((own.tame inner).inner c member))
      | false =>
          have plays := role.resolve_left (by simp [inner])
          obtain ⟨neat, below⟩ := own.neat_of_plays plays inner
          exact throughout_iff.mpr
            ⟨neat, fun c member => ih c member (parts c member) (below c member)⟩

/-! ## Sources -/

namespace File

section Read

variable {path : String} {options : Options} {source : List Char} {ls : List Lexeme} {f : File}
  (scanned : Lexeme.scan source = .ok ls)
  (lines : (TokenStream.ofLexemes ls).lineComments = [])
  (suffixes : (TokenStream.ofLexemes ls).suffixComments = [])
  (unbroken : ∀ t ∈ (TokenStream.ofLexemes ls).tokens, t.kind = .string → t.IsUnbroken)
  (read : File.ofStream path options (.ofLexemes ls) = .ok f)

include scanned lines suffixes read

/-- The comments of a file that is read are on one line each, and none is on the file itself. -/
theorem remarks_of_ofLexemes :
    f.comments = .none ∧ ∀ v ∈ f.statements, ∀ c ∈ v.remarks, c.OneLine := by
  have scans := Lexeme.scans_of_scanFrom scanned
  obtain ⟨vs, statements, rfl⟩ := (ofStream_eq_ok lines suffixes).mp read
  refine ⟨rfl, fun v member c inside => ?_⟩
  have same : (remarksOf vs).Perm (commentsOf (TokenStream.ofLexemes ls).tokens) :=
    perm_of_tally (statements_remarks scans.ordered statements)
  obtain ⟨t, token, kind, rfl⟩ :=
    mem_commentsOf.mp (same.mem_iff.mp (List.mem_flatMap_of_mem member inside))
  exact scans.oneLine_comment (Lexeme.mem_tokens.mp token) kind

include unbroken

/-- The expressions of a file that is read are tame. -/
theorem tame_of_ofLexemes :
    ∀ v ∈ f.statements, v.Throughout fun u => u.form.isInner = true → u.form.Tame := by
  obtain ⟨vs, statements, rfl⟩ := (ofStream_eq_ok lines suffixes).mp read
  obtain ⟨used, rest, entries, tokens, _, builds, rfl⟩ := Reader.statements_eq_ok statements
  refine builds.throughout_nodes holdsOfBlocks_tame holdsOfParts_tame fun t member inline => ?_
  have token : t ∈ (TokenStream.ofLexemes ls).tokens := by
    rw [tokens]
    exact List.mem_append_left rest member
  exact Token.flat_of_sound
    ((Lexeme.scans_of_scanFrom scanned).sound (Lexeme.mem_tokens.mp token) inline)
    (unbroken t token)

end Read

/-- A source is printed as clean lines, however its statements are spaced, when all its comments
are tokens, no line is joined to the next, and no string has a line end in its token or in its
value. -/
theorem clean_formatWith {path : String} {options : Options} {source : List Char}
    {ls : List Lexeme} {f : File} (scanned : Lexeme.scan source = .ok ls)
    (straight : Lexeme.Straight 0 source ls)
    (lines : (TokenStream.ofLexemes ls).lineComments = [])
    (suffixes : (TokenStream.ofLexemes ls).suffixComments = [])
    (unbroken : ∀ t ∈ (TokenStream.ofLexemes ls).tokens, t.kind = .string → t.IsUnbroken)
    (read : File.ofChars path options source = .ok f) (spacing : Spacing) :
    CleanText (f.formatWith spacing).toList := by
  have scans := Lexeme.scans_of_scanFrom scanned
  have stream : TokenStream.ofChars source = .ok (.ofLexemes ls) :=
    Outcome.map_eq_ok.mpr ⟨ls, scanned, rfl⟩
  have built : File.ofStream path options (.ofLexemes ls) = .ok f := by
    rw [File.ofChars, stream] at read
    exact read
  have lexical := TokenStream.lexical stream
  have valid : ∀ t ∈ (TokenStream.ofLexemes ls).tokens, t.pos.isValid = true := fun t member =>
    decide_eq_true (scans.line_le (Lexeme.mem_tokens.mp member))
  have furnished := furnished_of_ofStream (TokenStream.row stream) lexical (scans.opens straight)
    valid built
  have placed := (placed_of_ofStream stream built).2
  have shaped := playAll_iff.mp (shaped_of_ofStream lexical built)
  have tame := tame_of_ofLexemes scanned lines suffixes unbroken built
  obtain ⟨none, remarks⟩ := remarks_of_ofLexemes scanned lines suffixes built
  refine clean_of_neat (fun v member => ?_) (by rw [none]; exact List.forall_mem_nil _) spacing
  refine Node.neat_of_fit (fun x below => ?_) (.inr (shaped v member))
  refine ⟨Node.throughout_remarks (remarks v member) x below, tame v member x below,
    furnished v member x below, fun block => ?_⟩
  obtain ⟨c, rest, comments, _⟩ := (placed v member x below).wellSpanned.anchor block
  rw [comments]
  exact List.cons_ne_nil c rest

/-- A function with comments above it, on its header, in its body and behind it. -/
def commentedFunction : String :=
  "# a\n\n\ndef f(\n  x\n):  # b\n  if x:\n    y = 'c', x\n    # d\n\n  else: pass\n# e\n"

/-- All its comments are tokens, and its string is spelled anew. -/
theorem clean_formatWith_commentedFunction :
    ∃ ls f, Lexeme.scan commentedFunction.toList = .ok ls ∧
      Lexeme.Straight 0 commentedFunction.toList ls ∧
      (TokenStream.ofLexemes ls).lineComments = [] ∧
      (TokenStream.ofLexemes ls).suffixComments = [] ∧
      (∀ t ∈ (TokenStream.ofLexemes ls).tokens, t.kind = .string → t.IsUnbroken) ∧
      File.ofChars "a.bzl" ⟨.bzl, false⟩ commentedFunction.toList = .ok f ∧
      CleanText (f.formatWith .apart).toList ∧ CleanText (f.formatWith .grouped).toList := by
  obtain ⟨ls, scanned⟩ : ∃ ls, Lexeme.scan commentedFunction.toList = .ok ls :=
    Outcome.exists_eq_ok (by cbv)
  obtain ⟨f, read⟩ : ∃ f, File.ofChars "a.bzl" ⟨.bzl, false⟩ commentedFunction.toList = .ok f :=
    Outcome.exists_eq_ok (by cbv)
  have straight : Lexeme.Straight 0 commentedFunction.toList ls := fun before after same =>
    absurd (same ▸ List.mem_append_right before List.mem_cons_self) (by decide)
  have stream : (Lexeme.scan commentedFunction.toList).toOption.map (fun ls =>
      ((TokenStream.ofLexemes ls).lineComments, (TokenStream.ofLexemes ls).suffixComments,
        ((TokenStream.ofLexemes ls).tokens.filter (·.kind = .string)).map Token.text)) =
      some ([], [], ["'c'"]) := by cbv
  rw [scanned] at stream
  obtain ⟨lines, suffixes, strings⟩ : (TokenStream.ofLexemes ls).lineComments = [] ∧
      (TokenStream.ofLexemes ls).suffixComments = [] ∧
      ((TokenStream.ofLexemes ls).tokens.filter (·.kind = .string)).map Token.text = ["'c'"] := by
    simpa [Except.toOption] using stream
  have unbroken : ∀ t ∈ (TokenStream.ofLexemes ls).tokens, t.kind = .string → t.IsUnbroken := by
    intro t member kind
    have text : t.text = "'c'" := by
      refine List.mem_singleton.mp (strings ▸ List.mem_map_of_mem ?_)
      exact List.mem_filter.mpr ⟨member, by simp [kind]⟩
    have decoded : Quoted.decode "'c'" = .ok ("c", false) := by cbv
    refine ⟨by rw [text]; decide, fun lit value => ?_⟩
    rw [StringLit.ofToken, text, decoded] at value
    cases value
    show '\n' ∉ "c".toList
    decide
  have clean := clean_formatWith scanned straight lines suffixes unbroken read
  exact ⟨ls, f, scanned, straight, lines, suffixes, unbroken, read, clean .apart, clean .grouped⟩

end File

end Starlark
