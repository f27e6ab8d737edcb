import Starlark.Proofs.Block
import Starlark.Proofs.Lexeme.Order
import Starlark.Proofs.Reader.Statement
import Starlark.Proofs.Text.Utf8

/-!
# Every comment of a source is kept

The comments of a source reach the tree on two ways. Those alone on their line
outside brackets are tokens; the reader of statements puts them below and above
statements and into comment blocks. The others wait on the side and are attached
once the tree is there. On both ways every comment arrives exactly once
(`File.remarks_of_ofBytes`).
-/

set_option autoImplicit false

namespace Starlark

/-! ## The comments among tokens -/

/-- The comments that are tokens of their own. -/
def commentsOf (ts : List Token) : List Comment :=
  ts.flatMap fun t => if t.kind = .comment then [t.comment] else []

@[simp] theorem commentsOf_nil : commentsOf [] = [] := rfl

@[simp] theorem commentsOf_append (ts us : List Token) :
    commentsOf (ts ++ us) = commentsOf ts ++ commentsOf us := List.flatMap_append

@[simp] theorem commentsOf_cons (t : Token) (ts : List Token) :
    commentsOf (t :: ts) = (if t.kind = .comment then [t.comment] else []) ++ commentsOf ts := rfl

theorem mem_commentsOf {ts : List Token} {x : Comment} :
    x ∈ commentsOf ts ↔ ∃ t ∈ ts, t.kind = .comment ∧ x = t.comment := by
  rw [commentsOf, List.mem_flatMap]
  refine exists_congr fun t => and_congr_right fun _ => ?_
  split
  · rename_i kind
    simp [kind]
  · rename_i other
    simp [other]

theorem commentsOf_cons_of_isInline {t : Token} (inline : t.kind.isInline = true)
    (ts : List Token) :
    commentsOf (t :: ts) = commentsOf ts := by
  have other : t.kind ≠ .comment := by
    intro kind
    rw [kind] at inline
    cases inline
  rw [commentsOf_cons, if_neg other, List.nil_append]

theorem Inline.commentsOf {ts : List Token} (inline : Inline ts) : commentsOf ts = [] := by
  induction ts with
  | nil => rfl
  | cons t ts ih =>
      obtain ⟨first, rest⟩ := inline_cons.mp inline
      rw [commentsOf_cons_of_isInline first, ih rest]

/-! ## Expressions -/

/-- A node as expressions are read: without comments and without bodies. -/
structure Node.Inert (v : Node) : Prop where
  remarks : v.remarks = []
  bodies : v.form.bodies = []
  statement : v.isCommentBlock = false

namespace Node.Inert

theorem of_children {f : Form} (held : f.held = []) (children : ∀ v ∈ f.children, v.Inert)
    (bodies : f.bodies = []) (statement : f.isCommentBlock = false) : (bare f).Inert where
  remarks := by
    rw [bare, remarks_mk, Form.remarks, held]
    simpa [remarksOf, Comments.none, Comments.toList] using fun v member =>
      (children v member).remarks
  bodies := bodies
  statement := statement

theorem before {v : Node} (inert : v.Inert) : v.comments.before = [] := by
  have none := inert.remarks
  rw [remarks_eq, Comments.toList] at none
  simp_all

theorem tidy {v : Node} (inert : v.Inert) : v.Tidy := by
  rw [tidy_iff, inert.bodies]
  exact fun body member => nomatch member

end Node.Inert

theorem Node.inert_ofName (t : Token) : (Node.ofName t).Inert :=
  .of_children rfl (by simp [Form.children]) rfl rfl

theorem Node.inert_string (lit : StringLit) : (Node.bare (.string lit)).Inert :=
  .of_children rfl (by simp [Form.children]) rfl rfl

theorem Node.inert_joined {assigns : Bool} {x y : Node} {pos : Position} {op : String}
    (left : x.Inert) (right : y.Inert) : (Node.joined assigns x pos op y).Inert :=
  .of_children rfl (by simp [Form.children, left, right]) rfl rfl

theorem Node.inert_ofStrings (first : StringLit) (rest : List StringLit) :
    (Node.ofStrings first rest).Inert := by
  have folded : ∀ x : Node, x.Inert → (rest.foldl
      (fun x lit => .joined false x lit.start "+" (.bare (.string lit))) x).Inert := by
    induction rest with
    | nil => exact fun x inert => inert
    | cons lit rest ih => exact fun x inert => ih _ (inert_joined inert (inert_string lit))
  exact folded _ (inert_string first)

/-- Expressions are read without comments. -/
theorem Spells.inert {p : Phrase} {ts : List Token} {vs : List Node} (spells : Spells p ts vs) :
    ∀ v ∈ vs, v.Inert := by
  induction spells with
  | strings => simpa using Node.inert_ofStrings _ _
  | atom _ ih | positional _ ih | operand _ ih | tighter _ ih | disjunction _ ih | single _ ih
  | target _ ih | lastParam _ ih | present _ ih => exact ih
  | noClause | noParam | noMore | noItem | missing | lastComma => simp
  | moreParams _ _ _ first more | oneMore _ _ _ first more | someItems _ _ first more =>
      simpa using ⟨first _ (.head _), more⟩
  | forClause _ _ _ _ _ bound range more =>
      refine List.forall_mem_cons.mpr ⟨.of_children rfl ?_ rfl rfl, more⟩
      simpa [Form.children] using ⟨bound _ (.head _), range _ (.head _)⟩
  | ifClause _ _ _ cond more =>
      refine List.forall_mem_cons.mpr ⟨.of_children rfl ?_ rfl rfl, more⟩
      simpa [Form.children] using cond _ (.head _)
  | slice _ _ _ _ _ _ inner start stop =>
      refine List.forall_mem_singleton.mpr (.of_children rfl ?_ rfl rfl)
      intro v member
      simp only [Form.children, List.mem_cons, List.mem_append, Option.mem_toList,
        Option.toList_none, List.not_mem_nil, or_false] at member
      obtain rfl | member | member := member
      · exact inner _ (.head _)
      · exact start v (List.mem_of_mem_head? member)
      · exact stop v (List.mem_of_mem_head? member)
  | stepSlice _ _ _ _ _ _ _ _ inner start stop stride =>
      refine List.forall_mem_singleton.mpr (.of_children rfl ?_ rfl rfl)
      intro v member
      simp only [Form.children, List.mem_cons, List.mem_append, Option.mem_toList] at member
      obtain rfl | (member | member) | member := member
      · exact inner _ (.head _)
      · exact start v (List.mem_of_mem_head? member)
      · exact stop v (List.mem_of_mem_head? member)
      · exact stride v (List.mem_of_mem_head? member)
  | typedDefaultParam _ _ _ _ _ type value =>
      refine List.forall_mem_singleton.mpr (Node.inert_joined ?_ (value _ (.head _)))
      exact .of_children rfl (by simpa [Form.children] using type _ (.head _)) rfl rfl
  | lambda _ _ _ _ parts body =>
      refine List.forall_mem_singleton.mpr (.of_children rfl ?_ rfl rfl)
      intro v member
      simp only [Form.children, List.mem_append, List.mem_singleton] at member
      obtain member | rfl := member
      · exact parts v member
      · exact body _ (.head _)
  | _ =>
      simp only [List.forall_mem_cons, List.not_mem_nil, false_implies, implies_true, and_true] at *
      exact .of_children rfl (by simp_all [Form.children, Node.inert_ofName]) rfl rfl

/-! ## Small statements -/

/-- The tokens of a symbol stand on a line, and it has no comments. -/
theorem BindingTokens.inline {ts : List Token} {b : Binding} (tokens : BindingTokens ts b) :
    Inline ts ∧ b.remarks = [] := by
  have unremarked : ∀ {t : Token} {x : Name}, Reader.symbolOf t = .ok x → x.comments = .none := by
    intro t x value
    obtain ⟨lit, _, same⟩ := Outcome.bind_eq_ok.mp value
    cases same
    rfl
  cases tokens with
  | symbol kind value =>
      simp [kind, Binding.remarks, unremarked value, Comments.none, Comments.toList]
  | renamed named eq kind value =>
      simp [kind, eq, Token.Kind.isInline_of_isName named, Binding.remarks, unremarked value,
        Comments.none, Comments.toList]

theorem Reader.Listed.inline {ts : List Token} {bindings : List Binding}
    (listed : Reader.Listed BindingTokens ts bindings) :
    Inline ts ∧ bindings.flatMap Binding.remarks = [] := by
  induction listed with
  | none => simp
  | comma comma => simp [comma]
  | item comma first _ ih =>
      obtain ⟨inline, none⟩ := first.inline
      simp [comma, inline, none, ih]

theorem closesLine_of_isInline {kind : Token.Kind} (inline : kind.isInline = true) :
    kind.closesLine = false := by
  cases kind <;> first | rfl | cases inline

theorem Spells.start_mem {ts : List Token} {v : Node} (spells : Spells .expression ts [v]) :
    ∃ t ∈ ts, v.start = t.pos := by
  have start := spells.start_eq rfl
  obtain ⟨t, us, rfl⟩ := List.exists_cons_of_ne_nil (spells.ne_nil rfl)
  exact ⟨t, by simp, start⟩

namespace SmallStmt

variable {ts : List Token} {v : Node}

theorem inline (stmt : SmallStmt ts v) : Inline ts := by
  cases stmt with
  | returnNothing kind => simp [kind]
  | returnValue kind value => simp [kind, value.inline]
  | branch kind => simp [isInline_of_isBranch kind]
  | load first opening kind _ symbols closing =>
      simp [first, opening, kind, closing, symbols.inline]
  | assign left eq right =>
      obtain eq | eq := eq <;> simp [eq, left.inline, right.inline]
  | value plain => exact plain.inline

/-- Small statements are read without comments. -/
theorem inert (stmt : SmallStmt ts v) : v.Inert := by
  cases stmt with
  | returnNothing | branch => exact .of_children rfl (by simp [Form.children]) rfl rfl
  | returnValue _ value =>
      have part := value.inert _ (.head _)
      exact .of_children rfl (by simp [Form.children, part]) rfl rfl
  | load _ _ _ _ symbols _ =>
      refine .of_children ?_ (by simp [Form.children]) rfl rfl
      simp [Form.held, symbols.inline, Comments.none, Comments.toList, Close.at]
  | assign left _ right =>
      exact Node.inert_joined (left.inert _ (.head _)) (right.inert _ (.head _))
  | value plain => exact plain.inert _ (.head _)

/-- A statement starts at one of its tokens. -/
theorem start_mem (stmt : SmallStmt ts v) : ∃ t ∈ ts, v.start = t.pos := by
  cases stmt with
  | returnNothing | returnValue | branch | load => exact ⟨_, .head _, rfl⟩
  | assign left _ right =>
      obtain ⟨t, member, start⟩ := left.start_mem
      exact ⟨t, List.mem_append_left _ member, start⟩
  | value plain => exact plain.start_mem

end SmallStmt

theorem LineRest.stmts {ts : List Token} {vs : List Node} (rest : LineRest ts vs) :
    commentsOf ts = [] ∧ ∀ v ∈ vs, v.Inert := by
  induction rest with
  | done ends => simp [ends]
  | semi semi ends => simp [semi, ends]
  | next semi first _ ih =>
      obtain ⟨none, others⟩ := ih
      exact ⟨by simp [semi, first.inline.commentsOf, none],
        List.forall_mem_cons.mpr ⟨first.inert, others⟩⟩

/-- A line holds no comment but those on the side, and starts with its first
statement. -/
theorem StmtLine.stmts {ts : List Token} {vs : List Node} (line : StmtLine ts vs) :
    commentsOf ts = [] ∧ (∀ v ∈ vs, v.Inert) ∧
      ∃ v rest, vs = v :: rest ∧ ∃ t ∈ ts, t.kind.isInline = true ∧ v.start = t.pos := by
  obtain ⟨first, more⟩ := line
  obtain ⟨none, others⟩ := more.stmts
  obtain ⟨t, member, start⟩ := first.start_mem
  refine ⟨by simp [first.inline.commentsOf, none],
    List.forall_mem_cons.mpr ⟨first.inert, others⟩, _, _, rfl, t, ?_⟩
  exact ⟨List.mem_append_left _ member, first.inline t member, start⟩

/-! ## Lines and bodies -/

/-- What is known of a statement with a body that has been read. -/
structure Node.ReadFrom (ts : List Token) (v : Node) : Prop where
  remarks : ∀ c, tally c v.remarks = tally c (commentsOf ts)
  before : v.comments.before = []
  statement : v.isCommentBlock = false
  tidy : v.Tidy
  start : ∃ t ∈ ts, t.kind.isInline = true ∧ v.start = t.pos

/-- What is known of lines that have been read. -/
structure LinesFrom (ts : List Token) (entries : List Entry) : Prop where
  remarks : ∀ c, tally c (entries.flatMap Entry.remarks) = tally c (commentsOf ts)
  fresh : ∀ e ∈ entries, e.Fresh
  tidy : ∀ nodes f, Entry.group nodes f ∈ entries → ∀ v ∈ nodes, v.Tidy
  start : ∀ v rest f, Entry.group (v :: rest) f ∈ entries →
    ∃ t ∈ ts, t.kind.isInline = true ∧ v.start = t.pos
  comment : ∀ x, Entry.remark x ∈ entries → ∃ t ∈ ts, t.kind = .comment ∧ x = t.comment
  above : entries.Pairwise Block.Above

/-- The comments of a branch. -/
def Reader.Arm.remarks (a : Reader.Arm) : List Comment :=
  a.cond.remarks ++ a.suite.header ++ remarksOf a.suite.body

/-- Everything that has been read carries the comments among its tokens. -/
def Reading.Kept (ts : List Token) : Reading → Prop
  | .suite s => TidyBody s.body ∧
      ∀ c, tally c s.header + tally c (remarksOf s.body) = tally c (commentsOf ts)
  | .compound stmt => stmt.1.ReadFrom ts
  | .arms branches => (∀ a ∈ branches, TidyBody a.suite.body) ∧
      ∀ c, tally c (branches.flatMap Reader.Arm.remarks) = tally c (commentsOf ts)
  | .lines entries => LinesFrom ts entries

theorem Node.Inert.lone {v : Node} (inert : v.Inert) : v.Lone := by
  intro block
  rw [inert.statement] at block
  cases block

theorem remarksOf_of_inert {vs : List Node} (inert : ∀ v ∈ vs, v.Inert) : remarksOf vs = [] := by
  simpa [remarksOf] using fun v member => (inert v member).remarks

theorem Node.tidy_of_isCommentBlock {v : Node} (block : v.isCommentBlock = true) : v.Tidy := by
  obtain ⟨comments, f⟩ := v
  cases f with
  | commentBlock p => exact tidy_iff.mpr fun body member => nomatch member
  | _ => cases block

theorem HeaderEnd.commentsOf {ts : List Token} {header : List Comment}
    (ends : HeaderEnd ts header) : commentsOf ts = header := by
  cases ends with
  | plain ends => simp [ends]
  | commented kind ends => simp [kind, ends]

/-- Lines of comments make comment blocks. -/
theorem CommentLines.kept {ts : List Token} {entries : List Entry}
    (lines : CommentLines ts entries) :
    commentsOf ts = entries.flatMap Entry.remarks ∧ ∀ nodes f, Entry.group nodes f ∉ entries := by
  induction lines with
  | none => simp
  | blank ends _ ih =>
      obtain ⟨same, noGroup⟩ := ih
      exact ⟨by simp [ends, same, Entry.remarks], fun nodes f => by simpa using noGroup nodes f⟩
  | remark kind ends _ ih =>
      obtain ⟨same, noGroup⟩ := ih
      exact ⟨by simp [kind, ends, same, Entry.remarks],
        fun nodes f => by simpa using noGroup nodes f⟩

theorem CommentLines.blocks {ts : List Token} {entries : List Entry}
    (lines : CommentLines ts entries) :
    ∀ v ∈ (Block.ofEntries entries).nodes, v.isCommentBlock = true :=
  Block.ofEntries_forms (P := fun f => f.isCommentBlock = true) (fun _ => rfl)
    fun nodes f member => absurd member (lines.kept.2 nodes f)

theorem CommentLines.fresh {ts : List Token} {entries : List Entry}
    (lines : CommentLines ts entries) : ∀ e ∈ entries, e.Fresh := by
  intro e member
  cases e with
  | group nodes f => exact absurd member (lines.kept.2 nodes f)
  | blank => trivial
  | remark x => trivial

theorem StmtLine.suite_kept {ts : List Token} {vs : List Node} (line : StmtLine ts vs) :
    (Reading.suite ⟨[], vs, true⟩).Kept ts := by
  obtain ⟨none, inert, _⟩ := line.stmts
  refine ⟨⟨.of_forall fun v member => (inert v member).lone, fun v member => (inert v member).tidy⟩,
    fun c => ?_⟩
  simp [none, remarksOf_of_inert inert]

theorem LinesFrom.nodes_tidy {ts : List Token} {entries : List Entry}
    (lines : LinesFrom ts entries) : ∀ v ∈ (Block.ofEntries entries).nodes, v.Tidy := by
  intro v member
  refine Node.tidy_iff.mpr ?_
  refine Block.ofEntries_forms (P := fun f => ∀ body ∈ f.bodies, TidyBody body) ?_ ?_ v member
  · exact fun p body inside => nomatch inside
  · exact fun nodes f inside u there => Node.tidy_iff.mp (lines.tidy nodes f inside u there)

/-- A body on lines of its own. -/
theorem LinesFrom.suite_kept {a b : Token} {hs ls ts : List Token} {header : List Comment}
    {leading entries : List Entry} (ends : HeaderEnd hs header) (above : CommentLines ls leading)
    (opening : a.kind = .indent) (body : LinesFrom ts entries) (closing : b.kind = .unindent)
    (ordered : (hs ++ ls ++ a :: (ts ++ [b])).Pairwise Token.Precedes) :
    (Reading.suite ⟨header, (Block.ofEntries leading).precede (Block.ofEntries entries).nodes,
      (Block.ofEntries entries).followed⟩).Kept (hs ++ ls ++ a :: (ts ++ [b])) := by
  obtain ⟨lone, sums⟩ := Block.ofEntries_kept body.fresh
  obtain ⟨leadingLone, leadingSums⟩ := Block.ofEntries_kept above.fresh
  have room : ∀ first more, (Block.ofEntries entries).nodes = first :: more →
      first.comments.before = [] ∨ ∀ x ∈ remarksOf (Block.ofEntries leading).nodes,
        first.start.line ≠ x.start.line + 1 := by
    intro first more starts
    by_cases empty : first.comments.before = []
    · exact .inl empty
    refine .inr fun x member => ?_
    -- the comment is a token before the body, so the comments of the body are below it
    rw [(perm_of_tally leadingSums).mem_iff, ← above.kept.1] at member
    obtain ⟨s, inside, kind, rfl⟩ := mem_commentsOf.mp member
    have precedes : ∀ t ∈ ts, s.Precedes t := by
      intro t there
      rw [List.append_assoc, List.pairwise_append] at ordered
      exact (List.pairwise_append.mp ordered.2.1).2.2 s inside t (by simp [there])
    have below : ∀ y, Entry.remark y ∈ entries → s.comment.start.line < y.start.line := by
      intro y there
      obtain ⟨t, token, comment, rfl⟩ := body.comment y there
      exact (precedes t token).line_lt kind (by rw [comment]; rfl)
    have apart := (Block.ofEntries_first body.fresh below body.above starts).resolve_left empty
    omega
  constructor
  · refine ⟨Block.precede_loneBehind above.blocks lone, fun v member => Node.tidy_iff.mpr ?_⟩
    refine Block.precede_forms (P := fun f => ∀ body ∈ f.bodies, TidyBody body) ?_ ?_ v member
    · exact fun u inside => Node.tidy_iff.mp (Node.tidy_of_isCommentBlock (above.blocks u inside))
    · exact fun u inside => Node.tidy_iff.mp (body.nodes_tidy u inside)
  · intro c
    have sum := sums c
    have leadingSum := leadingSums c
    have lines := body.remarks c
    simp only [Block.tally_precede c leadingLone room, commentsOf_append, commentsOf_cons,
      ends.commentsOf, above.kept.1, opening, closing, tally_append]
    simp
    omega

/-- The branches of an `if` behind the first one. -/
theorem nested_kept {e : Close} {noBody : List Node} {arms : List Reader.Arm}
    (last : TidyBody noBody) (bodies : ∀ a ∈ arms, TidyBody a.suite.body) :
    TidyBody (Reader.nested e noBody arms).2 ∧
      ∀ c, tally c (Reader.nested e noBody arms).1.comments.toList +
          tally c (remarksOf (Reader.nested e noBody arms).2) =
        tally c e.comments.toList + tally c (remarksOf noBody) +
          tally c (arms.flatMap Reader.Arm.remarks) := by
  induction arms with
  | nil => exact ⟨last, fun c => by simp [Reader.nested]⟩
  | cons a arms ih =>
      obtain ⟨tidy, sums⟩ := ih fun x member => bodies x (by simp [member])
      have here := bodies a (by simp)
      constructor
      · refine ⟨.of_single _, fun v member => ?_⟩
        rw [Reader.nested, List.mem_singleton] at member
        rw [member]
        exact Node.tidy_iff.mpr (by simpa [Reader.Arm.ifStmt, Form.bodies] using ⟨here, tidy⟩)
      · intro c
        have sum := sums c
        simp only [Reader.nested, Reader.Arm.ifStmt, Reader.Arm.remarks, Close.at, Comments.none,
          Comments.ofSuffix, Comments.toList, Form.remarks, Form.held, Form.children,
          List.flatMap_cons, remarksOf_cons, remarksOf_append, remarksOf_nil, Node.remarks_mk,
          List.append_nil, List.nil_append, tally_append, tally_nil] at sum ⊢
        omega

/-- An `if` with all its branches. -/
theorem ifStmt_readFrom {a : Token} {cond : Node} {s : Reader.Suite} {e : Close}
    {noBody : List Node} {ts : List Token} (key : a.kind = .keyword .if)
    (test : cond.remarks = []) (yes : TidyBody s.body) (no : TidyBody noBody)
    (sums : ∀ c, tally c s.header + tally c (remarksOf s.body) + tally c e.comments.toList +
      tally c (remarksOf noBody) = tally c (commentsOf ts)) :
    ((⟨a.pos, cond, s⟩ : Reader.Arm).ifStmt e noBody).ReadFrom (a :: ts) where
  remarks c := by
    have sum := sums c
    simp only [Reader.Arm.ifStmt, Comments.ofSuffix, Comments.toList, Form.remarks, Form.held,
      Form.children, remarksOf_cons, remarksOf_append, Node.remarks_mk, List.append_nil,
      List.nil_append, tally_append, test, commentsOf_cons, key] at sum ⊢
    simp
    omega
  before := rfl
  statement := rfl
  tidy := Node.tidy_iff.mpr (by simpa [Reader.Arm.ifStmt, Form.bodies] using ⟨yes, no⟩)
  start := ⟨a, by simp, by simp [key], rfl⟩

/-- A line in front of more lines. -/
theorem LinesFrom.cons {ts us : List Token} {e : Entry} {entries : List Entry}
    (more : LinesFrom us entries) (remarks : ∀ c, tally c e.remarks = tally c (commentsOf ts))
    (fresh : e.Fresh) (tidy : ∀ nodes f, e = .group nodes f → ∀ v ∈ nodes, v.Tidy)
    (start : ∀ v rest f, e = .group (v :: rest) f →
      ∃ t ∈ ts, t.kind.isInline = true ∧ v.start = t.pos)
    (comment : ∀ x, e = .remark x → ∃ t ∈ ts, t.kind = .comment ∧ x = t.comment)
    (above : ∀ x ∈ entries, Block.Above e x) : LinesFrom (ts ++ us) (e :: entries) where
  remarks c := by simp [remarks c, more.remarks c]
  fresh := List.forall_mem_cons.mpr ⟨fresh, more.fresh⟩
  tidy nodes f member v inside := by
    obtain same | member := List.mem_cons.mp member
    · exact tidy nodes f same.symm v inside
    · exact more.tidy nodes f member v inside
  start v rest f member := by
    obtain same | member := List.mem_cons.mp member
    · obtain ⟨t, inside, known⟩ := start v rest f same.symm
      exact ⟨t, List.mem_append_left _ inside, known⟩
    · obtain ⟨t, inside, known⟩ := more.start v rest f member
      exact ⟨t, List.mem_append_right _ inside, known⟩
  comment x member := by
    obtain same | member := List.mem_cons.mp member
    · obtain ⟨t, inside, known⟩ := comment x same.symm
      exact ⟨t, List.mem_append_left _ inside, known⟩
    · obtain ⟨t, inside, known⟩ := more.comment x member
      exact ⟨t, List.mem_append_right _ inside, known⟩
  above := List.pairwise_cons.mpr ⟨above, more.above⟩

/-- A group of statements in front of more lines. -/
theorem LinesFrom.group {ts us : List Token} {v : Node} {rest : List Node} {followed : Bool}
    {entries : List Entry} (more : LinesFrom us entries)
    (remarks : ∀ c, tally c (remarksOf (v :: rest)) = tally c (commentsOf ts))
    (statement : v.isCommentBlock = false) (before : v.comments.before = [])
    (lone : ∀ u ∈ rest, u.Lone) (tidy : ∀ u ∈ v :: rest, u.Tidy)
    (start : ∃ t ∈ ts, t.kind.isInline = true ∧ v.start = t.pos) :
    LinesFrom (ts ++ us) (.group (v :: rest) followed :: entries) := by
  refine more.cons remarks ⟨v, rest, rfl, statement, before, lone⟩ ?_ ?_ ?_ fun x _ => trivial
  · rintro nodes f same
    cases same
    exact tidy
  · rintro u others f same
    cases same
    exact start
  · rintro x same
    cases same

/-- A statement with its body, and the comment blocks cut off its end, in front
of more lines. -/
theorem Node.ReadFrom.lines {ts us : List Token} {stmt : Reader.Ended} {entries : List Entry}
    (first : stmt.1.ReadFrom ts) (more : LinesFrom us entries) :
    LinesFrom (ts ++ us) (Reader.blockGroup stmt :: entries) := by
  obtain ⟨v, cut, split⟩ : ∃ v cut, stmt.1.splitTrailing = (v, cut) := ⟨_, _, rfl⟩
  obtain ⟨tidy, blocks, start, same, comments, sums⟩ :=
    Node.splitTrailing_kept first.tidy split
  have group : ∀ followed, LinesFrom (ts ++ us) (.group (v :: cut) followed :: entries) := by
    intro followed
    refine more.group (fun c => ?_) ?_ ?_ (fun u member => (blocks u member).2) ?_ ?_
    · rw [remarksOf_cons, tally_append, sums c, first.remarks c]
    · rw [same, first.statement]
    · rw [comments, first.before]
    · exact List.forall_mem_cons.mpr
        ⟨tidy, fun u member => Node.tidy_of_isCommentBlock (blocks u member).1⟩
    · rw [start]
      exact first.start
  unfold Reader.blockGroup
  rw [split]
  cases cut with
  | nil => exact group true
  | cons u cut => exact group stmt.2

theorem StmtLine.lines {ts us : List Token} {vs : List Node} {entries : List Entry}
    (first : StmtLine ts vs) (more : LinesFrom us entries) :
    LinesFrom (ts ++ us) (.group vs true :: entries) := by
  obtain ⟨none, inert, v, rest, rfl, start⟩ := first.stmts
  obtain ⟨here, others⟩ := List.forall_mem_cons.mp inert
  exact more.group (fun c => by rw [none, remarksOf_of_inert inert]) here.statement here.before
    (fun u member => (others u member).lone) (fun u member => (inert u member).tidy) start

theorem LinesFrom.blank {t : Token} {ts : List Token} {entries : List Entry}
    (ends : t.kind = .newline) (more : LinesFrom ts entries) :
    LinesFrom (t :: ts) (.blank :: entries) := by
  rw [← List.singleton_append]
  exact more.cons (fun c => by simp [ends, Entry.remarks]) trivial
    (fun _ _ same => nomatch same) (fun _ _ _ same => nomatch same) (fun _ same => nomatch same)
    fun _ _ => trivial

/-- A line with a comment in front of lines adds its comment to them. -/
theorem LinesFrom.remark {c t : Token} {ts : List Token} {entries : List Entry}
    (kind : c.kind = .comment) (ends : t.kind = .newline) (more : LinesFrom ts entries)
    (ordered : (c :: t :: ts).Pairwise Token.Precedes) :
    LinesFrom (c :: t :: ts) (.remark c.comment :: entries) := by
  change LinesFrom ([c, t] ++ ts) _
  refine more.cons (fun x => by simp [kind, ends, Entry.remarks]) trivial
    (fun _ _ same => nomatch same) (fun _ _ _ same => nomatch same) ?_ ?_
  · rintro x same
    cases same
    exact ⟨c, by simp, kind, rfl⟩
  · intro e member
    have precedes := (List.pairwise_cons.mp ordered).1
    unfold Block.Above
    split
    · rename_i x v rest f same
      cases same
      obtain ⟨s, inside, inline, start⟩ := more.start v rest f member
      rw [start]
      exact (precedes s (by simp [inside])).line_lt kind (closesLine_of_isInline inline)
    · trivial

/-- A condition and its colon hold no comment. -/
theorem commentsOf_arm {b : Token} {cs : List Token} {cond : Node}
    (test : Spells .expression cs [cond]) (colon : b.kind = .symbol .colon) (ts : List Token) :
    commentsOf (cs ++ b :: ts) = commentsOf ts := by
  rw [commentsOf_append, test.inline.commentsOf, List.nil_append,
    commentsOf_cons_of_isInline (by simp [colon])]

theorem ordered_part (front back : List Token) {ts part : List Token}
    (ordered : ts.Pairwise Token.Precedes) (split : ts = front ++ (part ++ back)) :
    part.Pairwise Token.Precedes := by
  rw [split, List.pairwise_append, List.pairwise_append] at ordered
  exact ordered.2.1.1

/-- What the statement grammar builds keeps the comments of its tokens, by induction on it. -/
theorem Builds.kept {types : Bool} {ts : List Token} {r : Reading} (builds : Builds types ts r)
    (ordered : ts.Pairwise Token.Precedes) : r.Kept ts := by
  induction builds with
  | lineSuite line => exact line.suite_kept
  | @blockSuite a b hs ls ts _ _ _ ends above opening _ closing ih =>
      exact (ih (ordered_part (hs ++ ls ++ [a]) [b] ordered (by simp))).suite_kept ends above
        opening closing ordered
  | @define a t b c d ps ts params s key named opening parts closing colon body ih =>
      obtain ⟨tidy, sums⟩ := ih (ordered_part (a :: t :: b :: (ps ++ [c, d])) [] ordered (by simp))
      have tokens : commentsOf (a :: t :: b :: (ps ++ c :: d :: ts)) = commentsOf ts := by
        rw [commentsOf_cons_of_isInline (by simp [key]),
          commentsOf_cons_of_isInline (Token.Kind.isInline_of_isName named),
          commentsOf_cons_of_isInline (by simp [opening]), commentsOf_append,
          parts.inline.commentsOf, List.nil_append, commentsOf_cons_of_isInline (by simp [closing]),
          commentsOf_cons_of_isInline (by simp [colon])]
      refine ⟨fun x => ?_, rfl, rfl, Node.tidy_iff.mpr ?_, a, by simp, by simp [key], rfl⟩
      · have sum := sums x
        rw [tokens, ← sum]
        simp [Comments.ofSuffix, Comments.toList, Form.remarks, Form.held, Form.children,
          remarksOf_of_inert parts.inert]
      · simpa [Form.bodies] using tidy
  | @loop a b c vs xs ts vars x s key bound inside range colon body ih =>
      obtain ⟨tidy, sums⟩ := ih (ordered_part (a :: (vs ++ b :: (xs ++ [c]))) [] ordered (by simp))
      have tokens : commentsOf (a :: (vs ++ b :: (xs ++ c :: ts))) = commentsOf ts := by
        rw [commentsOf_cons_of_isInline (by simp [key]), commentsOf_append,
          bound.inline.commentsOf, List.nil_append, commentsOf_cons_of_isInline (by simp [inside]),
          commentsOf_append, range.inline.commentsOf, List.nil_append,
          commentsOf_cons_of_isInline (by simp [colon])]
      refine ⟨fun y => ?_, rfl, rfl, Node.tidy_iff.mpr ?_, a, by simp, by simp [key], rfl⟩
      · have sum := sums y
        rw [tokens, ← sum]
        simp [Comments.ofSuffix, Comments.toList, Form.remarks, Form.held, Form.children,
          (bound.inert _ (.head _)).remarks, (range.inert _ (.head _)).remarks]
      · simpa [Form.bodies] using tidy
  | @choice a b cs ts us cond s branches key test colon body more suite arms =>
      obtain ⟨yes, sums⟩ := suite (ordered_part (a :: (cs ++ [b])) us ordered (by simp))
      obtain ⟨bodies, others⟩ := arms (ordered_part (a :: (cs ++ b :: ts)) [] ordered (by simp))
      obtain ⟨no, nestedSums⟩ := nested_kept (e := .at .nowhere) TidyBody.nil bodies
      refine ifStmt_readFrom key (test.inert _ (.head _)).remarks yes no fun c => ?_
      have first := sums c
      have second := others c
      have both := nestedSums c
      have nothing : tally c (Close.at .nowhere).comments.toList = 0 := rfl
      rw [remarksOf_nil, tally_nil, nothing] at both
      rw [commentsOf_arm test colon, commentsOf_append, tally_append]
      omega
  | @choiceElse a b e c cs ts us vs cond s s' branches key test colon body more otherwise second
      last suite arms final =>
      obtain ⟨yes, sums⟩ := suite (ordered_part (a :: (cs ++ [b])) (us ++ e :: c :: vs) ordered
        (by simp))
      obtain ⟨bodies, others⟩ := arms (ordered_part (a :: (cs ++ b :: ts)) (e :: c :: vs) ordered
        (by simp))
      obtain ⟨lastBody, lastSums⟩ := final (ordered_part
        (a :: (cs ++ b :: (ts ++ us ++ [e, c]))) [] ordered (by simp))
      obtain ⟨no, nestedSums⟩ := nested_kept (e := ⟨e.pos, .ofSuffix s'.header⟩) lastBody bodies
      refine ifStmt_readFrom key (test.inert _ (.head _)).remarks yes no fun x => ?_
      have first := sums x
      have middle := others x
      have third := lastSums x
      have all := nestedSums x
      have header : (Comments.ofSuffix s'.header).toList = s'.header := by
        simp [Comments.ofSuffix, Comments.toList]
      simp only [header] at all
      rw [commentsOf_arm test colon, commentsOf_append, commentsOf_append,
        commentsOf_cons_of_isInline (by simp [otherwise]),
        commentsOf_cons_of_isInline (by simp [second]), tally_append, tally_append]
      omega
  | noArm => exact ⟨by simp, by simp⟩
  | @arm a b cs ts us cond s branches key test colon body more suite arms =>
      obtain ⟨yes, sums⟩ := suite (ordered_part (a :: (cs ++ [b])) us ordered (by simp))
      obtain ⟨bodies, others⟩ := arms (ordered_part (a :: (cs ++ b :: ts)) [] ordered (by simp))
      refine ⟨List.forall_mem_cons.mpr ⟨yes, bodies⟩, fun c => ?_⟩
      have first := sums c
      have second := others c
      rw [commentsOf_cons_of_isInline (by simp [key]), commentsOf_arm test colon, commentsOf_append,
        List.flatMap_cons, tally_append, tally_append]
      simp only [Reader.Arm.remarks, (test.inert _ (.head _)).remarks, List.nil_append,
        tally_append]
      omega
  | noLine => exact ⟨by simp, by simp, by simp, by simp, by simp, .nil⟩
  | @blank t ts _ ends more ih =>
      exact .blank ends (ih (ordered_part [t] [] ordered (by simp)))
  | @remark c t ts _ kind ends more ih =>
      exact .remark kind ends (ih (ordered_part [c, t] [] ordered (by simp))) ordered
  | @compound ts us _ _ first more stmt lines =>
      exact (stmt (ordered_part [] us ordered (by simp))).lines
        (lines (ordered_part ts [] ordered (by simp)))
  | @stmts ts us _ _ first more ih =>
      exact first.lines (ih (ordered_part ts [] ordered (by simp)))

/-! ## Sources -/

/-- All comments of a stream of lexemes. -/
def TokenStream.remarks (stream : TokenStream) : List Comment :=
  commentsOf stream.tokens ++ stream.lineComments ++ stream.suffixComments

/-- All comments of a file: its own, and those of its statements. -/
def File.remarks (f : File) : List Comment := f.comments.toList ++ remarksOf f.statements

/-- The statements of a source carry the comments among its tokens. -/
theorem statements_remarks {types : Bool} {tokens : List Token} {vs : List Node}
    (ordered : tokens.Pairwise Token.Precedes) (read : Reader.statements types tokens = .ok vs) :
    ∀ c, tally c (remarksOf vs) = tally c (commentsOf tokens) := by
  obtain ⟨used, rest, entries, rfl, ends, builds, rfl⟩ := Reader.statements_eq_ok read
  obtain ⟨before, after, _⟩ := List.pairwise_append.mp ordered
  have lines : LinesFrom used entries := builds.kept before
  intro c
  -- nothing stands behind the end of the source
  have none : commentsOf rest = [] := by
    cases rest with
    | nil => rfl
    | cons t ts =>
        have kind : t.kind = .eof := ends
        cases ts with
        | nil => simp [kind]
        | cons s ts => exact absurd kind ((List.pairwise_cons.mp after).1 s (by simp)).real
  rw [(Block.ofEntries_kept lines.fresh).2 c, lines.remarks c, commentsOf_append, none,
    List.append_nil]

/-- A file carries the comments of the stream that spells it. -/
theorem File.remarks_of_ofStream {path : String} {options : Options} {stream : TokenStream}
    {f : File} (ordered : stream.tokens.Pairwise Token.Precedes)
    (read : File.ofStream path options stream = .ok f) : f.remarks.Perm stream.remarks := by
  obtain ⟨vs, statements, done⟩ := Outcome.bind_eq_ok.mp read
  have parts : f = ⟨path, options.dialect, (attach vs stream.lineComments stream.suffixComments).1,
      ⟨(attach vs stream.lineComments stream.suffixComments).2.2, [],
        (attach vs stream.lineComments stream.suffixComments).2.1⟩⟩ := by
    cases done
    rfl
  refine perm_of_tally fun c => ?_
  have tokens := statements_remarks ordered statements c
  have attached := tally_attach c vs stream.lineComments stream.suffixComments
  simp only [parts, File.remarks, TokenStream.remarks, Comments.toList, List.append_nil,
    tally_append]
  omega

theorem File.remarks_of_ofChars {path : String} {options : Options} {source : List Char} {f : File}
    (read : File.ofChars path options source = .ok f) :
    ∃ stream, TokenStream.ofChars source = .ok stream ∧ f.remarks.Perm stream.remarks := by
  obtain ⟨stream, scanned, built⟩ := Outcome.bind_eq_ok.mp read
  obtain ⟨lexemes, scans, rfl⟩ := Outcome.map_eq_ok.mp scanned
  exact ⟨_, scanned, remarks_of_ofStream (Lexeme.scans_iff.mpr scans).ordered built⟩

/-- Reading a source keeps every comment exactly once: the comments of the file are
those of the source, in some order. -/
theorem File.remarks_of_ofBytes {path : String} {options : Options} {bytes : ByteArray} {f : File}
    (read : File.ofBytes path options bytes = .ok f) :
    ∃ source stream, Text.Utf8.decode bytes = .ok source ∧
      TokenStream.ofChars source = .ok stream ∧ f.remarks.Perm stream.remarks := by
  unfold File.ofBytes at read
  split at read
  next source decoded =>
    cases chars : File.ofChars path options source with
    | error fault => simp [chars, Except.mapError] at read
    | ok g =>
        simp only [chars, Except.mapError, Except.ok.injEq] at read
        subst read
        obtain ⟨stream, scanned, same⟩ := File.remarks_of_ofChars chars
        exact ⟨source, stream, decoded, scanned, same⟩
  next => cases read

/-- A source with a comment block, comments at all places of a `load`, and a suffix comment. -/
def File.commentedLoad : String :=
  "# a\n\nload(  # b\n    # c\n    \"m\",  # d\n    x = \"y\",  # e\n    # f\n)  # g\n" ++
    "x()  # h\n"

/-- None of its eight comments is lost, and none is taken twice. -/
theorem File.remarks_of_commentedLoad :
    ∃ f, File.ofBytes "BUILD" ⟨.build, false⟩ commentedLoad.toUTF8 = .ok f ∧
      (f.remarks.map Comment.text).Perm
        ["# a", "# b", "# c", "# f", "# d", "# e", "# g", "# h"] ∧
      ∃ source stream, Text.Utf8.decode commentedLoad.toUTF8 = .ok source ∧
        TokenStream.ofChars source = .ok stream ∧ f.remarks.Perm stream.remarks := by
  have texts : (TokenStream.ofChars commentedLoad.toList).map (·.remarks.map Comment.text) =
      .ok ["# a", "# b", "# c", "# f", "# d", "# e", "# g", "# h"] := by cbv
  obtain ⟨f, read⟩ : ∃ f, File.ofText "BUILD" ⟨.build, false⟩ commentedLoad = .ok f :=
    Outcome.exists_eq_ok (by cbv)
  rw [← ofBytes_toUTF8] at read
  obtain ⟨source, stream, decoded, scanned, same⟩ := File.remarks_of_ofBytes read
  obtain rfl : commentedLoad.toList = source :=
    Except.ok.inj ((Text.Utf8.decode_toUTF8 _).symm.trans decoded)
  rw [scanned] at texts
  refine ⟨f, read, ?_, _, stream, decoded, scanned, same⟩
  exact Except.ok.inj texts ▸ same.map Comment.text

end Starlark
