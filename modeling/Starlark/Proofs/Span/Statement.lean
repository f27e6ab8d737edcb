import Starlark.Proofs.Source
import Starlark.Proofs.Span.Block

/-!
# Where statements stand
-/

set_option autoImplicit false

namespace Starlark

open Token (placesOf)

/-! ## Small statements -/

section Small

variable {tokens : List Token} (placed : ∀ t ∈ tokens, t.stop = t.pos.add t.text)
  (lexical : LexicalTokens tokens)

include placed lexical

/-- A small statement sits on its tokens, by cases of its kind. -/
theorem SmallStmt.seats {ts : List Token} {v : Node} (stmt : SmallStmt ts v)
    (inside : ts ⊆ tokens) :
    Seats tokens ts [v] := by
  cases stmt with
  | @returnNothing t key =>
      have member : t ∈ tokens := inside (by simp)
      have inline : t.kind.isInline = true := by rw [key]; rfl
      refine .leaf rfl member inline rfl ?_ rfl
      rw [placed t member, Token.text_of_keyword (lexical t member inline) key]
      rfl
  | @returnValue t ts x key value =>
      simp only [List.cons_subset] at inside
      have seats : Seats tokens (t :: ([] ++ ts)) [.bare (.returnStmt t.pos (some x))] :=
        .prefixed rfl ⟨inside.1, by rw [key]; rfl⟩ rfl rfl rfl .nil
          (value.seats placed lexical inside.2)
      exact seats
  | @branch t key =>
      have member : t ∈ tokens := inside (by simp)
      exact .leaf rfl member (isInline_of_isBranch key) rfl (placed t member).symm rfl
  | @load a b c d ts label bindings key opening kind value symbols closing =>
      simp only [List.cons_subset, List.append_subset] at inside
      have last : d ∈ tokens ∧ d.kind.isInline = true := ⟨inside.2.2.2.2.1, by rw [closing]; rfl⟩
      have stop := Token.right_eq_stop (placed d last.1) (lexical d last.1 last.2) closing rfl
        (by decide) rfl
      have seats :
          Seats tokens (a :: (b :: c :: ts ++ [d])) [.bare (.load a.pos label .none bindings
          (.at d.pos) (a.pos.line == d.pos.line))] :=
        .bracketed rfl ⟨inside.1, by rw [key]; rfl⟩ last rfl stop .none
      exact seats
  | @assign e _ _ _ _ left _ right =>
      simp only [List.cons_subset, List.append_subset] at inside
      exact (left.seats placed lexical inside.1).joined (right.seats placed lexical inside.2.2) [e]
        true e.pos e.text
  | value plain => exact plain.seats placed lexical inside

theorem LineRest.seats {ts : List Token} {vs : List Node} (line : LineRest ts vs)
    (inside : ts ⊆ tokens) : Seats tokens ts vs := by
  induction line with
  | done | semi => exact .none
  | next _ first _ ih =>
      simp only [List.cons_subset, List.append_subset] at inside
      exact ((first.seats placed lexical inside.2.1).append (ih inside.2.2)).skip _

theorem StmtLine.seats {ts : List Token} {vs : List Node} (line : StmtLine ts vs)
    (inside : ts ⊆ tokens) : Seats tokens ts vs := by
  obtain ⟨first, more⟩ := line
  rw [List.append_subset] at inside
  exact (first.seats placed lexical inside.1).append (more.seats placed lexical inside.2)

end Small

/-! ## Trees in their places -/

/-- A form in its place: it reaches over its parts, which stand in order, and unless it has a body
or is a comment block it reaches from the start of a token to the end of one. -/
structure Form.Placed (tokens : List Token) (f : Form) : Prop where
  nests : Ordered f.start.offset (spansOf f.children) f.stop.offset
  ends : f.isInner = true → Token.StartsAt tokens f.start ∧ Token.StopsAt tokens f.stop

/-- A node in its place. A comment block stands at its first comment. -/
def Node.Placed (tokens : List Token) (v : Node) : Prop := v.Anchored ∧ v.form.Placed tokens

/-- A form in its place over parts that are in their places throughout. -/
def Form.AllPlaced (tokens : List Token) (f : Form) : Prop :=
  f.Placed tokens ∧ ∀ c ∈ f.children, c.Throughout (Node.Placed tokens)

section Placed

variable {tokens : List Token}

theorem Node.throughout_placed_iff {v : Node} :
    v.Throughout (Node.Placed tokens) ↔ v.Anchored ∧ v.form.AllPlaced tokens := by
  rw [throughout_iff, Node.Placed, Form.AllPlaced, and_assoc]
  rfl

theorem Form.allPlaced_commentBlock (p : Position) : (commentBlock p).AllPlaced tokens :=
  ⟨⟨Nat.le_refl _, nofun⟩, nofun⟩

/-- Expressions in their places are in them throughout. -/
theorem Node.placed_of_seated {v : Node} (seated : v.Throughout fun u => u.form.Seated tokens) :
    v.Throughout (Node.Placed tokens) := by
  intro x member
  obtain ⟨inner, nests, starts, stops⟩ := seated x member
  have statement : x.node.isCommentBlock = false := by
    unfold Form.isInner at inner
    rw [Bool.and_eq_true, Bool.not_eq_true', Bool.not_eq_true'] at inner
    exact inner.2
  exact ⟨anchored_of_statement statement, nests, fun _ => ⟨starts, stops⟩⟩

/-- A statement with a body is in its place when its trail is in order. -/
theorem Form.allPlaced_of_trail {f : Form} {lo hi : Nat} (block : f.isBlock = true)
    (ordered : Ordered lo f.trail hi)
    (parts : ∀ c ∈ f.children, c.Throughout (Node.Placed tokens)) :
    f.AllPlaced tokens := by
  obtain ⟨_, _, _, nests⟩ := f.reach_of_trail lo hi ordered
  refine ⟨⟨nests block, fun inner => ?_⟩, parts⟩
  rw [isInner, block] at inner
  cases inner

/-- Statements in their places are kept when comments move. -/
theorem keeps_allPlaced {vs : List Node} :
    Block.Keeps (Form.AllPlaced tokens) vs ↔ ∀ v ∈ vs, v.Throughout (Node.Placed tokens) :=
  forall₂_congr fun _ _ => Node.throughout_placed_iff.symm

/-- Cutting comments off the end of a statement leaves it in its place. -/
theorem Form.AllPlaced.onLastBody {f f' : Form} {cut : List Node} (placed : f.AllPlaced tokens)
    {lo hi : Nat} (ordered : Ordered lo f.trail hi) (hangs : f.Hangs)
    (split : f.onLastBody Block.cutBody = some (f', cut)) :
    f'.AllPlaced tokens ∧ Block.Keeps (AllPlaced tokens) cut := by
  have apart {body stays cut : List Node} (split : Block.cutBody body = (stays, cut))
      (each : ∀ v ∈ body, v.Throughout (Node.Placed tokens)) :
      (∀ v ∈ stays, v.Throughout (Node.Placed tokens)) ∧ Block.Keeps (AllPlaced tokens) cut := by
    have kept := (keeps_allPlaced.mpr each).cutBody allPlaced_commentBlock
    rw [split] at kept
    exact ⟨keeps_allPlaced.mp kept.1, kept.2⟩
  obtain ⟨mid, trail, _⟩ := ordered_append.mp (traces_onLastBody hangs split lo hi ordered)
  obtain ⟨own, parts⟩ := placed
  fun_induction Form.onLastBody Block.cutBody f generalizing f' cut lo hi mid with
  | case1 p n q params r s body l stays cut' same =>
      cases split
      obtain ⟨header, lines⟩ := List.forall_mem_append.mp parts
      obtain ⟨stay, gone⟩ := apart same lines
      exact ⟨allPlaced_of_trail rfl trail (List.forall_mem_append.mpr ⟨header, stay⟩), gone⟩
  | case2 p vars x body stays cut' same =>
      cases split
      simp only [children, List.forall_mem_cons] at parts
      obtain ⟨stay, gone⟩ := apart same parts.2.2
      refine ⟨allPlaced_of_trail rfl trail ?_, gone⟩
      exact List.forall_mem_cons.mpr ⟨parts.1, List.forall_mem_cons.mpr ⟨parts.2.1, stay⟩⟩
  | case3 p cond yesBody e stays cut' same =>
      cases split
      simp only [children, List.forall_mem_cons, List.append_nil] at parts
      obtain ⟨stay, gone⟩ := apart same parts.2
      refine ⟨allPlaced_of_trail rfl trail ?_, gone⟩
      simpa [children] using ⟨parts.1, stay⟩
  | case4 p cond yesBody e comments p' cond' yesBody' e' noBody' ih =>
      rw [Option.map_eq_some_iff] at split
      obtain ⟨⟨inner, cut'⟩, inside, same⟩ := split
      cases same
      rcases hangs with settled | ⟨_, hangs⟩
      · obtain rfl := settled _ _ inside
        rw [onLastBody_of_nil inside rfl]
        exact ⟨⟨own, parts⟩, List.forall_mem_nil _⟩
      · simp only [children, List.forall_mem_cons, List.forall_mem_append] at parts
        obtain ⟨test, yes, branch, _⟩ := parts
        obtain ⟨_, own', parts'⟩ := Node.throughout_placed_iff.mp branch
        rw [Form.trail, marksOf_cons, Node.marks] at ordered
        simp only [ordered_cons, ordered_append] at ordered
        obtain ⟨_, _, _, _, _, _, ⟨_, within, _⟩, _⟩ := ordered
        obtain ⟨mid', trail', later⟩ :=
          ordered_append.mp (traces_onLastBody hangs inside _ _ within)
        obtain ⟨branch, gone⟩ := ih within hangs inside mid' trail' later own' parts'
        refine ⟨allPlaced_of_trail rfl trail ?_, gone⟩
        simp only [children, List.forall_mem_cons, List.forall_mem_append]
        refine ⟨test, yes, Node.throughout_placed_iff.mpr ⟨?_, branch⟩, List.forall_mem_nil _⟩
        obtain ⟨_, _, rfl⟩ := isIf_of_onLastBody inside
        exact Node.anchored_of_statement rfl
  | case5 p cond yesBody e noBody _ _ stays cut' same =>
      cases split
      simp only [children, List.forall_mem_cons, List.forall_mem_append] at parts
      obtain ⟨stay, gone⟩ := apart same parts.2.2
      refine ⟨allPlaced_of_trail rfl trail ?_, gone⟩
      simp only [children, List.forall_mem_cons, List.forall_mem_append]
      exact ⟨parts.1, parts.2.1, stay⟩
  | case6 => cases split

end Placed

/-! ## Nothing is cut off twice -/

theorem Node.Inert.isBlock {v : Node} (inert : v.Inert) : v.form.isBlock = false := by
  have none := inert.bodies
  cases form : v.form <;> first | rfl | (rw [form] at none; cases none)

theorem Form.hangs_of_settled {p : Position} {cond : Node} {yesBody noBody : List Node} {e : Close}
    (each : ∀ v ∈ noBody, v.form.Settled) : (ifStmt p cond yesBody e noBody).Hangs := by
  unfold Hangs
  split
  next found =>
    cases found
    exact .inl (each _ (List.mem_singleton_self _))
  next found =>
    cases found
    exact each
  next => trivial

/-- What is cut off an `if` hangs below the last of its branches. -/
theorem Reader.hangs_ifStmt {arms : List Reader.Arm} {e : Close} {body : List Node}
    (last : ∀ v ∈ body, v.form.Settled) (a : Reader.Arm) :
    (a.ifStmt (Reader.nested e body arms).1 (Reader.nested e body arms).2).form.Hangs := by
  induction arms generalizing a with
  | nil => exact Form.hangs_of_settled last
  | cons b arms ih => exact .inr ⟨rfl, ih b⟩

/-- A reading as far as comments can be cut off it: statements in a row have been cut, and a
statement that has not been has none below it. -/
def Reading.Settled : Reading → Prop
  | .suite s => ∀ v ∈ s.body, v.form.Settled
  | .compound stmt => stmt.1.comments.after = [] ∧ stmt.1.form.Hangs
  | .arms _ => True
  | .lines entries => ∀ f ∈ entries.flatMap Entry.forms, f.Settled

theorem Node.settled_splitTrailing {v : Node} (hangs : v.form.Hangs) :
    v.splitTrailing.1.form.Settled := by
  unfold splitTrailing
  split
  next split => exact Form.settled_of_onLastBody hangs split
  next none =>
    intro f' cut split
    rw [none] at split
    cases split

/-- What is read has been cut wherever it can be. -/
theorem Builds.settled {types : Bool} {ts : List Token} {r : Reading} (builds : Builds types ts r) :
    r.Settled := by
  have blocks : ∀ p, (Form.commentBlock p).Settled := fun p => Form.settled_of_not_isBlock rfl
  have line {ts : List Token} {vs : List Node} (line : StmtLine ts vs) : ∀ v ∈ vs, v.form.Settled :=
    fun v member => Form.settled_of_not_isBlock (line.stmts.2.1 v member).isBlock
  induction builds with
  | lineSuite first => exact line first
  | blockSuite _ above _ _ _ ih =>
      show ∀ v ∈ _, Form.Settled _
      rw [forall_form_iff blocks, Block.formsOf_precede, Block.formsOf_ofEntries,
        Block.formsOf_ofEntries, above.forms_eq]
      exact ih
  | define | loop => exact ⟨rfl, trivial⟩
  | choice => exact ⟨rfl, Reader.hangs_ifStmt (List.forall_mem_nil _) _⟩
  | choiceElse _ _ _ _ _ _ _ _ _ _ last => exact ⟨rfl, Reader.hangs_ifStmt last _⟩
  | noArm | arm => trivial
  | noLine => exact nofun
  | blank _ _ ih | remark _ _ _ ih => exact ih
  | compound _ _ first more =>
      show ∀ f ∈ List.flatMap _ (_ :: _), _
      rw [List.flatMap_cons, Reader.forms_blockGroup]
      refine List.forall_mem_append.mpr ⟨(forall_form_iff blocks).mp ?_, more⟩
      simpa using Node.settled_splitTrailing first.2
  | stmts first _ ih =>
      exact List.forall_mem_append.mpr ⟨(forall_form_iff blocks).mp (line first), ih⟩

/-! ## Statements in their places -/

theorem marksOf_of_inert {vs : List Node} (inert : ∀ v ∈ vs, v.Inert) :
    marksOf vs = spansOf vs := by
  induction vs with
  | nil => simp
  | cons v vs ih =>
      obtain ⟨first, others⟩ := List.forall_mem_cons.mp inert
      have none := first.remarks
      rw [Node.remarks_eq, Comments.toList] at none
      have bare : v.comments.after = [] := by simp_all
      rw [marksOf_cons, Node.marks_eq, Form.trail_of_not_isBlock first.isBlock, bare, ih others]
      simp [startsOf]

theorem CommentLines.traces {ts : List Token} {entries : List Entry}
    (lines : CommentLines ts entries) :
    Traces (entries.flatMap Entry.marks) (placesOf ts) := by
  refine .of_sublist ?_
  induction lines with
  | none => exact .refl _
  | blank _ _ ih => exact (ih.cons _).cons _
  | remark _ _ _ ih => exact (((ih.cons _).cons _).cons _).cons_cons _

theorem CommentLines.nodes_eq {ts : List Token} {entries : List Entry}
    (lines : CommentLines ts entries) : entries.flatMap Entry.nodes = [] := by
  induction lines with
  | none => rfl
  | blank _ _ ih | remark _ _ _ ih => exact ih

/-- The offsets of a branch. -/
def Reader.Arm.marks (a : Reader.Arm) : List Nat :=
  a.pos.offset :: (spansOf [a.cond] ++ marksOf a.suite.body)

theorem Reader.marks_ifStmt (a : Reader.Arm) (e : Close) (body : List Node) :
    (a.ifStmt e body).form.trail = a.marks ++ marksOf body := by
  simp [Arm.ifStmt, Arm.marks, Form.trail]

theorem Reader.marksOf_nested (e : Close) (body : List Node) (arms : List Reader.Arm) :
    marksOf (Reader.nested e body arms).2 = arms.flatMap Arm.marks ++ marksOf body := by
  induction arms with
  | nil => rfl
  | cons a arms ih =>
      rw [Reader.nested, List.flatMap_cons, List.append_assoc, ← ih,
        ← marks_ifStmt a (Reader.nested e body arms).1]
      simp [Node.marks_eq, Arm.ifStmt, Comments.ofSuffix, startsOf]

namespace Reading

/-- The offsets of a reading. -/
def marks : Reading → List Nat
  | .suite s => marksOf s.body
  | .compound stmt => stmt.1.form.trail
  | .arms all => all.flatMap Reader.Arm.marks
  | .lines entries => entries.flatMap Entry.marks

/-- A reading whose nodes are in their places. -/
def Placed (tokens : List Token) : Reading → Prop
  | .suite s => ∀ v ∈ s.body, v.Throughout (Node.Placed tokens)
  | .compound stmt => stmt.1.Throughout (Node.Placed tokens)
  | .arms all => ∀ a ∈ all, a.cond.Throughout (Node.Placed tokens) ∧
      ∀ v ∈ a.suite.body, v.Throughout (Node.Placed tokens)
  | .lines entries => ∀ v ∈ entries.flatMap Entry.nodes, v.Throughout (Node.Placed tokens)

end Reading

section Read

variable {tokens : List Token}

/-- Nodes that stand where some tokens do and have no comments are in their places. -/
theorem Seats.placed {ts : List Token} {vs : List Node} (seats : Seats tokens ts vs)
    {lo hi : Nat} (row : Ordered lo (placesOf ts) hi) :
    Ordered lo (spansOf vs) hi ∧ ∀ v ∈ vs, v.Throughout (Node.Placed tokens) := by
  obtain ⟨ordered, each⟩ := seats lo hi row
  exact ⟨ordered, fun v member => Node.placed_of_seated (each v member)⟩

theorem Node.Anchored.trimmed {v : Node} {f : Form} (anchored : v.Anchored)
    (trimmed : v.form.Trimmed f) : (Node.mk v.comments f).Anchored := by
  generalize whole : v.form = g at trimmed
  cases trimmed with
  | same =>
      intro p same
      exact anchored p (whole.trans same)
  | define | loop | yes | no | arm => exact Node.anchored_of_statement rfl

/-- The comment blocks cut off the end of a statement stand behind it. -/
theorem Reader.placed_blockGroup {stmt : Reader.Ended} {lo hi : Nat}
    (bare : stmt.1.comments.after = []) (hangs : stmt.1.form.Hangs)
    (ordered : Ordered lo stmt.1.form.trail hi) (placed : stmt.1.Throughout (Node.Placed tokens)) :
    Ordered lo (Reader.blockGroup stmt).marks hi ∧
      ∀ v ∈ (Reader.blockGroup stmt).nodes, v.Throughout (Node.Placed tokens) := by
  obtain ⟨anchored, all⟩ := Node.throughout_placed_iff.mp placed
  have split : Ordered lo (marksOf (stmt.1.splitTrailing.1 :: stmt.1.splitTrailing.2)) hi ∧
      ∀ v ∈ stmt.1.splitTrailing.1 :: stmt.1.splitTrailing.2,
        v.Throughout (Node.Placed tokens) := by
    unfold Node.splitTrailing
    split
    next f cut split =>
      obtain ⟨stays, gone⟩ := all.onLastBody ordered hangs split
      refine ⟨?_, List.forall_mem_cons.mpr ⟨?_, keeps_allPlaced.mp gone⟩⟩
      · simpa [Node.marks_eq, bare, startsOf] using
          Form.traces_onLastBody hangs split lo hi ordered
      · exact Node.throughout_placed_iff.mpr
          ⟨anchored.trimmed (Form.trimmed_of_onLastBody split).1, stays⟩
    next => simpa [Node.marks_eq, bare, startsOf] using ⟨ordered, placed⟩
  unfold Reader.blockGroup
  split
  next v found =>
    rw [found] at split
    exact split
  next v cut _ found =>
    rw [found] at split
    exact split

/-- A statement with a body is in its place with its parts. -/
theorem Node.throughout_placed_of_trail {c : Comments} {f : Form} {lo hi : Nat}
    (block : f.isBlock = true) (ordered : Ordered lo f.trail hi)
    (parts : ∀ v ∈ f.children, v.Throughout (Node.Placed tokens)) :
    (Node.mk c f).Throughout (Node.Placed tokens) := by
  have statement : f.isCommentBlock = false := by cases f <;> first | rfl | cases block
  exact throughout_placed_iff.mpr
    ⟨anchored_of_statement statement, Form.allPlaced_of_trail block ordered parts⟩

/-- The branches of an `if` are in their places when they stand in order. -/
theorem Reader.placed_nested {e : Close} {body : List Node} {arms : List Reader.Arm} {lo hi : Nat}
    (last : ∀ v ∈ body, v.Throughout (Node.Placed tokens))
    (each : (Reading.arms arms).Placed tokens)
    (ordered : Ordered lo (arms.flatMap Arm.marks ++ marksOf body) hi) :
    ∀ v ∈ (nested e body arms).2, v.Throughout (Node.Placed tokens) := by
  induction arms generalizing lo with
  | nil => exact last
  | cons a arms ih =>
      obtain ⟨⟨test, yes⟩, others⟩ := List.forall_mem_cons.mp each
      rw [List.flatMap_cons, List.append_assoc] at ordered
      obtain ⟨_, _, rest⟩ := ordered_append.mp ordered
      rw [← marksOf_nested e, ← marks_ifStmt a (nested e body arms).1] at ordered
      have parts : ∀ v ∈ (a.ifStmt (nested e body arms).1 (nested e body arms).2).form.children,
          v.Throughout (Node.Placed tokens) := by
        simp only [Arm.ifStmt, Node.form_mk, Form.children, List.forall_mem_cons,
          List.forall_mem_append]
        exact ⟨test, yes, ih others rest⟩
      exact List.forall_mem_singleton.mpr (Node.throughout_placed_of_trail rfl ordered parts)

/-- An `if` with its branches is in its place, and its offsets are those of its branches. -/
theorem Reader.placed_ifStmt {a : Reader.Arm} {e : Close} {body : List Node}
    {arms : List Reader.Arm} {lo hi : Nat} (last : ∀ v ∈ body, v.Throughout (Node.Placed tokens))
    (each : (Reading.arms (a :: arms)).Placed tokens)
    (ordered : Ordered lo (a.marks ++ (arms.flatMap Arm.marks ++ marksOf body)) hi) :
    let v := a.ifStmt (nested e body arms).1 (nested e body arms).2
    Ordered lo v.form.trail hi ∧ v.Throughout (Node.Placed tokens) := by
  refine ⟨by rwa [marks_ifStmt, marksOf_nested], ?_⟩
  rw [← List.append_assoc, ← List.flatMap_cons] at ordered
  exact placed_nested last each ordered _ (List.mem_singleton_self _)

/-- A branch is in order if its body is, its condition standing before that. -/
theorem Reader.placed_arm {a b : Token} {cs ts : List Token} {cond : Node} {s : Reader.Suite}
    (test : Seats tokens cs [cond])
    (body : ∀ {lo hi : Nat}, Ordered lo (placesOf ts) hi →
      Ordered lo (marksOf s.body) hi ∧ ∀ v ∈ s.body, v.Throughout (Node.Placed tokens))
    {lo hi : Nat} (row : Ordered lo (placesOf (a :: (cs ++ b :: ts))) hi) :
    Ordered lo (Arm.marks ⟨a.pos, cond, s⟩) hi ∧ cond.Throughout (Node.Placed tokens) ∧
      ∀ v ∈ s.body, v.Throughout (Node.Placed tokens) := by
  simp only [Token.placesOf_append, Token.placesOf_cons, ordered_append, ordered_cons] at row
  obtain ⟨low, _, mid, left, _, _, rest⟩ := row
  obtain ⟨first, cond⟩ := test.placed left
  obtain ⟨second, lines⟩ := body rest
  refine ⟨⟨low, ordered_append.mpr ⟨mid, first.mono (by omega) (Nat.le_refl _), ?_⟩⟩, ?_, lines⟩
  · exact second.mono (by omega) (Nat.le_refl _)
  · exact cond _ (List.mem_singleton_self _)

end Read

/-- What tokens in a row are read as stands where they do. -/
theorem Builds.placed {tokens : List Token} (placed : ∀ t ∈ tokens, t.stop = t.pos.add t.text)
    (lexical : LexicalTokens tokens) {types : Bool} {ts : List Token} {r : Reading}
    (builds : Builds types ts r) (inside : ts ⊆ tokens) {lo hi : Nat}
    (row : Ordered lo (placesOf ts) hi) : Ordered lo r.marks hi ∧ r.Placed tokens := by
  have line {ts : List Token} {vs : List Node} (line : StmtLine ts vs) (inside : ts ⊆ tokens)
      {lo hi : Nat} (row : Ordered lo (placesOf ts) hi) :
      Ordered lo (marksOf vs) hi ∧ ∀ v ∈ vs, v.Throughout (Node.Placed tokens) := by
    rw [marksOf_of_inert line.stmts.2.1]
    exact (line.seats placed lexical inside).placed row
  have part {p : Phrase} {ts : List Token} {vs : List Node} (spells : Spells p ts vs)
      (inside : ts ⊆ tokens) {lo hi : Nat} (row : Ordered lo (placesOf ts) hi) :
      Ordered lo (spansOf vs) hi ∧ ∀ v ∈ vs, v.Throughout (Node.Placed tokens) :=
    (spells.seats placed lexical inside).placed row
  induction builds generalizing lo hi with
  | lineSuite first => exact line first inside row
  | @blockSuite a b hs ls ts header leading entries _ above _ _ _ ih =>
      simp only [List.cons_subset, List.append_subset] at inside
      obtain ⟨_, _, within, _⟩ := inside
      simp only [Token.placesOf_append, Token.placesOf_cons, ordered_append, ordered_cons] at row
      obtain ⟨top, ⟨_, start, comments⟩, opens, opened, mid, lines, closes, closed, last⟩ := row
      obtain ⟨body, each⟩ := ih within lines
      have blocks : ∀ p, (Form.commentBlock p).AllPlaced tokens := Form.allPlaced_commentBlock
      have front : Block.Keeps (Form.AllPlaced tokens) (Block.ofEntries leading).nodes := by
        refine Block.keeps_ofEntries blocks ?_
        rw [above.nodes_eq]
        exact List.forall_mem_nil _
      have back := Block.keeps_ofEntries blocks (keeps_allPlaced.mpr each)
      refine ⟨?_, keeps_allPlaced.mp (front.precede back)⟩
      refine Block.traces_precede _ _ _ _ (ordered_append.mpr ⟨top, ?_, ?_⟩)
      · exact Block.traces_ofEntries _ _ _
          (above.traces _ _ (comments.mono start.le (Nat.le_refl _)))
      · refine Block.traces_ofEntries _ _ _ (body.mono ?_ ?_)
        · exact Nat.le_trans opens opened
        · exact Nat.le_trans closes (Nat.le_trans closed last)
  | @define a t b c d ps ts params s _ _ _ parts _ colon _ ih =>
      simp only [List.cons_subset, List.append_subset] at inside
      obtain ⟨_, _, _, inner, _, member, within⟩ := inside
      simp only [Token.placesOf_append, Token.placesOf_cons, ordered_append, ordered_cons] at row
      obtain ⟨low, _, _, _, _, _, mid, header, _, _, _, _, rest⟩ := row
      obtain ⟨names, each⟩ := part parts inner header
      obtain ⟨body, lines⟩ := ih within rest
      have stop :=
        Token.right_eq_stop (placed d member) (lexical d member (by rw [colon]; rfl)) colon
        rfl (by decide) rfl
      have trail : Ordered lo (a.pos.offset :: (spansOf params ++ d.pos.right.offset ::
          marksOf s.body)) hi := by
        rw [stop]
        exact ⟨low, ordered_append.mpr ⟨mid, names.mono (by omega) (Nat.le_refl _), by omega, body⟩⟩
      exact ⟨trail,
        Node.throughout_placed_of_trail rfl trail (List.forall_mem_append.mpr ⟨each, lines⟩)⟩
  | @loop a b c vs xs ts vars x s _ bound _ range _ _ ih =>
      simp only [List.cons_subset, List.append_subset] at inside
      obtain ⟨_, inner, _, inner', _, within⟩ := inside
      simp only [Token.placesOf_append, Token.placesOf_cons, ordered_append, ordered_cons] at row
      obtain ⟨low, _, mid, left, _, _, mid', right, _, _, rest⟩ := row
      obtain ⟨first, targets⟩ := part bound inner left
      obtain ⟨second, source⟩ := part range inner' right
      obtain ⟨body, lines⟩ := ih within rest
      have trail :
          Ordered lo (a.pos.offset :: (spansOf [vars] ++ (spansOf [x] ++ marksOf s.body))) hi := by
        refine ⟨low, ordered_append.mpr ⟨mid, first.mono (by omega) (Nat.le_refl _), ?_⟩⟩
        refine ordered_append.mpr ⟨mid', second.mono (by omega) (Nat.le_refl _), ?_⟩
        exact body.mono (by omega) (Nat.le_refl _)
      refine ⟨trail, Node.throughout_placed_of_trail rfl trail ?_⟩
      exact List.forall_mem_append.mpr ⟨targets, List.forall_mem_append.mpr ⟨source, lines⟩⟩
  | @choice a b cs ts us cond s arms _ test _ _ _ body more =>
      simp only [List.cons_subset, List.append_subset] at inside
      obtain ⟨_, inner, _, within, later⟩ := inside
      have row : Ordered lo (placesOf ((a :: (cs ++ b :: ts)) ++ us)) hi := by simpa using row
      rw [Token.placesOf_append, ordered_append] at row
      obtain ⟨mid, front, back⟩ := row
      obtain ⟨first, here⟩ :=
        Reader.placed_arm (test.seats placed lexical inner) (body within) front
      obtain ⟨rest, others⟩ := more later back
      refine Reader.placed_ifStmt (List.forall_mem_nil _)
        (List.forall_mem_cons.mpr ⟨here, others⟩) ?_
      rw [marksOf_nil, List.append_nil]
      exact ordered_append.mpr ⟨mid, first, rest⟩
  | @choiceElse a b e c cs ts us vs cond s s' arms _ test _ _ _ _ _ _ body more last =>
      simp only [List.cons_subset, List.append_subset] at inside
      obtain ⟨_, inner, _, ⟨within, later⟩, _, _, behind⟩ := inside
      have row : Ordered lo (placesOf ((a :: (cs ++ b :: ts)) ++ (us ++ e :: c :: vs))) hi := by
        simpa using row
      simp only [Token.placesOf_append (a :: _), Token.placesOf_append us, ordered_append] at row
      obtain ⟨mid, front, mid', back, otherwise⟩ := row
      obtain ⟨first, here⟩ :=
        Reader.placed_arm (test.seats placed lexical inner) (body within) front
      obtain ⟨rest, others⟩ := more later back
      simp only [Token.placesOf_cons, ordered_cons] at otherwise
      obtain ⟨lines, each⟩ := last behind otherwise.2.2.2.2
      refine Reader.placed_ifStmt each (List.forall_mem_cons.mpr ⟨here, others⟩) ?_
      refine ordered_append.mpr ⟨mid, first, ordered_append.mpr ⟨mid', rest, ?_⟩⟩
      exact lines.mono (by omega) (Nat.le_refl _)
  | noArm => exact ⟨row, List.forall_mem_nil _⟩
  | @arm a b cs ts us cond s arms _ test _ _ _ body more =>
      simp only [List.cons_subset, List.append_subset] at inside
      obtain ⟨_, inner, _, within, later⟩ := inside
      have row : Ordered lo (placesOf ((a :: (cs ++ b :: ts)) ++ us)) hi := by simpa using row
      rw [Token.placesOf_append, ordered_append] at row
      obtain ⟨mid, front, back⟩ := row
      obtain ⟨first, here⟩ :=
        Reader.placed_arm (test.seats placed lexical inner) (body within) front
      obtain ⟨rest, others⟩ := more later back
      exact ⟨ordered_append.mpr ⟨mid, first, rest⟩, List.forall_mem_cons.mpr ⟨here, others⟩⟩
  | noLine => exact ⟨row, List.forall_mem_nil _⟩
  | blank _ _ ih =>
      simp only [Token.placesOf_cons, ordered_cons] at row
      exact ih (List.subset_of_cons_subset inside) (row.2.2.mono (by omega) (Nat.le_refl _))
  | @remark c t _ _ _ _ _ ih =>
      simp only [List.cons_subset] at inside
      simp only [Token.placesOf_cons, ordered_cons] at row
      obtain ⟨low, inner, behind, ends, rest⟩ := row
      obtain ⟨lines, each⟩ := ih inside.2.2 rest
      have below : c.comment.start.offset ≤ t.stop.offset := by
        show c.pos.offset ≤ _
        omega
      exact ⟨⟨low, lines.mono below (Nat.le_refl _)⟩, each⟩
  | @compound ts us stmt entries built _ first more =>
      rw [List.append_subset] at inside
      rw [Token.placesOf_append, ordered_append] at row
      obtain ⟨mid, front, back⟩ := row
      obtain ⟨trail, all⟩ := first inside.1 front
      obtain ⟨lines, each⟩ := more inside.2 back
      obtain ⟨bare, hangs⟩ := built.settled
      obtain ⟨group, nodes⟩ := Reader.placed_blockGroup bare hangs trail all
      exact ⟨ordered_append.mpr ⟨mid, group, lines⟩, List.forall_mem_append.mpr ⟨nodes, each⟩⟩
  | stmts first _ ih =>
      rw [List.append_subset] at inside
      rw [Token.placesOf_append, ordered_append] at row
      obtain ⟨mid, front, back⟩ := row
      obtain ⟨group, nodes⟩ := line first inside.1 front
      obtain ⟨lines, each⟩ := ih inside.2 back
      exact ⟨ordered_append.mpr ⟨mid, group, lines⟩, List.forall_mem_append.mpr ⟨nodes, each⟩⟩

end Starlark
