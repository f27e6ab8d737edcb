import Starlark.Proofs.Block
import Starlark.Reader.Statement

/-!
# The statements of a block

Putting lines together, moving comments and cutting comments off the end of a
body change where comments stand. The statements stay what they are, in the
same order: `formsOf` lists their forms, comment blocks left out, and each
operation on blocks is described by what it does to this list.
-/

set_option autoImplicit false

namespace Starlark

/-- The form of a statement; none for a comment block. -/
def Node.statement? (v : Node) : Option Form := if v.isCommentBlock then none else some v.form

/-- The forms of some statements, comment blocks left out. -/
def formsOf (vs : List Node) : List Form := vs.filterMap Node.statement?

@[simp] theorem formsOf_nil : formsOf [] = [] := rfl

theorem formsOf_cons (v : Node) (vs : List Node) :
    formsOf (v :: vs) = v.statement?.toList ++ formsOf vs := by
  unfold formsOf
  rw [List.filterMap_cons]
  cases v.statement? <;> rfl

@[simp] theorem formsOf_append (vs ws : List Node) :
    formsOf (vs ++ ws) = formsOf vs ++ formsOf ws := List.filterMap_append

@[simp] theorem formsOf_reverse (vs : List Node) :
    formsOf vs.reverse = (formsOf vs).reverse := List.filterMap_reverse

theorem formsOf_of_blocks {vs : List Node} (blocks : ∀ v ∈ vs, v.isCommentBlock = true) :
    formsOf vs = [] := by
  rw [formsOf, List.filterMap_eq_nil_iff]
  intro v member
  rw [Node.statement?, if_pos (blocks v member)]

/-- What holds of every comment block holds of all nodes when it holds of the statements. -/
theorem forall_form_iff {P : Form → Prop} (blocks : ∀ p, P (.commentBlock p)) {vs : List Node} :
    (∀ v ∈ vs, P v.form) ↔ ∀ f ∈ formsOf vs, P f := by
  simp only [formsOf, List.mem_filterMap, Node.statement?]
  constructor
  · rintro all f ⟨v, member, same⟩
    split at same
    · cases same
    · rw [← Option.some.inj same]
      exact all v member
  · intro all v member
    by_cases block : v.isCommentBlock = true
    · obtain ⟨comments, f⟩ := v
      cases f <;> first | exact blocks _ | cases block
    · exact all v.form ⟨v, member, if_neg block⟩

@[simp] theorem Node.statement?_mapComments (f : Comments → Comments) (v : Node) :
    (v.mapComments f).statement? = v.statement? := rfl

@[simp] theorem Node.statement?_commentBlock (c : Comment) :
    (Node.commentBlock c).statement? = none := rfl

/-- The statements of a line. -/
def Entry.forms : Entry → List Form
  | .group nodes _ => formsOf nodes
  | _ => []

namespace Block

theorem formsOf_putBefore (waiting : List Comment) (vs : List Node) :
    formsOf (putBefore waiting vs) = formsOf vs := by
  cases vs with
  | nil => rfl
  | cons first rest => simp only [putBefore, formsOf_cons, Node.statement?_mapComments]

theorem formsOf_release (rev : List Node) : formsOf (release rev).2 = formsOf rev := by
  cases rev with
  | nil => rfl
  | cons last rest =>
      rw [release]
      split
      next block => simp [formsOf_cons, Node.statement?, block]
      next => simp only [formsOf_cons, Node.statement?_mapComments]

/-- An entry adds its forms at the end. -/
theorem formsOf_add (b : Block) (e : Entry) :
    formsOf (b.add e).nodes = formsOf b.nodes ++ e.forms := by
  cases e with
  | blank => simp [add, nodes, Entry.forms]
  | remark c =>
      simp only [add, remark, nodes, Entry.forms, formsOf_reverse, List.append_nil]
      split
      next rev _ => simp [rev, formsOf_cons]
      next => simp [formsOf_cons]
  | group vs followed =>
      simp only [add, group, nodes, Entry.forms]
      split <;> simp [formsOf_putBefore, formsOf_release]

/-- Putting lines together keeps their statements. -/
theorem formsOf_ofEntries (entries : List Entry) :
    formsOf (ofEntries entries).nodes = entries.flatMap Entry.forms := by
  have folded : ∀ b : Block, formsOf (entries.foldl add b).nodes =
      formsOf b.nodes ++ entries.flatMap Entry.forms := by
    induction entries with
    | nil => intro b; simp
    | cons e entries ih =>
        intro b
        rw [List.foldl_cons, ih, formsOf_add, List.flatMap_cons, List.append_assoc]
  rw [ofEntries, folded]
  rfl

/-- Putting comment lines in front of a body keeps its statements. -/
theorem formsOf_precede (leading : Block) (body : List Node) :
    formsOf (leading.precede body) = formsOf leading.nodes ++ formsOf body := by
  unfold precede
  split
  next last rest first more rev =>
    split
    next c block found =>
      split
      · have gone : last.statement? = none := by simp [Node.statement?, block]
        simp [formsOf_putBefore, nodes, rev, formsOf_cons, gone]
      · simp
    · simp
  · simp

/-- Cutting comment blocks gives comment blocks. -/
theorem formsOf_cutBlocks (column : Nat) {vs : List Node}
    (blocks : ∀ v ∈ vs, v.isCommentBlock = true) :
    (∀ v ∈ (cutBlocks column vs).1, v.isCommentBlock = true) ∧
      ∀ v ∈ (cutBlocks column vs).2, v.isCommentBlock = true := by
  induction vs with
  | nil => simp [cutBlocks]
  | cons v vs ih =>
      obtain ⟨here, others⟩ := List.forall_mem_cons.mp blocks
      unfold cutBlocks
      split
      · exact ⟨List.forall_mem_cons.mpr ⟨here, (ih others).1⟩, (ih others).2⟩
      · exact ⟨by simp, List.forall_mem_cons.mpr ⟨rfl, others⟩⟩
      · exact ⟨List.forall_mem_singleton.mpr here, List.forall_mem_cons.mpr ⟨rfl, others⟩⟩

/-- Cutting comments off the end of a body keeps its statements and cuts off
comment blocks only. -/
theorem formsOf_cutBody (body : List Node) :
    formsOf (cutBody body).1 = formsOf body ∧
      ∀ v ∈ (cutBody body).2, v.isCommentBlock = true := by
  unfold cutBody
  split
  · simp
  next first more =>
    split
    · simp
    next last rest found =>
      have split := congrArg List.reverse
        (List.takeWhile_append_dropWhile (p := Node.isCommentBlock) (l := (first :: more).reverse))
      rw [found, List.reverse_reverse, List.reverse_append, List.reverse_cons] at split
      have blocks : ∀ v ∈ ((first :: more).reverse.takeWhile Node.isCommentBlock).reverse,
          v.isCommentBlock = true := by
        intro v member
        exact List.mem_takeWhile_imp (List.mem_reverse.mp member)
      have whole : formsOf (first :: more) = formsOf rest.reverse ++ last.statement?.toList := by
        rw [← split, formsOf_append, formsOf_append, formsOf_of_blocks blocks, formsOf_cons]
        simp
      unfold cutTail
      rw [whole]
      split
      · obtain ⟨stays, cut⟩ := formsOf_cutBlocks first.start.column blocks
        refine ⟨?_, cut⟩
        simp only [formsOf_append, formsOf_cons, formsOf_of_blocks stays, List.append_nil]
      · refine ⟨?_, List.forall_mem_cons.mpr ⟨rfl, blocks⟩⟩
        simp only [formsOf_append, formsOf_cons, formsOf_nil, Node.statement?_mapComments,
          List.append_nil]

end Block

/-! ## Statements with a body -/

namespace Form

/-- The second form is the first one with the comments of its last body
rearranged or taken away. -/
inductive Trimmed : Form → Form → Prop
  | same (f : Form) : Trimmed f f
  | define {p q r s : Position} {name : String} {params body body' : List Node} {layout : Layout}
      (forms : formsOf body' = formsOf body) :
      Trimmed (.defStmt p name q params r s body layout) (.defStmt p name q params r s body' layout)
  | loop {p : Position} {vars x : Node} {body body' : List Node}
      (forms : formsOf body' = formsOf body) :
      Trimmed (.forStmt p vars x body) (.forStmt p vars x body')
  | yes {p : Position} {cond : Node} {body body' : List Node} {e : Close}
      (forms : formsOf body' = formsOf body) :
      Trimmed (.ifStmt p cond body e []) (.ifStmt p cond body' e [])
  | no {p : Position} {cond : Node} {yesBody body body' : List Node} {e : Close}
      (forms : formsOf body' = formsOf body) (some' : body ≠ []) :
      Trimmed (.ifStmt p cond yesBody e body) (.ifStmt p cond yesBody e body')
  | arm {p : Position} {cond : Node} {yesBody : List Node} {e : Close} {c : Comments}
      {f f' : Form} (inner : Trimmed f f') :
      Trimmed (.ifStmt p cond yesBody e [.mk c f]) (.ifStmt p cond yesBody e [.mk c f'])

/-- Cutting the last body of a form trims it by comment blocks. -/
theorem trimmed_of_onLastBody {f f' : Form} {cut : List Node}
    (split : f.onLastBody Block.cutBody = some (f', cut)) :
    f.Trimmed f' ∧ ∀ v ∈ cut, v.isCommentBlock = true := by
  have shorter {body stays cut : List Node} (split : Block.cutBody body = (stays, cut)) :
      formsOf stays = formsOf body ∧ ∀ v ∈ cut, v.isCommentBlock = true := by
    have kept := Block.formsOf_cutBody body
    rw [split] at kept
    exact kept
  fun_induction Form.onLastBody Block.cutBody f generalizing f' cut with
  | case1 p n q params r s body l stays cut' same =>
      cases split
      exact ⟨.define (shorter same).1, (shorter same).2⟩
  | case2 p vars x body stays cut' same =>
      cases split
      exact ⟨.loop (shorter same).1, (shorter same).2⟩
  | case3 p cond yesBody e stays cut' same =>
      cases split
      exact ⟨.yes (shorter same).1, (shorter same).2⟩
  | case4 p cond yesBody e comments p' cond' yesBody' e' noBody' ih =>
      rw [Option.map_eq_some_iff] at split
      obtain ⟨⟨inner, cut'⟩, inside, same⟩ := split
      cases same
      obtain ⟨trimmed, blocks⟩ := ih inside
      exact ⟨.arm trimmed, blocks⟩
  | case5 p cond yesBody e noBody some' _ stays cut' same =>
      cases split
      exact ⟨.no (shorter same).1 some', (shorter same).2⟩
  | case6 => cases split

end Form

/-- A statement without the comments at its end has the same statements inside, and the
rest are comment blocks. -/
theorem Node.splitTrailing_trimmed (v : Node) :
    v.form.Trimmed v.splitTrailing.1.form ∧ ∀ u ∈ v.splitTrailing.2, u.isCommentBlock = true := by
  unfold Node.splitTrailing
  split
  next f cut split => exact Form.trimmed_of_onLastBody split
  next => exact ⟨.same _, by simp⟩

/-- A statement with a body leaves its form, with the end of its body cut off. -/
theorem Reader.forms_blockGroup (stmt : Reader.Ended) :
    (Reader.blockGroup stmt).forms = formsOf [stmt.1.splitTrailing.1] := by
  have blocks := stmt.1.splitTrailing_trimmed.2
  unfold Reader.blockGroup
  split
  next v split => simp [Entry.forms, split]
  next v cut _ split =>
    rw [split] at blocks ⊢
    simp only [Entry.forms, formsOf_cons, formsOf_of_blocks blocks, formsOf_nil]

end Starlark
