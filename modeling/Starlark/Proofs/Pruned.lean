import Starlark.Proofs.Block.Forms
import Starlark.Proofs.Plain
import Starlark.Proofs.Source

/-!
# Trees without comment blocks

`Node.plain` takes the comments off a tree, but leaves the comment blocks, which
are statements, in their places. `Node.swept` takes these away, too. What both
leave of some statements depends only on their forms (`prunedList_eq`), so it is
the same before and after comments have been moved to and fro (`Form.Trimmed.pruned_eq`).

A node is quiet if there is nothing to take away from it. Lines of quiet nodes
are put together without a change.
-/

set_option autoImplicit false

namespace Starlark

mutual

/-- The node without the comment blocks in its bodies. -/
def Node.swept : Node → Node
  | .mk c f => .mk c f.swept

/-- The form without the comment blocks in its bodies. -/
def Form.swept : Form → Form
  | .defStmt p n q params r s body l => .defStmt p n q params r s (sweptList body) l
  | .forStmt p vars x body => .forStmt p vars x (sweptList body)
  | .ifStmt p cond yesBody e noBody => .ifStmt p cond (sweptList yesBody) e (sweptList noBody)
  | f => f

/-- The statements without the comment blocks among them and in their bodies. -/
def sweptList : List Node → List Node
  | [] => []
  | v :: rest => if v.isCommentBlock then sweptList rest else v.swept :: sweptList rest

end

/-- The form without comments and comment blocks inside it. -/
def Form.pruned (f : Form) : Form := f.plain.swept

/-- The statements without comments and comment blocks. -/
def prunedList (vs : List Node) : List Node := sweptList (plainList vs)

@[simp] theorem prunedList_nil : prunedList [] = [] := rfl

@[simp] theorem Form.isCommentBlock_plain (f : Form) :
    f.plain.isCommentBlock = f.isCommentBlock := by
  cases f <;> rfl

@[simp] theorem Form.isCommentBlock_pruned (f : Form) :
    f.pruned.isCommentBlock = f.isCommentBlock := by
  cases f <;> rfl

theorem Node.swept_plain (v : Node) : v.plain.swept = .bare v.form.pruned := by
  obtain ⟨_, _⟩ := v
  rfl

theorem prunedList_cons (v : Node) (vs : List Node) :
    prunedList (v :: vs) =
      if v.isCommentBlock then prunedList vs else .bare v.form.pruned :: prunedList vs := by
  obtain ⟨_, f⟩ := v
  rw [prunedList, plainList, sweptList, Node.swept_plain]
  simp only [Node.isCommentBlock, Node.plain, Node.form_mk, Form.isCommentBlock_plain]
  rfl

/-- Only the forms of statements count. -/
theorem prunedList_eq (vs : List Node) :
    prunedList vs = (formsOf vs).map fun f => .bare f.pruned := by
  induction vs with
  | nil => rfl
  | cons v vs ih =>
      rw [prunedList_cons, formsOf_cons, Node.statement?]
      split
      · exact ih
      · exact congrArg _ ih

theorem prunedList_congr {vs ws : List Node} (same : formsOf vs = formsOf ws) :
    prunedList vs = prunedList ws := by
  rw [prunedList_eq, prunedList_eq, same]

@[simp] theorem Form.pruned_defStmt (p : Position) (name : String) (q : Position)
    (params : List Node) (r s : Position) (body : List Node) (layout : Layout) :
    (Form.defStmt p name q params r s body layout).pruned =
      .defStmt p name q (plainList params) r s (prunedList body) layout := rfl

@[simp] theorem Form.pruned_forStmt (p : Position) (vars x : Node) (body : List Node) :
    (Form.forStmt p vars x body).pruned = .forStmt p vars.plain x.plain (prunedList body) := rfl

@[simp] theorem Form.pruned_ifStmt (p : Position) (cond : Node) (yesBody : List Node) (e : Close)
    (noBody : List Node) :
    (Form.ifStmt p cond yesBody e noBody).pruned =
      .ifStmt p cond.plain (prunedList yesBody) e.plain (prunedList noBody) := rfl

/-- Comments at the end of a body do not count. -/
theorem Form.Trimmed.pruned_eq {f g : Form} (trimmed : f.Trimmed g) : g.pruned = f.pruned := by
  induction trimmed with
  | same f => rfl
  | define forms | loop forms | yes forms | no forms => simp [prunedList_congr forms]
  | @arm p cond yesBody e c f f' _ ih =>
      have block := congrArg Form.isCommentBlock ih
      simp only [Form.isCommentBlock_pruned] at block
      have single : prunedList [.mk c f'] = prunedList [.mk c f] := by
        cases kind : f.isCommentBlock <;>
          simp [prunedList_cons, Node.isCommentBlock, block, ih, kind]
      simp [single]

/-- Cutting comments off a statement does not change what is left of it without comments. -/
theorem Reader.pruned_blockGroup (stmt : Reader.Ended) :
    (Reader.blockGroup stmt).forms.map Form.pruned = (formsOf [stmt.1]).map Form.pruned := by
  have pruned := stmt.1.splitTrailing_trimmed.1.pruned_eq
  have block := congrArg Form.isCommentBlock pruned
  simp only [Form.isCommentBlock_pruned] at block
  rw [Reader.forms_blockGroup, formsOf_cons, formsOf_cons, Node.statement?, Node.statement?,
    Node.isCommentBlock, Node.isCommentBlock, block]
  split
  · rfl
  · simp [pruned]

/-! ## Nodes with nothing to take away -/

/-- A statement without comments and comment blocks, on it and inside it. -/
structure Node.Quiet (v : Node) : Prop where
  pruned : .bare v.form.pruned = v
  statement : v.isCommentBlock = false

namespace Node.Quiet

variable {v : Node}

theorem comments (quiet : v.Quiet) : v.comments = .none := by
  rw [← quiet.pruned]
  rfl

theorem form (quiet : v.Quiet) : v.form.pruned = v.form := congrArg Node.form quiet.pruned

theorem mapComments (quiet : v.Quiet) {change : Comments → Comments}
    (same : change .none = .none) : v.mapComments change = v := by
  obtain ⟨c, f⟩ := v
  have none : c = .none := quiet.comments
  subst none
  rw [Node.mapComments, Node.comments, same, Node.form]

/-- Expressions are quiet. -/
theorem of_inert (inert : v.Inert) : v.Quiet where
  pruned := by
    have plain := v.plain_eq_self inert.remarks
    have swept : ∀ f : Form, f.bodies = [] → f.swept = f := by
      intro f bodies
      cases f <;> first | rfl | cases bodies
    rw [← swept_plain, plain]
    obtain ⟨c, f⟩ := v
    rw [Node.swept, swept f inert.bodies]
  statement := inert.statement

end Node.Quiet

theorem prunedList_of_quiet {vs : List Node} (quiet : ∀ v ∈ vs, v.Quiet) : prunedList vs = vs := by
  induction vs with
  | nil => rfl
  | cons v vs ih =>
      obtain ⟨here, others⟩ := List.forall_mem_cons.mp quiet
      rw [prunedList_cons, here.statement, ih others, here.pruned]
      rfl

/-- Statements that pruning leaves as they are are quiet. -/
theorem quiet_of_prunedList {vs : List Node} (same : prunedList vs = vs) : ∀ v ∈ vs, v.Quiet := by
  induction vs with
  | nil => exact fun v member => nomatch member
  | cons v vs ih =>
      rw [prunedList_cons] at same
      split at same
      · -- a list without its first element is not the list
        have shorter : (prunedList vs).length ≤ vs.length := by
          rw [prunedList_eq, List.length_map]
          exact List.length_filterMap_le _ _
        rw [same, List.length_cons] at shorter
        omega
      next statement =>
        obtain ⟨here, others⟩ := List.cons.inj same
        exact List.forall_mem_cons.mpr ⟨⟨here, eq_false_of_ne_true statement⟩, ih others⟩

namespace Block

/-- No comment blocks are cut off a quiet body. -/
theorem cutBody_of_quiet {body : List Node} (quiet : ∀ v ∈ body, v.Quiet) :
    cutBody body = (body, []) := by
  cases parts : body.reverse with
  | nil => rw [List.reverse_eq_nil_iff.mp parts, cutBody]
  | cons last rest =>
      have whole : body = rest.reverse ++ [last] := by
        rw [← List.reverse_reverse body, parts, List.reverse_cons]
      have here : last.Quiet := quiet last (by simp [whole])
      have none : ∀ column, cutAfter column last = ([], []) := by
        intro column
        rw [cutAfter, here.comments]
        rfl
      unfold cutBody
      split
      · rfl
      next first more =>
        simp [here.statement, cutTail, none, cutBlocks, whole]

end Block

/-- A quiet statement has no comments at its end. -/
theorem Form.onLastBody_of_quiet {f : Form} (quiet : f.pruned = f) :
    ∀ r ∈ f.onLastBody Block.cutBody, r = (f, []) := by
  have whole {body stays cut : List Node} (same : prunedList body = body)
      (split : Block.cutBody body = (stays, cut)) : stays = body ∧ cut = [] := by
    rw [Block.cutBody_of_quiet (quiet_of_prunedList same)] at split
    exact ⟨(Prod.mk.inj split).1.symm, (Prod.mk.inj split).2.symm⟩
  intro r found
  fun_induction Form.onLastBody Block.cutBody f generalizing r with
  | case1 p n q params r s body l stays cut' same =>
      simp only [pruned_defStmt, defStmt.injEq, true_and, and_true] at quiet
      obtain ⟨rfl, rfl⟩ := whole quiet.2 same
      simpa using found.symm
  | case2 p vars x body stays cut' same =>
      simp only [pruned_forStmt, forStmt.injEq, true_and] at quiet
      obtain ⟨rfl, rfl⟩ := whole quiet.2.2 same
      simpa using found.symm
  | case3 p cond yesBody e stays cut' same =>
      simp only [pruned_ifStmt, ifStmt.injEq, true_and] at quiet
      obtain ⟨rfl, rfl⟩ := whole quiet.2.1 same
      simpa using found.symm
  | case4 p cond yesBody e comments p' cond' yesBody' e' noBody' ih =>
      simp only [pruned_ifStmt, ifStmt.injEq, true_and] at quiet
      have inner := (quiet_of_prunedList quiet.2.2.2 _ (.head _)).form
      rw [Option.mem_map] at found
      obtain ⟨⟨g, cut⟩, inside, rfl⟩ := found
      cases ih inner _ inside
      rfl
  | case5 p cond yesBody e noBody _ _ stays cut' same =>
      simp only [pruned_ifStmt, ifStmt.injEq, true_and] at quiet
      obtain ⟨rfl, rfl⟩ := whole quiet.2.2.2 same
      simpa using found.symm
  | case6 => cases found

/-- A quiet statement is a group of its own. -/
theorem Reader.blockGroup_of_quiet {v : Node} (quiet : v.Quiet) (followed : Bool) :
    Reader.blockGroup (v, followed) = .group [v] true := by
  have split : v.splitTrailing = (v, []) := by
    unfold Node.splitTrailing
    split
    next f cut found =>
      cases Form.onLastBody_of_quiet quiet.form _ found
      obtain ⟨_, _⟩ := v
      rfl
    · rfl
  rw [Reader.blockGroup, split]

/-! ## Lines of quiet nodes -/

/-- A blank line, or a line of quiet nodes. -/
def Entry.Quiet : Entry → Prop
  | .blank => True
  | .remark _ => False
  | .group vs _ => ∀ v ∈ vs, v.Quiet

namespace Block

/-- A block stays quiet when a quiet line is added. -/
theorem add_of_quiet {b : Block} {e : Entry} (quiet : ∀ v ∈ b.rev, v.Quiet) (line : e.Quiet) :
    ∀ v ∈ (b.add e).rev, v.Quiet := by
  cases e with
  | blank => exact quiet
  | remark c => exact line.elim
  | group vs followed =>
      -- no comments wait below the last statement
      have waiting : release b.rev = ([], b.rev) := by
        cases rev : b.rev with
        | nil => rfl
        | cons last rest =>
            have here : last.Quiet := quiet last (by simp [rev])
            rw [release, if_neg (by simp [here.statement]), here.mapComments rfl, here.comments]
            rfl
      have put : putBefore [] vs = vs := by
        cases vs with
        | nil => rfl
        | cons first rest => rw [putBefore, (line first (.head _)).mapComments rfl]
      have rev : (b.add (.group vs followed)).rev = vs.reverse ++ b.rev := by
        simp only [add, group, waiting, put]
        split <;> rfl
      rw [rev]
      intro v member
      obtain new | old := List.mem_append.mp member
      · exact line v (List.mem_reverse.mp new)
      · exact quiet v old

/-- So a block of quiet lines is quiet. -/
theorem ofEntries_of_quiet {entries : List Entry} (quiet : ∀ e ∈ entries, e.Quiet) :
    ∀ v ∈ (ofEntries entries).nodes, v.Quiet := by
  have folded : ∀ b : Block, (∀ v ∈ b.rev, v.Quiet) → ∀ v ∈ (entries.foldl add b).rev, v.Quiet := by
    induction entries with
    | nil => exact fun b here => here
    | cons e entries ih =>
        obtain ⟨first, others⟩ := List.forall_mem_cons.mp quiet
        exact fun b here => ih others _ (add_of_quiet here first)
  intro v member
  exact folded empty (fun v none => nomatch none) v (List.mem_reverse.mp member)

end Block

end Starlark
