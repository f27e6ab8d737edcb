import Starlark.Proofs.Span.Block

/-!
# Comments that leave a body

The comments at the end of a body hang below its last statement and below the
comment blocks behind that statement. Read one after another they are one row
of lines, and `Node.splitTrailing` cuts this row before the first line that
stands left of the body: the lines before the cut stay where they are, the
others leave the statement in comment blocks (`Block.CutsAt`).

The body in question is the one that closes the statement. `Form.Closes` says
which one that is, by its place in the statement, and `Curtails` says what may
happen to the end of a body: a shorter row of comments below one node, and
nothing behind it.

A statement that has been cut is not cut again, with one exception. Where the
cut leaves an `if` alone in the branch of an `else`, the two read as an
`elif`, and the body that closes the statement is now one of that `if`.
-/

set_option autoImplicit false

namespace Starlark

/-! ## The body that closes a statement -/

namespace Form

/-- Whether a form is an `if`. -/
def isIf : Form → Bool
  | .ifStmt .. => true
  | _ => false

/-- `Closes body put`: the body closes the statement `put body`, and `put` puts another one in its
place. An `if` standing alone in the branch of an `else` is an `elif`. -/
inductive Closes : List Node → (List Node → Form) → Prop
  | define (p : Position) (name : String) (q : Position) (params : List Node) (r s : Position)
      (layout : Layout) (body : List Node) :
      Closes body fun body => .defStmt p name q params r s body layout
  | loop (p : Position) (vars x : Node) (body : List Node) :
      Closes body fun body => .forStmt p vars x body
  | yes (p : Position) (cond : Node) (e : Close) (body : List Node) :
      Closes body fun body => .ifStmt p cond body e []
  | no (p : Position) (cond : Node) (yesBody : List Node) (e : Close) {body : List Node}
      (some' : body ≠ []) (other : ∀ v, body = [v] → v.form.isIf = false) :
      Closes body fun body => .ifStmt p cond yesBody e body
  | arm (p : Position) (cond : Node) (yesBody : List Node) (e : Close) (comments : Comments)
      {body : List Node} {put : List Node → Form} (inner : Closes body put)
      (arm : (put body).isIf = true) :
      Closes body fun body => .ifStmt p cond yesBody e [.mk comments (put body)]

theorem exists_of_isIf {f : Form} (isIf : f.isIf = true) :
    ∃ p cond yesBody e noBody, f = .ifStmt p cond yesBody e noBody := by
  cases f <;> first | exact ⟨_, _, _, _, _, rfl⟩ | cases isIf

section OnLastBody

variable {α : Type} {change : List Node → List Node × α}

theorem onLastBody_arm {p : Position} {cond : Node} {yesBody : List Node} {e : Close}
    {comments : Comments} {f : Form} (arm : f.isIf = true) :
    (ifStmt p cond yesBody e [.mk comments f]).onLastBody change =
      (f.onLastBody change).map fun (g, a) =>
        (.ifStmt p cond yesBody e [.mk comments g], a) := by
  obtain ⟨p', cond', yesBody', e', noBody', rfl⟩ := exists_of_isIf arm
  rw [onLastBody]

theorem onLastBody_else {p : Position} {cond : Node} {yesBody noBody : List Node} {e : Close}
    (some' : noBody ≠ []) (other : ∀ v, noBody = [v] → v.form.isIf = false) :
    (ifStmt p cond yesBody e noBody).onLastBody change =
      some (.ifStmt p cond yesBody e (change noBody).1, (change noBody).2) := by
  rw [onLastBody]
  · exact some'
  · intro c p' cond' yesBody' e' noBody' same
    cases other _ same

end OnLastBody

namespace Closes

variable {body : List Node} {put : List Node → Form}

/-- A change of the last body takes place in the body that closes the statement, and nowhere
else. -/
theorem onLastBody_eq {α : Type} (closes : Closes body put)
    (change : List Node → List Node × α) :
    (put body).onLastBody change = some (put (change body).1, (change body).2) := by
  induction closes with
  | define | loop | yes => rfl
  | no p cond yesBody e some' other => exact onLastBody_else some' other
  | arm p cond yesBody e comments inner arm ih =>
      rw [onLastBody_arm arm, ih]
      rfl

theorem isIf_put (closes : Closes body put) (isIf : (put body).isIf = true)
    (body' : List Node) : (put body').isIf = true := by
  cases closes with
  | define | loop => cases isIf
  | yes | no | arm => rfl

/-- Another body in the place of the one that closes a statement closes it too, unless it is an
`if` alone in the branch of an `else`: then the body that closes that `if` does. -/
theorem again_or (closes : Closes body put) {body' : List Node} (some' : body' ≠ []) :
    Closes body' put ∨ ∃ v, body' = [v] ∧ v.form.isIf = true ∧
      ∀ {α : Type} (change : List Node → List Node × α),
        ((put body').onLastBody change).map (·.2) = (v.form.onLastBody change).map (·.2) := by
  induction closes with
  | define | loop | yes =>
      refine .inl ?_
      constructor
  | no p cond yesBody e _ _ =>
      by_cases lone : ∃ v, body' = [v] ∧ v.form.isIf = true
      · obtain ⟨v, rfl, isIf⟩ := lone
        refine .inr ⟨v, rfl, isIf, fun change => ?_⟩
        obtain ⟨comments, f⟩ := v
        show ((ifStmt p cond yesBody e [.mk comments f]).onLastBody change).map (·.2) = _
        rw [onLastBody_arm (show f.isIf = true from isIf), Option.map_map]
        rfl
      · refine .inl (.no p cond yesBody e some' fun v same => ?_)
        simpa using fun isIf => lone ⟨v, same, isIf⟩
  | @arm p cond yesBody e comments body put inner arm ih =>
      have arm' := inner.isIf_put arm body'
      rcases ih with closes' | ⟨v, same, isIf, second⟩
      · exact .inl (.arm p cond yesBody e comments closes' arm')
      · refine .inr ⟨v, same, isIf, fun change => ?_⟩
        rw [onLastBody_arm arm', Option.map_map, ← second]
        rfl

end Closes

theorem exists_closes {f g : Form} {body : List Node}
    (found : (f.onLastBody fun body => (body, body)) = some (g, body)) :
    ∃ put, f = put body ∧ Closes body put := by
  fun_induction onLastBody (fun body => (body, body)) f generalizing g with
  | case1 p name q params r s body' layout stays a same =>
      cases found
      cases same
      exact ⟨_, rfl, .define p name q params r s layout body⟩
  | case2 p vars x body' stays a same =>
      cases found
      cases same
      exact ⟨_, rfl, .loop p vars x body⟩
  | case3 p cond yesBody e stays a same =>
      cases found
      cases same
      exact ⟨_, rfl, .yes p cond e body⟩
  | case4 p cond yesBody e comments p' cond' yesBody' e' noBody' ih =>
      obtain ⟨⟨inner, body'⟩, inside, same⟩ := Option.map_eq_some_iff.mp found
      cases same
      obtain ⟨put, form, closes⟩ := ih inside
      refine ⟨_, congrArg (fun f => ifStmt p cond yesBody e [.mk comments f]) form,
        .arm p cond yesBody e comments closes ?_⟩
      rw [← form]
      rfl
  | case5 p cond yesBody e noBody some' other stays a same =>
      cases found
      cases same
      refine ⟨_, rfl, .no p cond yesBody e some' fun v same => ?_⟩
      obtain ⟨comments, f⟩ := v
      cases f <;> first | rfl | exact (other _ _ _ _ _ _ same).elim
  | case6 => cases found

end Form

/-! ## What becomes of the end of a body -/

/-- The comments below some nodes, one after another. -/
def commentsBelow (vs : List Node) : List Comment := vs.flatMap (·.comments.after)

@[simp] theorem commentsBelow_cons (v : Node) (vs : List Node) :
    commentsBelow (v :: vs) = v.comments.after ++ commentsBelow vs := rfl

/-- The nodes at the end of a body lose the comments from some line on: the node with this line
keeps the comments before it, and the nodes behind go away. A comment block goes away itself when
none of its comments is left. -/
inductive Curtails : List Node → List Node → Prop
  | nil : Curtails [] []
  | cons (v : Node) {vs stays : List Node} (rest : Curtails vs stays) :
      Curtails (v :: vs) (v :: stays)
  | short (v : Node) (vs : List Node) {kept lost : List Comment}
      (split : v.comments.after = kept ++ lost) (some' : lost ≠ []) :
      Curtails (v :: vs) [v.mapComments fun c => { c with after := kept }]
  | gone {v : Node} (vs : List Node) (block : v.isCommentBlock = true)
      (some' : v.comments.after ≠ []) : Curtails (v :: vs) []

namespace Block

/-- The nodes at the end of a body are cut at a column: the row of the comments below them is cut
before the first one left of the column, and what is cut off comes as comment blocks. -/
structure CutsAt (column : Nat) (vs stays cut : List Node) : Prop where
  kept : commentsBelow stays = (commentsBelow vs).takeWhile (!standsLeftOf column ·)
  moved : commentsBelow cut = (commentsBelow vs).dropWhile (!standsLeftOf column ·)
  blocks : ∀ u ∈ cut, u.isCommentBlock = true
  curtails : Curtails vs stays
  none : commentsBelow cut = [] → cut = [] ∧ stays = vs

section CutsAt

variable {column : Nat} {v : Node} {vs : List Node}

/-- All comments below a node stay, or they are cut before one that stands left of the column. -/
theorem cutAfter_cases (column : Nat) (v : Node) :
    (cutAfter column v).2 = [] ∧ (∀ c ∈ v.comments.after, (!standsLeftOf column c) = true) ∨
      ∃ kept c lost, v.comments.after = kept ++ c :: lost ∧
        (∀ x ∈ kept, (!standsLeftOf column x) = true) ∧ (!standsLeftOf column c) = false ∧
        cutAfter column v = (kept, c :: lost) := by
  generalize split : cutAfter column v = parts
  obtain ⟨kept, lost⟩ := parts
  have whole := cutAfter_append split
  rw [cutAfter, List.span_eq_takeWhile_dropWhile] at split
  obtain ⟨taken, dropped⟩ := Prod.mk.inj split
  have keep : ∀ x ∈ kept, (!standsLeftOf column x) = true := by
    intro x member
    rw [← taken] at member
    exact @List.mem_takeWhile_imp _ (!standsLeftOf column ·) _ _ member
  cases lost with
  | nil =>
      rw [List.append_nil] at whole
      exact .inl ⟨rfl, whole ▸ keep⟩
  | cons c lost =>
      refine .inr ⟨kept, c, lost, whole.symm, keep, ?_, rfl⟩
      have head := @List.head_dropWhile_not _ (!standsLeftOf column ·) v.comments.after
        (by rw [dropped]; simp)
      simpa only [dropped, List.head_cons] using head

/-- A block that stays whole stands before the cut. -/
theorem CutsAt.cons {stays cut : List Node}
    (keep : ∀ c ∈ v.comments.after, (!standsLeftOf column c) = true)
    (rest : CutsAt column vs stays cut) : CutsAt column (v :: vs) (v :: stays) cut where
  kept := by
    rw [commentsBelow_cons, commentsBelow_cons, List.takeWhile_append_of_pos keep, rest.kept]
  moved := by rw [commentsBelow_cons, List.dropWhile_append_of_pos keep, rest.moved]
  blocks := rest.blocks
  curtails := .cons v rest.curtails
  none := fun none => ⟨(rest.none none).1, by rw [(rest.none none).2]⟩

/-- Where the line of the cut hangs below the first node, all nodes behind it are cut off. -/
theorem CutsAt.here {stays : List Node} {kept lost : List Comment} {c : Comment}
    (split : v.comments.after = kept ++ c :: lost)
    (keep : ∀ x ∈ kept, (!standsLeftOf column x) = true) (left : (!standsLeftOf column c) = false)
    (blocks : ∀ u ∈ vs, u.isCommentBlock = true) (curtails : Curtails (v :: vs) stays)
    (rest : commentsBelow stays = kept) :
    CutsAt column (v :: vs) stays (.commentBlockOf (c :: lost) :: vs) where
  kept := by
    rw [rest, commentsBelow_cons, split, List.append_assoc, List.takeWhile_append_of_pos keep,
      List.cons_append, List.takeWhile_cons_of_neg (by simp [left]), List.append_nil]
  moved := by
    rw [commentsBelow_cons, commentsBelow_cons, split, List.append_assoc,
      List.dropWhile_append_of_pos keep, List.cons_append,
      List.dropWhile_cons_of_neg (by simp [left])]
    rfl
  blocks := List.forall_mem_cons.mpr ⟨rfl, blocks⟩
  curtails := curtails
  none := nofun

/-- Comment blocks are cut at the first comment left of the column. -/
theorem cutsAt_cutBlocks (column : Nat) {vs : List Node}
    (blocks : ∀ u ∈ vs, u.isCommentBlock = true) :
    CutsAt column vs (cutBlocks column vs).1 (cutBlocks column vs).2 := by
  induction vs with
  | nil => exact ⟨rfl, rfl, blocks, .nil, fun _ => ⟨rfl, rfl⟩⟩
  | cons v vs ih =>
      obtain ⟨block, blocks⟩ := List.forall_mem_cons.mp blocks
      rcases cutAfter_cases column v with ⟨none, keep⟩ | ⟨kept, c, lost, split, keep, left, cut⟩
      · rw [cutBlocks_cons_of_nil none]
        exact (ih blocks).cons keep
      · rw [cutBlocks, cut]
        cases kept with
        | nil => exact .here split keep left blocks (.gone vs block (by simp [split])) rfl
        | cons first kept =>
            exact .here split keep left blocks (.short v vs split (by simp)) (List.append_nil _)

/-- The last statement of a body stays, also when it loses all comments below it. -/
theorem cutsAt_cutTail (column : Nat) (v : Node) {vs : List Node}
    (blocks : ∀ u ∈ vs, u.isCommentBlock = true) :
    CutsAt column (v :: vs) (cutTail column v vs).1 (cutTail column v vs).2 := by
  rcases cutAfter_cases column v with ⟨none, keep⟩ | ⟨kept, c, lost, split, keep, left, cut⟩
  · rw [cutTail_of_nil none]
    exact (cutsAt_cutBlocks column blocks).cons keep
  · rw [cutTail, cut]
    exact .here split keep left blocks (.short v vs split (by simp)) (List.append_nil _)

end CutsAt

end Block

/-! ## Statements -/

namespace Node

variable {comments : Comments} {body : List Node} {put : List Node → Form}

/-- The body that closes a statement is found by its place in the statement. -/
theorem lastBody?_eq_some_iff {v : Node} :
    v.lastBody? = some body ↔ ∃ put, v.form = put body ∧ Form.Closes body put := by
  constructor
  · intro found
    obtain ⟨⟨f, body'⟩, inside, rfl⟩ := Option.map_eq_some_iff.mp found
    exact Form.exists_closes inside
  · rintro ⟨put, form, closes⟩
    rw [lastBody?, form, closes.onLastBody_eq]
    rfl

theorem splitTrailing_of_closes (closes : Form.Closes body put) :
    (Node.mk comments (put body)).splitTrailing =
      (.mk comments (put (Block.cutBody body).1), (Block.cutBody body).2) := by
  rw [splitTrailing, form_mk, closes.onLastBody_eq, comments_mk]

theorem splitTrailing_snd (v : Node) :
    v.splitTrailing.2 = ((v.form.onLastBody Block.cutBody).map (·.2)).getD [] := by
  unfold splitTrailing
  split
  next found => rw [found, Option.map_some, Option.getD_some]
  next found => rw [found, Option.map_none, Option.getD_none]

/-- What a statement with a body is cut into. The body is taken apart at its last statement, and
the column is the one where the body starts. -/
theorem splitTrailing_cutsAt {front blocks : List Node} {last : Node}
    (closes : Form.Closes (front ++ last :: blocks) put)
    (statement : last.isCommentBlock = false)
    (remarks : ∀ u ∈ blocks, u.isCommentBlock = true) :
    ∃ stays cut,
      (Node.mk comments (put (front ++ last :: blocks))).splitTrailing =
        (.mk comments (put (front ++ stays)), cut) ∧
      Block.CutsAt (firstStart .nowhere (front ++ last :: blocks)).column (last :: blocks)
        stays cut ∧
      (Form.Closes (front ++ stays) put →
        (Node.mk comments (put (front ++ stays))).splitTrailing.2 = []) ∧
      (¬ Form.Closes (front ++ stays) put →
        ∃ v, front ++ stays = [v] ∧ v.form.isIf = true ∧
          (Node.mk comments (put (front ++ stays))).splitTrailing.2 = v.splitTrailing.2) := by
  have starts : firstStart .nowhere (front ++ [last]) =
      firstStart .nowhere (front ++ last :: blocks) := by cases front <;> rfl
  have parts := @Block.cutBody_append last front blocks statement remarks
  have none := Block.cutBody_again (front ++ last :: blocks)
  have some' := @Block.cutBody_ne_nil (front ++ last :: blocks) (by simp)
  rw [starts] at parts
  rw [splitTrailing_of_closes closes]
  rw [parts] at none some' ⊢
  refine ⟨_, _, rfl, Block.cutsAt_cutTail _ last remarks, fun again => ?_, fun other => ?_⟩
  · rw [splitTrailing_of_closes again]
    exact none
  · rcases closes.again_or some' with again | ⟨v, same, isIf, second⟩
    · exact absurd again other
    · refine ⟨v, same, isIf, ?_⟩
      rw [splitTrailing_snd, splitTrailing_snd, form_mk, second]

/-- A loop whose last statement keeps one of the two comments below it. -/
theorem splitTrailing_cutsAt_loop :
    ∃ stays cut,
      (bare (.forStmt ⟨1, 1, 0⟩ (ident "x") (ident "y")
        [.mk (.ofAfter [⟨⟨3, 3, 20⟩, "# a"⟩, ⟨⟨4, 2, 25⟩, "# b"⟩]) (.branch "pass" ⟨2, 3, 13⟩),
          .commentBlock ⟨⟨6, 3, 31⟩, "# c"⟩])).splitTrailing =
        (bare (.forStmt ⟨1, 1, 0⟩ (ident "x") (ident "y") stays), cut) ∧
      commentsBelow stays = [⟨⟨3, 3, 20⟩, "# a"⟩] ∧
      commentsBelow cut = [⟨⟨4, 2, 25⟩, "# b"⟩, ⟨⟨6, 3, 31⟩, "# c"⟩] := by
  obtain ⟨stays, cut, split, cuts, _⟩ :=
    @splitTrailing_cutsAt .none _ [] [.commentBlock ⟨⟨6, 3, 31⟩, "# c"⟩]
      (.mk (.ofAfter [⟨⟨3, 3, 20⟩, "# a"⟩, ⟨⟨4, 2, 25⟩, "# b"⟩]) (.branch "pass" ⟨2, 3, 13⟩))
      (.loop ⟨1, 1, 0⟩ (ident "x") (ident "y") _) rfl (List.forall_mem_singleton.mpr rfl)
  exact ⟨stays, cut, split, cuts.kept.trans (by decide), cuts.moved.trans (by decide)⟩

/-- A cut statement may be cut again: without the comment block behind it, the `if` in the branch
of the `else` becomes an `elif`, and the comment below its own body stands left of that body. -/
theorem splitTrailing_again_elif :
    ¬ ∀ (comments : Comments) (put : List Node → Form) (front : List Node) (last : Node)
        (blocks : List Node), Form.Closes (front ++ last :: blocks) put →
      last.isCommentBlock = false → (∀ u ∈ blocks, u.isCommentBlock = true) →
        (Node.mk comments (put (front ++ last :: blocks))).splitTrailing.1.splitTrailing.2 =
          [] := by
  intro nothing
  have again := nothing .none _ []
    (bare (.ifStmt ⟨4, 5, 30⟩ (ident "b")
      [.mk (.ofAfter [⟨⟨6, 2, 50⟩, "# 1"⟩]) (.branch "pass" ⟨5, 9, 40⟩)] (.at .nowhere) []))
    [.commentBlock ⟨⟨7, 1, 60⟩, "# 2"⟩]
    (.no ⟨1, 1, 0⟩ (ident "a") [bare (.branch "pass" ⟨2, 5, 10⟩)] (.at ⟨3, 1, 20⟩)
      (by simp) (by simp))
    rfl (List.forall_mem_singleton.mpr rfl)
  cases again

end Node

end Starlark
