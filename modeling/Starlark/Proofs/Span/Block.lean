import Starlark.Proofs.Span

/-!
# Where the statements of a block stand

Putting lines together to a block, and cutting the comments off the end of a
body, move comments around. To follow them, a statement is seen as the row of
its marks: the offsets of its header, of the statements in its bodies, and of
the comments below it, in source order. Comments that move above a statement
leave the row, and a comment block stands at its first comment; otherwise
nothing in the row moves. So the marks of what comes out trace the marks of
what went in (`Traces`), and the places of statements are read off their marks
(`Form.reach_of_trail`).

Cutting twice cuts nothing more, so a statement that stands in a body gives up
no comments when the statement around it is cut (`Form.settled_of_onLastBody`).
-/

set_option autoImplicit false

namespace Starlark

/-! ## Rows that trace other rows -/

/-- The first row is in order wherever the second one is. -/
def Traces (xs ys : List Nat) : Prop := ∀ lo hi, Ordered lo ys hi → Ordered lo xs hi

namespace Traces

variable {xs xs' ys ys' zs : List Nat}

theorem refl (xs : List Nat) : Traces xs xs := fun _ _ => id

theorem trans (first : Traces xs ys) (second : Traces ys zs) : Traces xs zs :=
  fun lo hi ordered => first lo hi (second lo hi ordered)

theorem of_sublist (fewer : xs.Sublist ys) : Traces xs ys :=
  fun _ _ ordered => ordered.sublist fewer

theorem append (left : Traces xs ys) (right : Traces xs' ys') : Traces (xs ++ xs') (ys ++ ys') := by
  intro lo hi ordered
  rw [ordered_append] at ordered ⊢
  obtain ⟨mid, first, second⟩ := ordered
  exact ⟨mid, left lo mid first, right mid hi second⟩

theorem cons (x : Nat) (rest : Traces xs ys) : Traces (x :: xs) (x :: ys) := (refl [x]).append rest

/-- An offset may be named more than once. -/
theorem again (x : Nat) (xs : List Nat) : Traces (x :: x :: xs) (x :: xs) :=
  fun _ _ ordered => ⟨ordered.1, Nat.le_refl x, ordered.2⟩

end Traces

/-! ## The marks of statements -/

/-- Where some comments start. -/
def startsOf (cs : List Comment) : List Nat := cs.map fun c => c.start.offset

mutual

/-- The offsets of a node, of the statements in its bodies and of the comments
below them, in source order. -/
def Node.marks : Node → List Nat
  | .mk c f => f.trail ++ startsOf c.after

/-- The offsets of a form and of the statements in its bodies. -/
def Form.trail : Form → List Nat
  | .defStmt p _ _ params _ colon body _ =>
    p.offset :: (spansOf params ++ colon.right.offset :: marksOf body)
  | .forStmt p vars x body => p.offset :: (spansOf [vars, x] ++ marksOf body)
  | .ifStmt p cond yesBody _ noBody =>
    p.offset :: (spansOf [cond] ++ (marksOf yesBody ++ marksOf noBody))
  | f => [f.start.offset, f.stop.offset]

/-- The marks of some nodes. -/
def marksOf : List Node → List Nat
  | [] => []
  | v :: vs => v.marks ++ marksOf vs

end

@[simp] theorem marksOf_nil : marksOf [] = [] := by rw [marksOf]

@[simp] theorem marksOf_cons (v : Node) (vs : List Node) :
    marksOf (v :: vs) = v.marks ++ marksOf vs := by
  rw [marksOf]

@[simp] theorem marksOf_append (vs ws : List Node) :
    marksOf (vs ++ ws) = marksOf vs ++ marksOf ws := by
  induction vs with
  | nil => simp
  | cons v vs ih => simp [ih]

theorem Node.marks_eq (v : Node) : v.marks = v.form.trail ++ startsOf v.comments.after := by
  cases v
  rw [Node.marks, form_mk, comments_mk]

theorem Form.trail_of_not_isBlock {f : Form} (plain : f.isBlock = false) :
    f.trail = [f.start.offset, f.stop.offset] := by
  cases f <;> first | rfl | cases plain

/-- Nodes in a row end where the last of them does, or where what is before them does. -/
theorem Ordered.closes {lo hi : Nat} {d : Position} {body : List Node} (low : lo ≤ d.offset)
    (rest : Ordered d.offset (spansOf body) hi) :
    Ordered lo (spansOf body) ((Starlark.lastStop body).getD d).offset ∧
      ((Starlark.lastStop body).getD d).offset ≤ hi := by
  cases body with
  | nil => exact ⟨low, rest⟩
  | cons v vs =>
      obtain ⟨last, _, stop, upTo, high⟩ := rest.lastStop
      rw [stop, Option.getD_some]
      exact ⟨upTo.mono low (Nat.le_refl _), high⟩

mutual

/-- A node reaches no further than its marks. -/
theorem Node.traces_span : ∀ v : Node, Traces [v.start.offset, v.stop.offset] v.marks
  | .mk c f => by
    intro lo hi ordered
    rw [Node.marks, ordered_append] at ordered
    obtain ⟨mid, own, below⟩ := ordered
    obtain ⟨low, inner, high, _⟩ := f.reach_of_trail lo mid own
    rw [Node.start, Node.stop]
    exact ⟨low, inner, Nat.le_trans high below.le⟩

/-- A form reaches no further than its trail, and a statement with a body reaches over its
parts, which stand in order. -/
theorem Form.reach_of_trail : ∀ (f : Form) (lo hi : Nat), Ordered lo f.trail hi →
    lo ≤ f.start.offset ∧ f.start.offset ≤ f.stop.offset ∧ f.stop.offset ≤ hi ∧
      (f.isBlock = true → Ordered f.start.offset (spansOf f.children) f.stop.offset)
  | .defStmt p _ _ params _ colon body _ => by
    intro lo hi ordered
    rw [Form.trail, ordered_cons, ordered_append] at ordered
    obtain ⟨low, mid, header, upTo, rest⟩ := ordered
    obtain ⟨lines, high⟩ := Ordered.closes upTo (traces_spansOf body _ _ rest)
    have nests := ordered_append.mpr ⟨mid, header, lines⟩
    rw [← spansOf_append] at nests
    exact ⟨low, nests.le, high, fun _ => nests⟩
  | .forStmt p vars x body => by
    intro lo hi ordered
    rw [Form.trail, ordered_cons, ordered_append] at ordered
    obtain ⟨low, mid, ⟨first, bound, second, range, upTo⟩, rest⟩ := ordered
    have rest := (traces_spansOf body _ _ rest).mono upTo (Nat.le_refl _)
    obtain ⟨lines, high⟩ := Ordered.closes (Nat.le_refl _) rest
    have nests : Ordered p.offset (spansOf (vars :: x :: body)) _ :=
      ⟨first, bound, second, range, lines⟩
    exact ⟨low, nests.le, high, fun _ => nests⟩
  | .ifStmt p cond yesBody e noBody => by
    intro lo hi ordered
    rw [Form.trail, ordered_cons, ordered_append] at ordered
    obtain ⟨low, mid, ⟨first, test, upTo⟩, rest⟩ := ordered
    rw [ordered_append] at rest
    obtain ⟨between, yes, no⟩ := rest
    have yes := (traces_spansOf yesBody _ _ yes).mono upTo (Nat.le_refl _)
    obtain ⟨yesLines, inner⟩ := Ordered.closes (Nat.le_refl _) yes
    have no := (traces_spansOf noBody _ _ no).mono inner (Nat.le_refl _)
    obtain ⟨noLines, high⟩ := Ordered.closes (Nat.le_refl _) no
    have lines := ordered_append.mpr ⟨_, yesLines, noLines⟩
    rw [← spansOf_append] at lines
    have nests : Ordered p.offset (spansOf (cond :: (yesBody ++ noBody))) _ := ⟨first, test, lines⟩
    exact ⟨low, nests.le, high, fun _ => nests⟩
  | .ident .. | .literal .. | .string .. | .dot .. | .index .. | .slice .. | .unary .. | .binary ..
  | .conditional .. | .lambda .. | .call .. | .collection .. | .keyValue .. | .comprehension ..
  | .forClause .. | .ifClause .. | .paren .. | .returnStmt .. | .branch .. | .load ..
  | .commentBlock .. | .verbatim .. | .typed .. => by
    intro lo hi ordered
    rw [Form.trail_of_not_isBlock rfl] at ordered
    exact ⟨ordered.1, ordered.2.1, ordered.2.2, nofun⟩

/-- Nodes reach no further than their marks. -/
theorem traces_spansOf : ∀ vs : List Node, Traces (spansOf vs) (marksOf vs)
  | [] => by
    rw [spansOf_nil, marksOf_nil]
    exact .refl []
  | v :: vs => by
    rw [marksOf_cons]
    exact v.traces_span.append (traces_spansOf vs)

end

/-! ## Lines of a block -/

/-- The marks of one line. -/
def Entry.marks : Entry → List Nat
  | .blank => []
  | .remark c => [c.start.offset]
  | .group nodes _ => marksOf nodes

/-- The statements of one line. -/
def Entry.nodes : Entry → List Node
  | .group nodes _ => nodes
  | .blank | .remark _ => []

namespace Block

variable {b : Block}

@[simp] theorem marks_mapBefore (v : Node) (waiting : List Comment) :
    (v.mapComments fun c => { c with before := waiting }).marks = v.marks := by
  simp [Node.marks_eq]

theorem marksOf_putBefore (waiting : List Comment) (vs : List Node) :
    marksOf (putBefore waiting vs) = marksOf vs := by
  cases vs with
  | nil => rfl
  | cons v vs => simp [putBefore]

theorem sublist_release (rev : List Node) :
    (marksOf (release rev).2.reverse).Sublist (marksOf rev.reverse) := by
  cases rev with
  | nil => exact .refl _
  | cons last rest =>
      rw [release]
      split
      · simp
      · simp [Node.marks_eq, startsOf]

/-- One line more. -/
theorem traces_add (e : Entry) : Traces (marksOf (b.add e).nodes) (marksOf b.nodes ++ e.marks) := by
  cases e with
  | blank => simpa [add, nodes, Entry.marks] using Traces.refl (marksOf b.rev.reverse)
  | remark c =>
      simp only [add, remark]
      split
      next last rest rev _ =>
        have same : marksOf (nodes ⟨last.mapComments (·.pushAfter c) :: rest, true⟩) =
            marksOf b.nodes ++ Entry.marks (.remark c) := by
          simp [nodes, rev, Node.marks_eq, Comments.pushAfter, startsOf, Entry.marks]
        rw [same]
        exact .refl _
      next =>
        have same : marksOf (nodes ⟨.commentBlock c :: b.rev, true⟩) =
            marksOf b.nodes ++ [c.start.offset, c.start.offset, c.start.offset] := by
          simp [nodes, Node.commentBlock, Node.marks, Form.trail, Form.start, Form.stop, startsOf,
            Comments.ofAfter]
        rw [same]
        exact (Traces.refl _).append ((Traces.again _ _).trans (.again _ _))
  | group nodes followed =>
      simp only [add, group]
      split
      · simp only [Block.nodes, List.reverse_append, List.reverse_reverse, marksOf_append,
          marksOf_putBefore]
        exact (Traces.of_sublist (sublist_release b.rev)).append (.refl _)
      · simpa [Block.nodes, Entry.marks] using Traces.refl _

/-- The marks of a block trace those of its lines. -/
theorem traces_ofEntries (entries : List Entry) :
    Traces (marksOf (ofEntries entries).nodes) (entries.flatMap Entry.marks) := by
  have folded : ∀ b : Block, Traces (marksOf (entries.foldl add b).nodes)
      (marksOf b.nodes ++ entries.flatMap Entry.marks) := by
    induction entries with
    | nil => simpa using fun b : Block => Traces.refl (marksOf b.nodes)
    | cons e entries ih =>
        intro b
        rw [List.foldl_cons, List.flatMap_cons, ← List.append_assoc]
        exact (ih (b.add e)).trans ((traces_add e).append (.refl _))
  have all := folded empty
  rwa [show marksOf empty.nodes = [] from marksOf_nil, List.nil_append] at all

/-- Comments above a body are in order in front of it. -/
theorem traces_precede (leading : Block) (body : List Node) :
    Traces (marksOf (leading.precede body)) (marksOf leading.nodes ++ marksOf body) := by
  have appended :
      Traces (marksOf (leading.nodes ++ body)) (marksOf leading.nodes ++ marksOf body) := by
    rw [marksOf_append]
    exact .refl _
  unfold precede
  split
  next last rest first more rev =>
    split
    next c block found =>
      split
      · rw [marksOf_append, marksOf_putBefore]
        refine Traces.append (.of_sublist ?_) (.refl _)
        simp [nodes, rev]
      · exact appended
    · exact appended
  · exact appended

/-! ## Cutting the end of a body -/

/-- The marks of a comment block made of comments that are cut off. -/
theorem traces_commentBlockOf {cut : List Comment} (some' : cut ≠ []) :
    Traces (Node.commentBlockOf cut).marks (startsOf cut) := by
  obtain ⟨c, cs, rfl⟩ := List.exists_cons_of_ne_nil some'
  have same : (Node.commentBlockOf (c :: cs)).marks =
      c.start.offset :: c.start.offset :: startsOf (c :: cs) := by
    simp [Node.commentBlockOf, Node.marks, Form.trail, Form.start, Form.stop, Comments.ofAfter]
  rw [same]
  exact (Traces.again _ _).trans (.again _ _)

/-- A node that gives up the last of the comments below it. -/
theorem traces_withAfter {v : Node} {stays cut : List Comment}
    (split : stays ++ cut = v.comments.after) (some' : cut ≠ []) :
    Traces ((v.mapComments fun c => { c with after := stays }).marks ++
      (Node.commentBlockOf cut).marks) v.marks := by
  have whole : v.marks = (v.form.trail ++ startsOf stays) ++ startsOf cut := by
    rw [Node.marks_eq, ← split, startsOf, List.map_append, ← List.append_assoc]
    rfl
  rw [whole, Node.marks_eq]
  exact (Traces.refl _).append (traces_commentBlockOf some')

/-- Cutting comment blocks off statements leaves a row in order. -/
theorem traces_cutBlocks (column : Nat) (vs : List Node) :
    Traces (marksOf ((cutBlocks column vs).1 ++ (cutBlocks column vs).2)) (marksOf vs) := by
  induction vs with
  | nil => exact .refl _
  | cons v vs ih =>
      unfold cutBlocks
      split
      next => simpa using (Traces.refl v.marks).append ih
      next cut none split =>
        rw [List.nil_append, marksOf_cons, marksOf_cons]
        refine Traces.append ?_ (.refl _)
        have all := cutAfter_append split
        rw [List.nil_append] at all
        refine (traces_commentBlockOf none).trans (.of_sublist ?_)
        rw [Node.marks_eq, all]
        exact List.sublist_append_right _ _
      next stays cut none _ split =>
        have moved :=
          (traces_withAfter (cutAfter_append split) none).append (Traces.refl (marksOf vs))
        simpa using moved

theorem traces_cutTail (column : Nat) (v : Node) (blocks : List Node) :
    Traces (marksOf ((cutTail column v blocks).1 ++ (cutTail column v blocks).2))
      (marksOf (v :: blocks)) := by
  unfold cutTail
  split
  next => simpa using (Traces.refl v.marks).append (traces_cutBlocks column blocks)
  next stays cut none split =>
    have moved :=
      (traces_withAfter (cutAfter_append split) none).append (Traces.refl (marksOf blocks))
    simpa using moved

/-- The marks of a body that is cut in two trace those of the body. -/
theorem traces_cutBody (body : List Node) :
    Traces (marksOf ((cutBody body).1 ++ (cutBody body).2)) (marksOf body) := by
  unfold cutBody
  split
  next => exact .refl _
  next first more =>
    split
    next => simpa using Traces.refl (marksOf (first :: more))
    next last rest found =>
      have tail := traces_cutTail first.start.column last
        ((first :: more).reverse.takeWhile Node.isCommentBlock).reverse
      have whole := (Traces.refl (marksOf rest.reverse)).append tail
      rw [← marksOf_append, ← marksOf_append, ← (exists_last found).1, ← List.append_assoc] at whole
      exact whole

end Block

/-! ## Comment blocks stand at their first comment -/

/-- A comment block stands at the first of the comments below it. -/
def Node.Anchored (v : Node) : Prop :=
  ∀ p, v.form = .commentBlock p → v.comments.after.head?.map Comment.start = some p

theorem Node.anchored_of_statement {v : Node} (statement : v.isCommentBlock = false) :
    v.Anchored := by
  intro p block
  rw [Node.isCommentBlock, block] at statement
  cases statement

/-- The comments above a comment block, and later ones below it, do not matter. -/
theorem Node.Anchored.mapComments {v : Node} (anchored : v.Anchored) {change : Comments → Comments}
    (same : (change v.comments).after.head? = v.comments.after.head? ∨ v.isCommentBlock = false) :
    (v.mapComments change).Anchored := by
  rcases same with same | statement
  · intro p block
    rw [comments_mapComments, same]
    exact anchored p block
  · exact anchored_of_statement statement

theorem Node.Anchored.after_ne_nil {v : Node} (anchored : v.Anchored)
    (block : v.isCommentBlock = true) : v.comments.after ≠ [] := by
  obtain ⟨c, f⟩ := v
  cases f with
  | commentBlock p =>
      intro none
      have found := anchored p rfl
      rw [none] at found
      cases found
  | _ => cases block

namespace Block

/-- What is kept when comments move: comment blocks stand at their first comment, and forms are as
they were. -/
def Keeps (P : Form → Prop) (vs : List Node) : Prop := ∀ v ∈ vs, v.Anchored ∧ P v.form

section Keeps

variable {P : Form → Prop} (blocks : ∀ p, P (.commentBlock p)) {vs ws : List Node}

@[simp] theorem keeps_cons {v : Node} : Keeps P (v :: vs) ↔ (v.Anchored ∧ P v.form) ∧ Keeps P vs :=
  List.forall_mem_cons

@[simp] theorem keeps_append : Keeps P (vs ++ ws) ↔ Keeps P vs ∧ Keeps P ws :=
  List.forall_mem_append

@[simp] theorem keeps_reverse : Keeps P vs.reverse ↔ Keeps P vs := by simp [Keeps]

theorem Keeps.putBefore (keeps : Keeps P vs) (waiting : List Comment) :
    Keeps P (putBefore waiting vs) := by
  cases vs with
  | nil => exact keeps
  | cons v vs =>
      obtain ⟨⟨anchored, form⟩, others⟩ := keeps_cons.mp keeps
      exact keeps_cons.mpr ⟨⟨anchored.mapComments (.inl rfl), form⟩, others⟩

theorem Keeps.release (keeps : Keeps P vs) : Keeps P (release vs).2 := by
  cases vs with
  | nil => exact keeps
  | cons v vs =>
      obtain ⟨⟨anchored, form⟩, others⟩ := keeps_cons.mp keeps
      rw [Block.release]
      split
      next => exact others
      next statement =>
        refine keeps_cons.mpr ⟨⟨anchored.mapComments (.inr ?_), form⟩, others⟩
        exact Bool.eq_false_iff.mpr statement

include blocks

/-- Adding a comment to a block keeps what holds of its nodes. -/
theorem Keeps.remark {b : Block} (keeps : Keeps P b.rev) (c : Comment) :
    Keeps P (b.remark c).rev := by
  unfold Block.remark
  split
  next last rest rev _ =>
    rw [rev] at keeps
    obtain ⟨⟨anchored, form⟩, others⟩ := keeps_cons.mp keeps
    refine keeps_cons.mpr ⟨⟨anchored.mapComments ?_, form⟩, others⟩
    by_cases block : last.isCommentBlock = true
    · refine .inl ?_
      rw [Comments.pushAfter, List.head?_append_of_ne_nil _ (anchored.after_ne_nil block)]
    · exact .inr (Bool.eq_false_iff.mpr block)
  next =>
    refine keeps_cons.mpr ⟨⟨?_, blocks _⟩, keeps⟩
    intro p same
    cases same
    rfl

/-- So a block keeps what holds of the nodes of its lines, by induction on the lines. -/
theorem keeps_ofEntries {entries : List Entry} (each : Keeps P (entries.flatMap Entry.nodes)) :
    Keeps P (ofEntries entries).nodes := by
  have folded : ∀ b : Block, Keeps P b.rev → Keeps P (entries.foldl add b).rev := by
    induction entries with
    | nil => exact fun b keeps => keeps
    | cons e entries ih =>
        intro b keeps
        obtain ⟨new, others⟩ := keeps_append.mp each
        refine ih others (b.add e) ?_
        cases e with
        | blank => exact keeps
        | remark c => exact keeps.remark blocks c
        | group nodes followed =>
            simp only [add, group]
            split
            · exact keeps_append.mpr ⟨keeps_reverse.mpr (new.putBefore _), keeps.release⟩
            · exact keeps_append.mpr ⟨keeps_reverse.mpr new, keeps⟩
  exact keeps_reverse.mpr (folded empty (List.forall_mem_nil _))

omit blocks in
/-- Comments above a body keep what holds of both. -/
theorem Keeps.precede {leading : Block} {body : List Node} (front : Keeps P leading.nodes)
    (back : Keeps P body) : Keeps P (leading.precede body) := by
  have appended : Keeps P (leading.nodes ++ body) := keeps_append.mpr ⟨front, back⟩
  unfold Block.precede
  split
  next last rest first more rev =>
    split
    next =>
      split
      · refine keeps_append.mpr ⟨?_, back.putBefore _⟩
        rw [nodes, rev, List.reverse_cons, keeps_append] at front
        exact front.1
      · exact appended
    · exact appended
  · exact appended

theorem keeps_commentBlockOf {cut : List Comment} (some' : cut ≠ []) :
    (Node.commentBlockOf cut).Anchored ∧ P (Node.commentBlockOf cut).form := by
  obtain ⟨c, cs, rfl⟩ := List.exists_cons_of_ne_nil some'
  refine ⟨fun p same => ?_, blocks _⟩
  cases same
  rfl

theorem Keeps.cutBlocks (column : Nat) (keeps : Keeps P vs) :
    Keeps P (cutBlocks column vs).1 ∧ Keeps P (cutBlocks column vs).2 := by
  induction vs with
  | nil => exact ⟨keeps, keeps⟩
  | cons v vs ih =>
      obtain ⟨⟨anchored, form⟩, others⟩ := keeps_cons.mp keeps
      unfold Block.cutBlocks
      split
      next => exact ⟨keeps_cons.mpr ⟨⟨anchored, form⟩, (ih others).1⟩, (ih others).2⟩
      next cut none _ =>
        exact ⟨List.forall_mem_nil _, keeps_cons.mpr ⟨keeps_commentBlockOf blocks none, others⟩⟩
      next stays cut none some' split =>
        refine ⟨keeps_cons.mpr ⟨⟨anchored.mapComments (.inl ?_), form⟩, List.forall_mem_nil _⟩,
          keeps_cons.mpr ⟨keeps_commentBlockOf blocks none, others⟩⟩
        rw [← cutAfter_append split, List.head?_append_of_ne_nil _ some']

/-- Cutting comment blocks off a body keeps what holds of its nodes. -/
theorem Keeps.cutBody {body : List Node} (keeps : Keeps P body) :
    Keeps P (cutBody body).1 ∧ Keeps P (cutBody body).2 := by
  unfold Block.cutBody
  split
  next => exact ⟨keeps, keeps⟩
  next first more =>
    split
    next => exact ⟨keeps, List.forall_mem_nil _⟩
    next last rest found =>
      obtain ⟨whole, statement⟩ := exists_last found
      rw [whole, keeps_append, keeps_cons] at keeps
      obtain ⟨front, ⟨anchored, form⟩, tail⟩ := keeps
      unfold cutTail
      split
      next =>
        obtain ⟨stays, cut⟩ := tail.cutBlocks blocks first.start.column
        exact ⟨keeps_append.mpr ⟨front, keeps_cons.mpr ⟨⟨anchored, form⟩, stays⟩⟩, cut⟩
      next stays cut none _ =>
        refine ⟨keeps_append.mpr ⟨front, keeps_cons.mpr ⟨⟨?_, form⟩, List.forall_mem_nil _⟩⟩,
          keeps_cons.mpr ⟨keeps_commentBlockOf blocks none, tail⟩⟩
        exact anchored.mapComments (.inr statement)

end Keeps

/-! ## Cutting twice -/

section Twice

variable {column : Nat} {v : Node} {vs : List Node}

/-- Comments that stay stay again. -/
theorem cutAfter_again {stays cut : List Comment} (split : cutAfter column v = (stays, cut)) :
    (cutAfter column (v.mapComments fun c => { c with after := stays })).2 = [] := by
  rw [cutAfter, List.span_eq_takeWhile_dropWhile] at split
  cases split
  rw [cutAfter, List.span_eq_takeWhile_dropWhile, List.dropWhile_eq_nil_iff]
  intro c member
  exact @List.mem_takeWhile_imp _ (!standsLeftOf column ·) _ _ member

theorem cutBlocks_cons_of_nil (none : (cutAfter column v).2 = []) :
    cutBlocks column (v :: vs) = (v :: (cutBlocks column vs).1, (cutBlocks column vs).2) := by
  rw [cutBlocks]
  split
  next => rfl
  next cut other split =>
    rw [split] at none
    exact absurd none other
  next stays cut other _ split =>
    rw [split] at none
    exact absurd none other

theorem cutTail_of_nil (none : (cutAfter column v).2 = []) :
    cutTail column v vs = (v :: (cutBlocks column vs).1, (cutBlocks column vs).2) := by
  rw [cutTail]
  split
  next => rfl
  next stays cut other split =>
    rw [split] at none
    exact absurd none other

/-- Nothing is left to cut off where comment blocks were cut off before. -/
theorem cutBlocks_again (vs : List Node) : (cutBlocks column (cutBlocks column vs).1).2 = [] := by
  induction vs with
  | nil => rfl
  | cons v vs ih =>
      by_cases whole : (cutAfter column v).2 = []
      · rw [cutBlocks_cons_of_nil whole, cutBlocks_cons_of_nil whole]
        exact ih
      · generalize result : cutBlocks column (v :: vs) = once
        rw [cutBlocks] at result
        split at result
        next split => exact absurd (by rw [split]) whole
        next =>
          cases result
          rfl
        next split =>
          cases result
          rw [cutBlocks_cons_of_nil (cutAfter_again split)]
          rfl

/-- Where nothing is cut, everything stays. -/
theorem cutBlocks_of_nil (none : (cutBlocks column vs).2 = []) : (cutBlocks column vs).1 = vs := by
  induction vs with
  | nil => rfl
  | cons v vs ih =>
      by_cases whole : (cutAfter column v).2 = []
      · rw [cutBlocks_cons_of_nil whole] at none ⊢
        exact congrArg (v :: ·) (ih none)
      · unfold cutBlocks at none
        split at none
        next split => exact absurd (by rw [split]) whole
        next => cases none
        next => cases none

/-- What stays of the end of a body begins with its last statement, and nothing more is cut off
it. -/
theorem cutTail_again (blocks : ∀ u ∈ vs, u.isCommentBlock = true) :
    ∃ w ws, (cutTail column v vs).1 = w :: ws ∧ w.form = v.form ∧
      (∀ u ∈ ws, u.isCommentBlock = true) ∧ (cutTail column w ws).2 = [] := by
  by_cases whole : (cutAfter column v).2 = []
  · rw [cutTail_of_nil whole]
    refine ⟨v, _, rfl, rfl, (formsOf_cutBlocks column blocks).1, ?_⟩
    rw [cutTail_of_nil whole]
    exact cutBlocks_again vs
  · unfold cutTail
    split
    next split => exact absurd (by rw [split]) whole
    next stays cut _ split =>
      refine ⟨_, [], rfl, rfl, nofun, ?_⟩
      show (cutTail column _ []).2 = []
      rw [cutTail_of_nil (cutAfter_again split)]
      rfl

/-- A body is cut behind its last statement. -/
theorem cutBody_append {front blocks : List Node} (statement : v.isCommentBlock = false)
    (all : ∀ u ∈ blocks, u.isCommentBlock = true) :
    cutBody (front ++ v :: blocks) =
      (front ++ (cutTail (firstStart .nowhere (front ++ [v])).column v blocks).1,
        (cutTail (firstStart .nowhere (front ++ [v])).column v blocks).2) := by
  have taken : (front ++ v :: blocks).reverse.takeWhile Node.isCommentBlock = blocks.reverse := by
    rw [List.reverse_append, List.reverse_cons, List.append_assoc,
      List.takeWhile_append_of_pos (by simpa using all)]
    simp [statement]
  have dropped :
      (front ++ v :: blocks).reverse.dropWhile Node.isCommentBlock = v :: front.reverse := by
    rw [List.reverse_append, List.reverse_cons, List.append_assoc,
      List.dropWhile_append_of_pos (by simpa using all)]
    simp [statement]
  have starts : ∀ first more, front ++ v :: blocks = first :: more →
      first.start = firstStart .nowhere (front ++ [v]) := by
    intro first more same
    cases front with
    | nil =>
        obtain ⟨rfl, _⟩ := List.cons.inj same
        rfl
    | cons u front =>
        obtain ⟨rfl, _⟩ := List.cons.inj same
        rfl
  unfold cutBody
  split
  next none => simp at none
  next first more same =>
    rw [taken, dropped, starts first more same]
    simp

theorem cutTail_eq_of_nil (none : (cutTail column v vs).2 = []) :
    (cutTail column v vs).1 = v :: vs := by
  by_cases whole : (cutAfter column v).2 = []
  · rw [cutTail_of_nil whole] at none ⊢
    exact congrArg (v :: ·) (cutBlocks_of_nil none)
  · unfold cutTail at none
    split at none
    next split => exact absurd (by rw [split]) whole
    next => cases none

/-- A body holds nothing but comment blocks, or it is cut behind its last statement. -/
theorem cutBody_cases (body : List Node) :
    cutBody body = (body, []) ∨ ∃ front v blocks, body = front ++ v :: blocks ∧
      v.isCommentBlock = false ∧ ∀ u ∈ blocks, u.isCommentBlock = true := by
  cases last : body.reverse.dropWhile Node.isCommentBlock with
  | nil =>
      refine .inl ?_
      unfold cutBody
      split
      · rfl
      · rw [last]
  | cons v rest =>
      obtain ⟨whole, statement⟩ := exists_last last
      exact .inr ⟨_, v, _, whole, statement,
        fun u member => List.mem_takeWhile_imp (List.mem_reverse.mp member)⟩

/-- Cutting a body twice cuts nothing more. -/
theorem cutBody_again (body : List Node) : (cutBody (cutBody body).1).2 = [] := by
  rcases cutBody_cases body with same | ⟨front, v, blocks, rfl, statement, all⟩
  · rw [same, same]
  · obtain ⟨w, ws, stays, form, others, none⟩ :=
      @cutTail_again (firstStart .nowhere (front ++ [v])).column v blocks all
    rw [cutBody_append statement all, stays]
    have kind : w.isCommentBlock = false := by
      rw [Node.isCommentBlock, form]
      exact statement
    have starts : firstStart .nowhere (front ++ [w]) = firstStart .nowhere (front ++ [v]) := by
      cases front with
      | nil =>
          show w.start = v.start
          rw [← w.start_form, form, v.start_form]
      | cons u front => rfl
    rw [cutBody_append kind others, starts]
    exact none

theorem cutBody_of_nil {body : List Node} (none : (cutBody body).2 = []) :
    (cutBody body).1 = body := by
  rcases cutBody_cases body with same | ⟨front, v, blocks, rfl, statement, all⟩
  · rw [same]
  · rw [cutBody_append statement all] at none ⊢
    exact congrArg (front ++ ·) (cutTail_eq_of_nil none)

theorem cutBody_ne_nil {body : List Node} (some' : body ≠ []) : (cutBody body).1 ≠ [] := by
  rcases cutBody_cases body with same | ⟨front, v, blocks, rfl, statement, all⟩
  · rwa [same]
  · obtain ⟨w, ws, stays, _⟩ :=
      @cutTail_again (firstStart .nowhere (front ++ [v])).column v blocks all
    rw [cutBody_append statement all, stays]
    simp

end Twice

end Block

/-! ## Statements with a body -/

namespace Form

/-- Nothing is cut off the end of the form. -/
def Settled (f : Form) : Prop := ∀ f' cut, f.onLastBody Block.cutBody = some (f', cut) → cut = []

theorem settled_of_not_isBlock {f : Form} (plain : f.isBlock = false) : f.Settled := by
  intro f' cut split
  cases f <;> first | (cases plain; done) | cases split

/-- What is cut off the end of the last branch comes from behind the comments that hang below the
branches around it: these branches are read with the statement and have no comments below them, or
they are statements of a body, off which nothing is cut. -/
def Hangs : Form → Prop
  | .ifStmt _ _ _ _ [.mk c (.ifStmt p cond yesBody e noBody)] =>
    (ifStmt p cond yesBody e noBody).Settled ∨
      c.after = [] ∧ Hangs (.ifStmt p cond yesBody e noBody)
  | .ifStmt _ _ _ _ noBody => ∀ v ∈ noBody, v.form.Settled
  | _ => True

/-- A form from whose last body nothing is cut off stays as it is. -/
theorem onLastBody_of_nil {f f' : Form} {cut : List Node}
    (split : f.onLastBody Block.cutBody = some (f', cut)) (none : cut = []) : f' = f := by
  have whole {body stays cut : List Node} (split : Block.cutBody body = (stays, cut))
      (none : cut = []) : stays = body := by
    have same := @Block.cutBody_of_nil body (by rw [split, none])
    rwa [split] at same
  fun_induction onLastBody Block.cutBody f generalizing f' cut with
  | case1 p n q params r s body l stays cut' same =>
      cases split
      rw [whole same none]
  | case2 p vars x body stays cut' same =>
      cases split
      rw [whole same none]
  | case3 p cond yesBody e stays cut' same =>
      cases split
      rw [whole same none]
  | case4 p cond yesBody e comments p' cond' yesBody' e' noBody' ih =>
      rw [Option.map_eq_some_iff] at split
      obtain ⟨⟨inner, cut'⟩, inside, same⟩ := split
      cases same
      rw [ih inside none]
  | case5 p cond yesBody e noBody _ _ stays cut' same =>
      cases split
      rw [whole same none]
  | case6 => cases split

/-- Cutting comments off the end of a statement leaves an `if` an `if`. -/
theorem isIf_of_onLastBody {p : Position} {cond : Node} {yesBody noBody : List Node} {e : Close}
    {f' : Form} {cut : List Node}
    (split : (ifStmt p cond yesBody e noBody).onLastBody Block.cutBody = some (f', cut)) :
    ∃ yesBody' noBody', f' = .ifStmt p cond yesBody' e noBody' := by
  generalize same : ifStmt p cond yesBody e noBody = f at split
  cases trimmed_of_onLastBody split |>.1 with
  | same => exact ⟨_, _, same.symm⟩
  | define | loop => cases same
  | yes | no | arm =>
      cases same
      exact ⟨_, _, rfl⟩

/-- A choice is settled when its last body is. -/
theorem settled_ifStmt {p : Position} {cond : Node} {yesBody noBody : List Node} {e : Close}
    (some' : noBody ≠ []) (each : ∀ v ∈ noBody, v.form.Settled)
    (none : (Block.cutBody noBody).2 = []) : (ifStmt p cond yesBody e noBody).Settled := by
  intro f' cut split
  unfold onLastBody at split
  split at split
  next found => cases found
  next found => cases found
  next found =>
    cases found
    exact absurd rfl some'
  next found =>
    cases found
    rw [Option.map_eq_some_iff] at split
    obtain ⟨⟨inner, cut'⟩, inside, same⟩ := split
    cases same
    exact each _ (List.mem_singleton_self _) _ _ inside
  next found =>
    cases found
    cases split
    exact none
  next => cases split

theorem Hangs.settled {p : Position} {cond : Node} {yesBody noBody : List Node} {e : Close}
    (hangs : (ifStmt p cond yesBody e noBody).Hangs)
    (other : ∀ c p' cond' yesBody' e' noBody',
      noBody = [.mk c (.ifStmt p' cond' yesBody' e' noBody')] → False) :
    ∀ v ∈ noBody, v.form.Settled := by
  unfold Hangs at hangs
  split at hangs
  next found =>
    cases found
    exact (other _ _ _ _ _ _ rfl).elim
  next found =>
    cases found
    exact hangs
  next others => exact (others _ _ _ _ _ rfl).elim

/-- Nothing more is cut off a statement that has been cut. -/
theorem settled_of_onLastBody {f f' : Form} {cut : List Node} (hangs : f.Hangs)
    (split : f.onLastBody Block.cutBody = some (f', cut)) : f'.Settled := by
  have again {body stays cut : List Node} (split : Block.cutBody body = (stays, cut)) :
      (Block.cutBody stays).2 = [] := by
    have none := Block.cutBody_again body
    rwa [split] at none
  fun_induction onLastBody Block.cutBody f generalizing f' cut with
  | case1 p n q params r s body l stays cut' same =>
      cases split
      intro f'' more split
      cases split
      exact again same
  | case2 p vars x body stays cut' same =>
      cases split
      intro f'' more split
      cases split
      exact again same
  | case3 p cond yesBody e stays cut' same =>
      cases split
      intro f'' more split
      cases split
      exact again same
  | case4 p cond yesBody e comments p' cond' yesBody' e' noBody' ih =>
      rw [Option.map_eq_some_iff] at split
      obtain ⟨⟨inner, cut'⟩, inside, same⟩ := split
      cases same
      have settled : inner.Settled := by
        rcases hangs with settled | ⟨_, hangs⟩
        · rwa [onLastBody_of_nil inside (settled _ _ inside)]
        · exact ih hangs inside
      obtain ⟨yesBody'', noBody'', rfl⟩ := isIf_of_onLastBody inside
      intro f'' more split
      simp only [onLastBody, Option.map_eq_some_iff] at split
      obtain ⟨⟨inner', cut''⟩, found, same⟩ := split
      cases same
      exact settled _ _ found
  | case5 p cond yesBody e noBody some' other stays cut' same =>
      cases split
      have stay := Block.formsOf_cutBody noBody
      have rest := Block.cutBody_ne_nil some'
      rw [same] at stay rest
      refine settled_ifStmt rest ((forall_form_iff fun p => settled_of_not_isBlock rfl).mpr ?_)
        (again same)
      rw [stay.1]
      exact (forall_form_iff fun p => settled_of_not_isBlock rfl).mp (hangs.settled other)
  | case6 => cases split

/-- What is cut off a statement stands behind it. -/
theorem traces_onLastBody {f f' : Form} {cut : List Node} (hangs : f.Hangs)
    (split : f.onLastBody Block.cutBody = some (f', cut)) :
    Traces (f'.trail ++ marksOf cut) f.trail := by
  have apart {body stays cut : List Node} (split : Block.cutBody body = (stays, cut)) :
      Traces (marksOf stays ++ marksOf cut) (marksOf body) := by
    have whole := Block.traces_cutBody body
    rwa [split, marksOf_append] at whole
  fun_induction onLastBody Block.cutBody f generalizing f' cut with
  | case1 p n q params r s body l stays cut' same =>
      cases split
      simpa [trail] using
        ((Traces.refl (spansOf params)).append ((apart same).cons s.right.offset)).cons p.offset
  | case2 p vars x body stays cut' same =>
      cases split
      simpa [trail] using ((Traces.refl (spansOf [vars, x])).append (apart same)).cons p.offset
  | case3 p cond yesBody e stays cut' same =>
      cases split
      simpa [trail] using ((Traces.refl (spansOf [cond])).append (apart same)).cons p.offset
  | case4 p cond yesBody e comments p' cond' yesBody' e' noBody' ih =>
      rw [Option.map_eq_some_iff] at split
      obtain ⟨⟨inner, cut'⟩, inside, same⟩ := split
      cases same
      rcases hangs with settled | ⟨bare, hangs⟩
      · obtain rfl := settled _ _ inside
        rw [onLastBody_of_nil inside rfl, marksOf_nil, List.append_nil]
        exact .refl _
      · have rest := (Traces.refl (marksOf yesBody)).append (ih hangs inside)
        have whole := ((Traces.refl (spansOf [cond])).append rest).cons p.offset
        rw [trail, trail, marksOf_cons, marksOf_cons, Node.marks, Node.marks, bare]
        simpa [startsOf] using whole
  | case5 p cond yesBody e noBody _ _ stays cut' same =>
      cases split
      have rest := (Traces.refl (marksOf yesBody)).append (apart same)
      simpa [trail] using ((Traces.refl (spansOf [cond])).append rest).cons p.offset
  | case6 => cases split

end Form

end Starlark
