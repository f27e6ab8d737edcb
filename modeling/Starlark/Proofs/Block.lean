import Starlark.Block.Trailing
import Starlark.Proofs.Remarks

/-!
# Blocks keep their comments

Putting lines together to a block moves comments below a statement, above the
next one, or into comment blocks of their own; cutting the end of a body moves
them behind the statement. None is lost on the way, as long as the places that
are overwritten are empty: a statement that is added has no comments above it
yet (`Entry.Fresh`), and a comment block that goes away carries only its own
lines (`Node.Lone`).
-/

set_option autoImplicit false

namespace Starlark

/-! ## Comment blocks -/

namespace Node

/-- A comment block that carries no comments but its own lines; anything that
is no comment block. -/
def Lone (v : Node) : Prop :=
  v.isCommentBlock = true → v.comments.before = [] ∧ v.comments.suffix = []

theorem remarks_eq (v : Node) : v.remarks = v.comments.toList ++ v.form.remarks := by
  obtain ⟨comments, f⟩ := v
  simp

/-- A lone comment block carries its lines. -/
theorem Lone.remarks {v : Node} (lone : v.Lone) (block : v.isCommentBlock = true) :
    v.remarks = v.comments.after := by
  obtain ⟨before, suffix⟩ := lone block
  obtain ⟨comments, f⟩ := v
  cases f with
  | commentBlock p =>
      simp only [comments_mk] at before suffix
      simp [Comments.toList, before, suffix, Form.remarks, Form.held, Form.children]
  | _ => cases block

theorem commentBlock_lone (c : Comment) : (commentBlock c).Lone := fun _ => ⟨rfl, rfl⟩

theorem commentBlockOf_lone (lines : List Comment) : (commentBlockOf lines).Lone :=
  fun _ => ⟨rfl, rfl⟩

@[simp] theorem remarks_commentBlock (c : Comment) : (commentBlock c).remarks = [c] := by
  simp [commentBlock, Comments.ofAfter, Comments.toList, Form.remarks, Form.held, Form.children]

@[simp] theorem remarks_commentBlockOf (lines : List Comment) :
    (commentBlockOf lines).remarks = lines := by
  simp [commentBlockOf, Comments.ofAfter, Comments.toList, Form.remarks, Form.held, Form.children]

@[simp] theorem isCommentBlock_mapComments (f : Comments → Comments) (v : Node) :
    (v.mapComments f).isCommentBlock = v.isCommentBlock := rfl

@[simp] theorem comments_mapComments (f : Comments → Comments) (v : Node) :
    (v.mapComments f).comments = f v.comments := rfl

@[simp] theorem form_mapComments (f : Comments → Comments) (v : Node) :
    (v.mapComments f).form = v.form := rfl

@[simp] theorem start_mapComments (f : Comments → Comments) (v : Node) :
    (v.mapComments f).start = v.start := by
  obtain ⟨comments, form⟩ := v
  rfl

/-- Changing the comments below a node keeps it lone. -/
theorem Lone.withAfter {v : Node} (lone : v.Lone) (after : Comments → List Comment) :
    (v.mapComments fun c => { c with after := after c }).Lone := lone

end Node

/-! ## Lines -/

namespace Entry

/-- The comments of a line. -/
def remarks : Entry → List Comment
  | .blank => []
  | .remark c => [c]
  | .group nodes _ => remarksOf nodes

/-- A line as it is read: the first of its statements is no comment block and
has no comments above it. -/
def Fresh : Entry → Prop
  | .group nodes _ => ∃ first rest, nodes = first :: rest ∧ first.isCommentBlock = false ∧
      first.comments.before = [] ∧ ∀ v ∈ rest, v.Lone
  | _ => True

end Entry

namespace Block

variable {b : Block} (c : Comment)

/-- Comment blocks stay lone when the comments below the last statement are taken away. -/
theorem release_lone {rev : List Node} (lone : ∀ v ∈ rev, v.Lone) :
    ∀ v ∈ (release rev).2, v.Lone := by
  cases rev with
  | nil => exact List.forall_mem_nil _
  | cons last rest =>
      rw [release]
      split
      · exact fun v member => lone v (by simp [member])
      · intro v member
        rw [List.mem_cons] at member
        obtain rfl | member := member
        · exact (lone last (by simp)).withAfter _
        · exact lone v (by simp [member])

/-- Taking away the comments that wait below the last statement takes away
nothing else. -/
theorem tally_release {rev : List Node} (lone : ∀ v ∈ rev, v.Lone) :
    tally c (release rev).1 + tally c (remarksOf (release rev).2) = tally c (remarksOf rev) := by
  cases rev with
  | nil => rfl
  | cons last rest =>
      rw [release]
      split
      · rename_i block
        rw [remarksOf_cons, (lone last (by simp)).remarks block, tally_append]
      · simp only [remarksOf_cons, Node.remarks_eq, Node.comments_mapComments,
          Node.form_mapComments, Comments.toList, tally_append, tally_nil]
        omega

theorem tally_putBefore {waiting : List Comment} {first : Node} {rest : List Node}
    (empty : first.comments.before = []) :
    tally c (remarksOf (putBefore waiting (first :: rest))) =
      tally c waiting + tally c (remarksOf (first :: rest)) := by
  simp only [putBefore, remarksOf_cons, Node.remarks_eq, Node.comments_mapComments,
    Node.form_mapComments, Comments.toList, tally_append, empty, tally_nil]
  omega

theorem tally_remarksOf_reverse (vs : List Node) :
    tally c (remarksOf vs.reverse) = tally c (remarksOf vs) :=
  congrArg Int.ofNat (((List.reverse_perm vs).flatMap_right _).count_eq c)

/-- Adding a line adds its comments. -/
theorem tally_add (lone : ∀ v ∈ b.rev, v.Lone) {e : Entry} (fresh : e.Fresh) :
    tally c (remarksOf (b.add e).rev) = tally c (remarksOf b.rev) + tally c e.remarks := by
  cases e with
  | blank => simp [add, Entry.remarks]
  | remark x =>
      simp only [add, remark, Entry.remarks]
      split
      · rename_i last rest same _
        simp only [same, remarksOf_cons, Node.remarks_eq, Node.comments_mapComments,
          Node.form_mapComments, Comments.pushAfter, Comments.toList, tally_append]
        omega
      · simp only [remarksOf_cons, Node.remarks_commentBlock, tally_append]
        omega
  | group nodes followed =>
      obtain ⟨first, rest, rfl, _, empty, _⟩ := fresh
      simp only [add, group, Entry.remarks]
      split
      · have released := tally_release c lone
        have placed : tally c (remarksOf (putBefore (release b.rev).1 (first :: rest))) = _ :=
          tally_putBefore c empty
        simp only [remarksOf_append, tally_append, tally_remarksOf_reverse]
        omega
      · simp only [remarksOf_append, tally_append, tally_remarksOf_reverse]
        omega

/-- Adding a line leaves every comment block alone. -/
theorem add_lone (lone : ∀ v ∈ b.rev, v.Lone) {e : Entry} (fresh : e.Fresh) :
    ∀ v ∈ (b.add e).rev, v.Lone := by
  cases e with
  | blank => exact lone
  | remark x =>
      simp only [add, remark]
      split
      · rename_i last rest same _
        intro v member
        rw [List.mem_cons] at member
        obtain rfl | member := member
        · exact (lone last (by simp [same])).withAfter _
        · exact lone v (by simp [same, member])
      · intro v member
        rw [List.mem_cons] at member
        obtain rfl | member := member
        · exact Node.commentBlock_lone x
        · exact lone v member
  | group nodes followed =>
      obtain ⟨first, rest, rfl, statement, _, others⟩ := fresh
      have firstLone : ∀ f, (first.mapComments f).Lone := by
        intro f block
        rw [Node.isCommentBlock_mapComments, statement] at block
        cases block
      have statementLone : first.Lone := by
        intro block
        rw [statement] at block
        cases block
      simp only [add, group]
      split
      · intro v member
        simp only [putBefore, List.mem_append, List.mem_reverse, List.mem_cons] at member
        obtain (rfl | member) | member := member
        · exact firstLone _
        · exact others v member
        · exact release_lone lone v member
      · intro v member
        simp only [List.mem_append, List.mem_reverse, List.mem_cons] at member
        obtain (rfl | member) | member := member
        · exact statementLone
        · exact others v member
        · exact lone v member

/-- A block of lines carries the comments of its lines, and its comment blocks
are lone. -/
theorem ofEntries_kept {entries : List Entry} (fresh : ∀ e ∈ entries, e.Fresh) :
    (∀ v ∈ (ofEntries entries).nodes, v.Lone) ∧
      ∀ c, tally c (remarksOf (ofEntries entries).nodes) =
        tally c (entries.flatMap Entry.remarks) := by
  have folded : ∀ {b : Block}, (∀ v ∈ b.rev, v.Lone) →
      (∀ v ∈ (entries.foldl add b).rev, v.Lone) ∧
        ∀ c, tally c (remarksOf (entries.foldl add b).rev) =
          tally c (remarksOf b.rev) + tally c (entries.flatMap Entry.remarks) := by
    induction entries with
    | nil => exact fun lone => ⟨lone, fun c => by simp⟩
    | cons e entries ih =>
        intro b lone
        have here := fresh e (by simp)
        obtain ⟨stillLone, sums⟩ := ih (fun x member => fresh x (by simp [member]))
          (add_lone lone here)
        refine ⟨stillLone, fun c => ?_⟩
        have sum := sums c
        rw [tally_add c lone here] at sum
        rw [List.foldl_cons, sum, List.flatMap_cons, tally_append]
        omega
  obtain ⟨lone, sums⟩ := folded (b := empty) (by simp [empty])
  refine ⟨fun v member => lone v (by simpa [nodes, ofEntries] using member), fun c => ?_⟩
  have sum := sums c
  rw [nodes, tally_remarksOf_reverse, ofEntries, sum]
  simp [empty]

/-! ## Forms

Putting lines together changes comments only, so what is known of the forms of
the statements is known of the forms in the block. -/

section Forms

variable {P : Form → Prop}

theorem putBefore_forms {waiting : List Comment} {vs : List Node} (each : ∀ v ∈ vs, P v.form) :
    ∀ v ∈ putBefore waiting vs, P v.form := by
  cases vs with
  | nil => exact each
  | cons first rest =>
      refine List.forall_mem_cons.mpr ⟨?_, fun v member => each v (by simp [member])⟩
      exact each first (by simp)

/-- Taking away the comments below the last statement leaves the forms as they are. -/
theorem release_forms {rev : List Node} (each : ∀ v ∈ rev, P v.form) :
    ∀ v ∈ (release rev).2, P v.form := by
  cases rev with
  | nil => exact each
  | cons last rest =>
      rw [release]
      split
      · exact fun v member => each v (by simp [member])
      · refine List.forall_mem_cons.mpr ⟨?_, fun v member => each v (by simp [member])⟩
        exact each last (by simp)

/-- The nodes of a block have the forms of its entries, apart from comment blocks. -/
theorem ofEntries_forms {entries : List Entry} (blocks : ∀ p, P (.commentBlock p))
    (each : ∀ nodes f, Entry.group nodes f ∈ entries → ∀ v ∈ nodes, P v.form) :
    ∀ v ∈ (ofEntries entries).nodes, P v.form := by
  have folded :
      ∀ b : Block, (∀ v ∈ b.rev, P v.form) → ∀ v ∈ (entries.foldl add b).rev, P v.form := by
    induction entries with
    | nil => exact fun b known => known
    | cons e entries ih =>
        intro b known
        refine ih (fun nodes f member => each nodes f (by simp [member])) (b.add e) ?_
        cases e with
        | blank => exact known
        | remark x =>
            simp only [add, remark]
            split
            · rename_i last rest same _
              rw [same] at known
              exact List.forall_mem_cons.mpr
                ⟨known last (by simp), fun v member => known v (by simp [member])⟩
            · exact List.forall_mem_cons.mpr ⟨blocks _, known⟩
        | group nodes followed =>
            have new := each nodes followed (by simp)
            simp only [add, group]
            split
            · intro v member
              rw [List.mem_append, List.mem_reverse] at member
              obtain member | member := member
              · exact putBefore_forms new v member
              · exact release_forms known v member
            · intro v member
              rw [List.mem_append, List.mem_reverse] at member
              exact member.elim (new v) (known v)
  intro v member
  exact folded empty (by simp [empty]) v (by simpa [nodes, ofEntries] using member)

/-- Putting a block before a body brings in no other forms. -/
theorem precede_forms {leading : Block} {body : List Node}
    (front : ∀ v ∈ leading.nodes, P v.form) (back : ∀ v ∈ body, P v.form) :
    ∀ v ∈ leading.precede body, P v.form := by
  have appended : ∀ v ∈ leading.nodes ++ body, P v.form :=
    List.forall_mem_append.mpr ⟨front, back⟩
  unfold precede
  split
  · rename_i last rest first more same
    split
    · split
      · refine List.forall_mem_append.mpr ⟨fun v member => front v ?_, putBefore_forms back⟩
        simp [nodes, same, List.mem_reverse.mp member]
      · exact appended
    · exact appended
  · exact appended

end Forms

/-! ## The first statement of a block -/

/-- The first comment stands above the statements of the second line. -/
def Above (e e' : Entry) : Prop :=
  match e, e' with
  | .remark c, .group (first :: _) _ => c.start.line < first.start.line
  | _, _ => True

/-- What is known of the first statement put together so far, when all comments
among the lines stand below `line`: if it has comments above it, it stands at
least two lines below. `noted` tells whether there has been a comment yet; only
then can the first thing be a comment block that moves above a statement. -/
structure FirstBelow (line : Nat) (noted : Prop) (rev : List Node) : Prop where
  first : ∀ v, rev.getLast? = some v → v.comments.before = [] ∨ line + 1 < v.start.line
  single : ∀ v, rev = [v] → v.isCommentBlock = true → noted

namespace FirstBelow

variable {line : Nat} {noted : Prop}

/-- Changing what stands below the last statement changes nothing. -/
theorem withAfter {last : Node} {rest : List Node}
    (below : FirstBelow line noted (last :: rest)) (after : Comments → List Comment) :
    FirstBelow line noted (last.mapComments (fun c => { c with after := after c }) :: rest) := by
  constructor
  · intro v found
    cases rest with
    | nil =>
        obtain rfl : last.mapComments (fun c => { c with after := after c }) = v := by
          simpa using found
        simpa using below.first last rfl
    | cons u rest => exact below.first v (by simpa using found)
  · intro v same block
    obtain ⟨rfl, rfl⟩ := List.cons.inj same
    exact below.single last rfl block

theorem tail {last : Node} {rest : List Node} (below : FirstBelow line noted (last :: rest)) :
    ∀ v, rest.getLast? = some v → v.comments.before = [] ∨ line + 1 < v.start.line := by
  intro v found
  cases rest with
  | nil => cases found
  | cons u rest => exact below.first v (by simpa using found)

/-- Once a comment has been added, there has been one. -/
theorem remark {b : Block} (below : FirstBelow line noted b.rev) (x : Comment) :
    FirstBelow line True (b.remark x).rev := by
  refine ⟨?_, fun _ _ _ => trivial⟩
  unfold Block.remark
  split
  · rename_i last rest same _
    rw [same] at below
    exact (below.withAfter _).first
  · intro v found
    cases same : b.rev with
    | nil =>
        rw [same] at found
        cases found
        exact .inl rfl
    | cons u rest =>
        rw [same] at found
        exact below.first v (by simpa [same] using found)

/-- Statements that come after a comment stand below it, and the others are
read without comments above them. -/
theorem group {b : Block} (below : FirstBelow line noted b.rev) {first : Node} {rest : List Node}
    {followed : Bool} (statement : first.isCommentBlock = false)
    (empty : first.comments.before = []) (late : noted → line + 1 < first.start.line) :
    FirstBelow line noted (b.group (first :: rest) followed).rev := by
  unfold Block.group
  split
  · constructor
    · intro v found
      simp only [putBefore, List.getLast?_append, List.getLast?_reverse, List.head?_cons] at found
      cases released : b.rev with
      | nil =>
          simp only [released, release, List.getLast?_nil, Option.none_or, Option.some.injEq]
            at found
          rw [← found]
          exact .inl rfl
      | cons last others =>
          rw [released] at below found
          rw [release] at found
          split at found
          · rename_i block
            cases others with
            | nil =>
                simp only [List.getLast?_nil, Option.none_or, Option.some.injEq] at found
                rw [← found]
                exact .inr (by simpa using late (below.single last rfl block))
            | cons u others =>
                refine below.tail v ?_
                rw [List.getLast?_cons] at found ⊢
                exact found
          · refine (below.withAfter fun _ => []).first v ?_
            rw [List.getLast?_cons] at found ⊢
            exact found
    · intro v same block
      have member : first.mapComments (fun c => { c with before := (release b.rev).1 }) ∈ [v] := by
        rw [← same]
        simp [putBefore]
      rw [List.mem_singleton] at member
      rw [← member, Node.isCommentBlock_mapComments, statement] at block
      cases block
  · constructor
    · intro v found
      cases released : b.rev with
      | nil =>
          rw [released] at found
          obtain rfl : first = v := by simpa using found
          exact .inl empty
      | cons last others =>
          refine below.first v ?_
          rw [released] at found ⊢
          simpa using found
    · intro v same block
      have member : first ∈ [v] := by
        rw [← same]
        simp
      rw [List.mem_singleton] at member
      rw [← member, statement] at block
      cases block

end FirstBelow

/-- When all comments among some lines stand below `line`, the first statement
of their block has no comments above it or stands at least two lines below. -/
theorem ofEntries_first {line : Nat} {entries : List Entry} (fresh : ∀ e ∈ entries, e.Fresh)
    (comments : ∀ x, Entry.remark x ∈ entries → line < x.start.line)
    (above : entries.Pairwise Above) {v : Node} {vs : List Node}
    (starts : (ofEntries entries).nodes = v :: vs) :
    v.comments.before = [] ∨ line + 1 < v.start.line := by
  have folded : ∀ (b : Block) (noted : Prop), FirstBelow line noted b.rev →
      (noted → ∀ first rest f, Entry.group (first :: rest) f ∈ entries →
        line + 1 < first.start.line) →
      ∃ noted, FirstBelow line noted (entries.foldl add b).rev := by
    clear starts
    induction entries with
    | nil => exact fun b noted below _ => ⟨noted, below⟩
    | cons e entries ih =>
        intro b noted below late
        obtain ⟨here, above⟩ := List.pairwise_cons.mp above
        have step := ih (fun x member => fresh x (by simp [member]))
          (fun x member => comments x (by simp [member])) above
        cases e with
        | blank =>
            exact step _ _ below fun seen first rest f member =>
              late seen first rest f (by simp [member])
        | remark x =>
            refine step _ _ (below.remark x) fun _ first rest f member => ?_
            have before := comments x (by simp)
            have after : x.start.line < first.start.line := here _ member
            omega
        | group nodes followed =>
            obtain ⟨first, rest, rfl, statement, empty, _⟩ := fresh _ (List.mem_cons_self ..)
            exact step _ _ (below.group statement empty fun seen => late seen first rest followed
              (by simp)) fun seen first rest f member => late seen first rest f (by simp [member])
  obtain ⟨_, below⟩ := folded empty False
    ⟨fun v found => by simp [empty] at found, fun v same => by simp [empty] at same⟩
    (fun seen => seen.elim)
  refine below.first v ?_
  have reversed : (ofEntries entries).rev = (v :: vs).reverse := by
    rw [← starts, nodes, List.reverse_reverse]
  rw [← ofEntries, reversed]
  simp

/-! ## Bodies -/

/-- Every comment block behind a statement is lone. -/
def LoneBehind (vs : List Node) : Prop :=
  ∀ init v rest, vs = init ++ v :: rest → v.isCommentBlock = false → ∀ u ∈ rest, u.Lone

theorem LoneBehind.of_forall {vs : List Node} (lone : ∀ v ∈ vs, v.Lone) : LoneBehind vs := by
  rintro init v rest rfl _ u member
  exact lone u (by simp [member])

theorem LoneBehind.of_single (v : Node) : LoneBehind [v] := by
  intro init u rest split _ w member
  cases init with
  | nil =>
      obtain ⟨rfl, rfl⟩ := List.cons.inj split
      cases member
  | cons x init => simp at split

/-- Comment blocks in front of a body do not matter, and neither does its first
node. -/
theorem LoneBehind.of_blocks {blocks : List Node} (all : ∀ v ∈ blocks, v.isCommentBlock = true)
    {first : Node} {more : List Node} (lone : ∀ v ∈ more, v.Lone) :
    LoneBehind (blocks ++ first :: more) := by
  intro init v rest split statement u member
  rw [List.append_eq_append_iff] at split
  obtain ⟨front, rfl, same⟩ | ⟨front, rfl, same⟩ := split
  · cases front with
    | nil =>
        obtain ⟨rfl, rfl⟩ := List.cons.inj same
        exact lone u member
    | cons w front =>
        obtain ⟨rfl, rfl⟩ := List.cons.inj same
        exact lone u (by simp [member])
  · cases front with
    | nil =>
        obtain ⟨rfl, rfl⟩ := List.cons.inj same
        exact lone u member
    | cons w front =>
        obtain ⟨rfl, rfl⟩ := List.cons.inj same
        rw [all v (by simp)] at statement
        cases statement

section Precede

variable {leading : Block} {body : List Node}

/-- The comment lines of a body are kept when they are put in front of it. -/
theorem tally_precede (lone : ∀ v ∈ leading.nodes, v.Lone)
    (room : ∀ first more, body = first :: more → first.comments.before = [] ∨
      ∀ x ∈ remarksOf leading.nodes, first.start.line ≠ x.start.line + 1) :
    tally c (remarksOf (leading.precede body)) =
      tally c (remarksOf leading.nodes) + tally c (remarksOf body) := by
  have appended : tally c (remarksOf (leading.nodes ++ body)) =
      tally c (remarksOf leading.nodes) + tally c (remarksOf body) := by simp
  unfold precede
  split
  · rename_i last rest first more same
    have nodes_eq : leading.nodes = rest.reverse ++ [last] := by simp [nodes, same]
    split
    · rename_i x block found
      split
      · rename_i next
        have lastRemarks := (lone last (by simp [nodes_eq])).remarks block
        have empty : first.comments.before = [] := by
          refine (room first more rfl).resolve_right fun apart => ?_
          refine apart x ?_ next
          rw [nodes_eq, remarksOf_append, remarksOf_cons, lastRemarks]
          simp [List.mem_of_getLast? found]
        have placed : tally c (remarksOf (putBefore last.comments.after (first :: more))) = _ :=
          tally_putBefore c empty
        have lastAlone : remarksOf [last] = last.comments.after := by
          rw [remarksOf_cons, lastRemarks, remarksOf_nil, List.append_nil]
        rw [remarksOf_append, tally_append, placed, nodes_eq, remarksOf_append, tally_append,
          lastAlone]
        omega
      · exact appended
    · exact appended
  · exact appended

/-- Comment lines put in front of a body leave its comment blocks alone. -/
theorem precede_loneBehind (blocks : ∀ v ∈ leading.nodes, v.isCommentBlock = true)
    (lone : ∀ v ∈ body, v.Lone) : LoneBehind (leading.precede body) := by
  have appended : LoneBehind (leading.nodes ++ body) := by
    cases body with
    | nil =>
        rintro init v rest split statement
        rw [List.append_nil] at split
        rw [blocks v (by simp [split])] at statement
        cases statement
    | cons first more => exact .of_blocks blocks fun v member => lone v (by simp [member])
  unfold precede
  split
  · rename_i last rest first more same
    have nodes_eq : leading.nodes = rest.reverse ++ [last] := by simp [nodes, same]
    split
    · split
      · refine .of_blocks (fun v member => blocks v ?_) fun v member => lone v (by simp [member])
        rw [nodes_eq]
        exact List.mem_append_left _ member
      · exact appended
    · exact appended
  · exact appended

end Precede

/-! ## Cutting the end of a body -/

theorem cutAfter_append {column : Nat} {v : Node} {stays cut : List Comment}
    (split : cutAfter column v = (stays, cut)) : stays ++ cut = v.comments.after := by
  rw [cutAfter, List.span_eq_takeWhile_dropWhile] at split
  cases split
  exact List.takeWhile_append_dropWhile

theorem tally_withAfter {v : Node} {stays cut : List Comment}
    (split : stays ++ cut = v.comments.after) :
    tally c (v.mapComments fun x => { x with after := stays }).remarks + tally c cut =
      tally c v.remarks := by
  simp only [Node.remarks_eq, Node.comments_mapComments, Node.form_mapComments, Comments.toList,
    tally_append, ← split]
  omega

/-- Cutting comment blocks in two loses no comment. -/
theorem tally_cutBlocks (column : Nat) {vs : List Node}
    (blocks : ∀ v ∈ vs, v.isCommentBlock = true ∧ v.Lone) :
    tally c (remarksOf (cutBlocks column vs).1) + tally c (remarksOf (cutBlocks column vs).2) =
      tally c (remarksOf vs) := by
  induction vs with
  | nil => rfl
  | cons v vs ih =>
      have others := ih fun u member => blocks u (by simp [member])
      obtain ⟨block, lone⟩ := blocks v (by simp)
      unfold cutBlocks
      split
      · simp only [remarksOf_cons, tally_append]
        omega
      · rename_i cut _ split
        have all := cutAfter_append split
        rw [List.nil_append] at all
        simp only [remarksOf_cons, remarksOf_nil, Node.remarks_commentBlockOf, tally_append,
          tally_nil, lone.remarks block, all]
        omega
      · rename_i stays cut _ _ split
        have all := tally_withAfter c (cutAfter_append split)
        simp only [remarksOf_cons, remarksOf_nil, Node.remarks_commentBlockOf, tally_append,
          tally_nil]
        omega

/-- Neither does cutting what hangs below the last statement. -/
theorem tally_cutTail (column : Nat) (v : Node) {vs : List Node}
    (blocks : ∀ v ∈ vs, v.isCommentBlock = true ∧ v.Lone) :
    tally c (remarksOf (cutTail column v vs).1) + tally c (remarksOf (cutTail column v vs).2) =
      tally c (remarksOf (v :: vs)) := by
  unfold cutTail
  split
  · have others := tally_cutBlocks c column blocks
    simp only [remarksOf_cons, tally_append]
    omega
  · rename_i stays cut _ split
    have all := tally_withAfter c (cutAfter_append split)
    simp only [remarksOf_cons, remarksOf_nil, Node.remarks_commentBlockOf, tally_append, tally_nil]
    omega

/-- What a body is cut into: the statements that end it, and the comment blocks
behind them. -/
theorem exists_last {body : List Node} {last : Node} {rest : List Node}
    (found : body.reverse.dropWhile Node.isCommentBlock = last :: rest) :
    body = rest.reverse ++ last :: (body.reverse.takeWhile Node.isCommentBlock).reverse ∧
      last.isCommentBlock = false := by
  constructor
  · have split : body.reverse.takeWhile Node.isCommentBlock ++
        body.reverse.dropWhile Node.isCommentBlock = body.reverse :=
      List.takeWhile_append_dropWhile
    rw [found] at split
    have back := congrArg List.reverse split
    simpa using back.symm
  · have head := @List.head_dropWhile_not _ Node.isCommentBlock body.reverse (by simp [found])
    simpa [found] using head

/-- The comment blocks at the end of a body are lone. -/
theorem lone_blocks {body : List Node} (lone : LoneBehind body) {last : Node} {rest : List Node}
    (found : body.reverse.dropWhile Node.isCommentBlock = last :: rest) :
    ∀ v ∈ (body.reverse.takeWhile Node.isCommentBlock).reverse,
      v.isCommentBlock = true ∧ v.Lone := by
  obtain ⟨split, statement⟩ := exists_last found
  intro v member
  refine ⟨?_, lone _ last _ split statement v member⟩
  rw [List.mem_reverse] at member
  exact List.all_eq_true.mp List.all_takeWhile v member

/-- Cutting the end of a body loses no comment. -/
theorem tally_cutBody {body : List Node} (lone : LoneBehind body) :
    tally c (remarksOf (cutBody body).1) + tally c (remarksOf (cutBody body).2) =
      tally c (remarksOf body) := by
  unfold cutBody
  split
  · rfl
  · rename_i first more
    split
    · simp
    · rename_i last rest found
      have cut := tally_cutTail c first.start.column last (lone_blocks lone found)
      have whole := congrArg (fun vs => tally c (remarksOf vs)) (exists_last found).1
      simp only [remarksOf_append, tally_append] at cut whole ⊢
      omega

/-- What is cut off the end of a body is made of lone comment blocks. -/
theorem cutBlocks_lone (column : Nat) {vs : List Node}
    (blocks : ∀ v ∈ vs, v.isCommentBlock = true ∧ v.Lone) :
    ∀ v ∈ (cutBlocks column vs).2, v.isCommentBlock = true ∧ v.Lone := by
  induction vs with
  | nil => exact List.forall_mem_nil _
  | cons v vs ih =>
      have later : ∀ {cut : List Comment} {u : Node}, u ∈ Node.commentBlockOf cut :: vs →
          u.isCommentBlock = true ∧ u.Lone := by
        intro cut u member
        rw [List.mem_cons] at member
        obtain rfl | member := member
        · exact ⟨rfl, Node.commentBlockOf_lone _⟩
        · exact blocks u (by simp [member])
      unfold cutBlocks
      split
      · exact ih fun u member => blocks u (by simp [member])
      · exact fun u => later
      · exact fun u => later

/-- What is cut off a body are lone comment blocks. -/
theorem cutBody_lone {body : List Node} (lone : LoneBehind body) :
    ∀ v ∈ (cutBody body).2, v.isCommentBlock = true ∧ v.Lone := by
  unfold cutBody
  split
  · exact List.forall_mem_nil _
  · split
    · exact List.forall_mem_nil _
    · rename_i last rest found
      have blocks := lone_blocks lone found
      unfold cutTail
      split
      · exact cutBlocks_lone _ blocks
      · intro v member
        rw [List.mem_cons] at member
        obtain rfl | member := member
        · exact ⟨rfl, Node.commentBlockOf_lone _⟩
        · exact blocks v member

/-- Another end may stand in the place of the end of a body. -/
theorem LoneBehind.of_last {front blocks blocks' : List Node} {last last' : Node}
    (lone : LoneBehind (front ++ last :: blocks)) (statement : last'.isCommentBlock = false)
    (all : ∀ v ∈ blocks', v.Lone) : LoneBehind (front ++ last' :: blocks') := by
  have lastLone : last'.Lone := by
    intro block
    rw [statement] at block
    cases block
  intro init v rest split notBlock u member
  rw [List.append_eq_append_iff] at split
  obtain ⟨middle, rfl, same⟩ | ⟨middle, rfl, same⟩ := split
  · cases middle with
    | nil =>
        obtain ⟨rfl, rfl⟩ := List.cons.inj same
        exact all u member
    | cons w middle =>
        obtain ⟨rfl, rfl⟩ := List.cons.inj same
        exact all u (by simp [member])
  · cases middle with
    | nil =>
        obtain ⟨rfl, rfl⟩ := List.cons.inj same
        exact all u member
    | cons w middle =>
        obtain ⟨rfl, rfl⟩ := List.cons.inj same
        change u ∈ middle ++ last' :: blocks' at member
        simp only [List.mem_append, List.mem_cons] at member
        obtain member | rfl | member := member
        · exact lone init v (middle ++ last :: blocks) (by simp) notBlock u (by simp [member])
        · exact lastLone
        · exact all u member

/-- The comment blocks that stay stand as they did, the last of them perhaps
with fewer lines. -/
theorem cutBlocks_stays (column : Nat) {vs : List Node} {P : Node → Prop}
    (each : ∀ v ∈ vs, P v)
    (shorter : ∀ v ∈ vs, ∀ stays, P (v.mapComments fun x => { x with after := stays })) :
    ∀ v ∈ (cutBlocks column vs).1, P v := by
  induction vs with
  | nil => exact List.forall_mem_nil _
  | cons v vs ih =>
      unfold cutBlocks
      split
      · intro u member
        rw [List.mem_cons] at member
        obtain rfl | member := member
        · exact each u (by simp)
        · exact ih (fun w inside => each w (by simp [inside]))
            (fun w inside => shorter w (by simp [inside])) u member
      · exact List.forall_mem_nil _
      · intro u member
        rw [List.mem_singleton] at member
        rw [member]
        exact shorter v (by simp) _

/-- What stays of a body after its end is cut. -/
theorem cutBody_stays {body : List Node} (lone : LoneBehind body) :
    LoneBehind (cutBody body).1 ∧
      ∀ v ∈ (cutBody body).1, ∃ u ∈ body, v.form = u.form := by
  unfold cutBody
  split
  · exact ⟨lone, List.forall_mem_nil _⟩
  · rename_i first more
    split
    · exact ⟨lone, fun v member => ⟨v, member, rfl⟩⟩
    · rename_i last rest found
      obtain ⟨split, statement⟩ := exists_last found
      have blocks := lone_blocks lone found
      have inside : ∀ v ∈ last :: ((first :: more).reverse.takeWhile Node.isCommentBlock).reverse,
          v ∈ first :: more := by
        intro v member
        rw [split]
        exact List.mem_append_right _ member
      rw [split] at lone
      unfold cutTail
      split
      · constructor
        · refine lone.of_last statement ?_
          exact cutBlocks_stays _ (fun v member => (blocks v member).2)
            fun v member stays => (blocks v member).2.withAfter _
        · intro v member
          rw [List.mem_append, List.mem_cons, List.mem_reverse] at member
          obtain member | rfl | member := member
          · exact ⟨v, by rw [split]; simp [member], rfl⟩
          · exact ⟨v, inside v (by simp), rfl⟩
          · exact cutBlocks_stays _ (P := fun v => ∃ u ∈ first :: more, v.form = u.form)
              (fun w there => ⟨w, inside w (List.mem_cons_of_mem _ there), rfl⟩)
              (fun w there _ => ⟨w, inside w (List.mem_cons_of_mem _ there), rfl⟩) v member
      · constructor
        · exact lone.of_last statement (List.forall_mem_nil _)
        · intro v member
          rw [List.mem_append, List.mem_singleton, List.mem_reverse] at member
          obtain member | rfl := member
          · exact ⟨v, by rw [split]; simp [member], rfl⟩
          · exact ⟨last, inside last (by simp), rfl⟩

end Block

/-! ## Statements with a body -/

namespace Form

/-- The bodies of a form. -/
def bodies : Form → List (List Node)
  | .defStmt _ _ _ _ _ _ body _ => [body]
  | .forStmt _ _ _ body => [body]
  | .ifStmt _ _ yesBody _ noBody => [yesBody, noBody]
  | _ => []

end Form

/-- In every body of the statement, and of the statements in it, the comment
blocks behind a statement are lone. -/
inductive Node.Tidy : Node → Prop
  | mk {v : Node} (lone : ∀ body ∈ v.form.bodies, Block.LoneBehind body)
      (below : ∀ body ∈ v.form.bodies, ∀ u ∈ body, u.Tidy) : v.Tidy

/-- A body whose comment blocks behind a statement are lone, and whose
statements are tidy. -/
structure TidyBody (body : List Node) : Prop where
  lone : Block.LoneBehind body
  each : ∀ v ∈ body, v.Tidy

theorem TidyBody.nil : TidyBody [] :=
  ⟨.of_forall fun _ member => (nomatch member), fun _ member => nomatch member⟩

namespace Node

theorem tidy_iff {v : Node} : v.Tidy ↔ ∀ body ∈ v.form.bodies, TidyBody body := by
  constructor
  · rintro ⟨lone, below⟩ body member
    exact ⟨lone body member, below body member⟩
  · intro each
    exact ⟨fun body member => (each body member).lone, fun body member => (each body member).each⟩

theorem Tidy.of_form {u v : Node} (tidy : u.Tidy) (same : v.form = u.form) : v.Tidy := by
  rw [tidy_iff] at tidy ⊢
  rwa [same]

end Node

/-- Cutting the end of a tidy body loses no comment. -/
theorem TidyBody.cutBody {body stays cut : List Node} (tidy : TidyBody body)
    (split : Block.cutBody body = (stays, cut)) :
    TidyBody stays ∧ (∀ v ∈ cut, v.isCommentBlock = true ∧ v.Lone) ∧
      ∀ c, tally c (remarksOf stays) + tally c (remarksOf cut) = tally c (remarksOf body) := by
  have kept := Block.cutBody_stays tidy.lone
  have lone := Block.cutBody_lone tidy.lone
  have sums := fun c => Block.tally_cutBody c tidy.lone
  rw [split] at kept lone sums
  refine ⟨⟨kept.1, ?_⟩, lone, sums⟩
  intro v member
  obtain ⟨u, inside, same⟩ := kept.2 v member
  exact (tidy.each u inside).of_form same

namespace Form

/-- Cutting the end of the last body of a statement loses no comment, and
leaves the statement tidy. -/
theorem onLastBody_cutBody {f f' : Form} {cut : List Node}
    (split : f.onLastBody Block.cutBody = some (f', cut))
    (tidy : ∀ body ∈ f.bodies, TidyBody body) :
    (∀ body ∈ f'.bodies, TidyBody body) ∧ (∀ v ∈ cut, v.isCommentBlock = true ∧ v.Lone) ∧
      f'.start = f.start ∧ f'.isCommentBlock = f.isCommentBlock ∧
      ∀ c, tally c f'.remarks + tally c (remarksOf cut) = tally c f.remarks := by
  fun_induction onLastBody Block.cutBody f generalizing f' cut with
  | case1 p n q params r s body l stays cut' same =>
      cases split
      obtain ⟨stays, lone, sums⟩ := (tidy body (by simp [bodies])).cutBody same
      refine ⟨by simpa [bodies] using stays, lone, rfl, rfl, fun c => ?_⟩
      have sum := sums c
      simp only [remarks, held, children, List.nil_append, remarksOf_append, tally_append]
      omega
  | case2 p vars x body stays cut' same =>
      cases split
      obtain ⟨stays, lone, sums⟩ := (tidy body (by simp [bodies])).cutBody same
      refine ⟨by simpa [bodies] using stays, lone, rfl, rfl, fun c => ?_⟩
      have sum := sums c
      simp only [remarks, held, children, List.nil_append, remarksOf_cons, tally_append]
      omega
  | case3 p cond yesBody e stays cut' same =>
      cases split
      obtain ⟨stays, lone, sums⟩ := (tidy yesBody (by simp [bodies])).cutBody same
      refine ⟨by simpa [bodies] using ⟨stays, TidyBody.nil⟩, lone, rfl, rfl, fun c => ?_⟩
      have sum := sums c
      simp only [remarks, held, children, List.append_nil, remarksOf_cons, tally_append]
      omega
  | case4 p cond yesBody e comments p' cond' yesBody' e' noBody' ih =>
      rw [Option.map_eq_some_iff] at split
      obtain ⟨⟨inner, cut'⟩, inside, same⟩ := split
      cases same
      have nested : (Node.mk comments (.ifStmt p' cond' yesBody' e' noBody')).Tidy :=
        (tidy [_] (.tail _ (.head _))).each _ (.head _)
      obtain ⟨tidyInner, lone, _, _, sums⟩ := ih inside (Node.tidy_iff.mp nested)
      refine ⟨?_, lone, rfl, rfl, fun c => ?_⟩
      · have single : TidyBody [.mk comments inner] :=
          ⟨.of_single _, by simpa [Node.tidy_iff] using tidyInner⟩
        simpa [bodies] using ⟨tidy yesBody (by simp [bodies]), single⟩
      · have sum := sums c
        simp only [remarks, held, children, remarksOf_cons, remarksOf_append, remarksOf_nil,
          Node.remarks_mk, List.append_nil, tally_append] at sum ⊢
        omega
  | case5 p cond yesBody e noBody _ _ stays cut' same =>
      cases split
      obtain ⟨stays, lone, sums⟩ := (tidy noBody (by simp [bodies])).cutBody same
      refine ⟨by simpa [bodies] using ⟨tidy yesBody (by simp [bodies]), stays⟩, lone, rfl, rfl,
        fun c => ?_⟩
      have sum := sums c
      simp only [remarks, held, children, remarksOf_cons, remarksOf_append, tally_append]
      omega
  | case6 => cases split

end Form

namespace Node

/-- Cutting the comments off the end of a statement loses none. -/
theorem splitTrailing_kept {v v' : Node} {cut : List Node} (tidy : v.Tidy)
    (split : v.splitTrailing = (v', cut)) :
    v'.Tidy ∧ (∀ u ∈ cut, u.isCommentBlock = true ∧ u.Lone) ∧ v'.start = v.start ∧
      v'.isCommentBlock = v.isCommentBlock ∧ v'.comments = v.comments ∧
      ∀ c, tally c v'.remarks + tally c (remarksOf cut) = tally c v.remarks := by
  obtain ⟨comments, f⟩ := v
  unfold splitTrailing at split
  split at split
  · rename_i f' _ found
    cases split
    obtain ⟨tidy, lone, start, same, sums⟩ := Form.onLastBody_cutBody found (tidy_iff.mp tidy)
    refine ⟨tidy_iff.mpr tidy, lone, start, same, rfl, fun c => ?_⟩
    have sum := sums c
    simp only [remarks_mk, comments_mk, tally_append]
    simp only [form_mk] at sum
    omega
  · cases split
    exact ⟨tidy, by simp, rfl, rfl, rfl, by simp⟩

end Node

end Starlark
