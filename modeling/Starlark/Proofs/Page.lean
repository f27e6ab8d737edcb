import Mathlib.Data.Nat.PSub
import Starlark.Proofs.Spacing

/-!
# Pages in the course of printing

Printing a node moves the margin and opens brackets, and when it is done both
are where they were. What it does to the rest of the page is limited too: the
text grows at its end, where only blanks are taken back, and a comment that
waits for the end of a line leaves the queue only by being written
(`Page.Continues`). At the end of a file no comment waits.

The margin and the number of open brackets can be kept in two ways. `Script.run`
puts back the values from before; `Script.run?` counts up and down, and is stuck
where it would have to count below zero. For nodes and files both give the same
page, so a counter never gets there (`Script.run?_eq_run`).

What holds in the course of printing is said of the pages that a script passes
through (`Script.Passes`).
-/

set_option autoImplicit false

namespace Starlark

namespace Page

/-! ## Texts that grow at their end -/

/-- A text, last character first, comes from another one by taking back blanks at its end and by
writing behind what is left. -/
def Grows (old new : List Char) : Prop :=
  ∃ blanks kept added, old = blanks ++ kept ∧ (∀ c ∈ blanks, c = ' ') ∧ new = added ++ kept

namespace Grows

variable {a b c : List Char}

theorem refl (a : List Char) : Grows a a := ⟨[], a, [], rfl, List.forall_mem_nil _, rfl⟩

/-- Growing twice is growing once. -/
theorem trans (first : Grows a b) (second : Grows b c) : Grows a c := by
  obtain ⟨blanks, kept, added, rfl, blank, rfl⟩ := first
  obtain ⟨blanks', kept', added', same, blank', rfl⟩ := second
  rcases List.append_eq_append_iff.mp same with ⟨more, rfl, rfl⟩ | ⟨still, rfl, rfl⟩
  · -- the second step takes back all that the first one has added, and more
    obtain ⟨_, old⟩ := List.forall_mem_append.mp blank'
    refine ⟨blanks ++ more, kept', added', ?_, List.forall_mem_append.mpr ⟨blank, old⟩, rfl⟩
    rw [List.append_assoc]
  · refine ⟨blanks, kept, added' ++ still, rfl, blank, ?_⟩
    rw [List.append_assoc]

end Grows

/-! ## Pages that go on -/

/-- The comments that wait on `p` have been written by the time of `q`: at a page on which they
still waited, in front of later ones, the end of a line has come and all of them were written. -/
def Wrote (p q : Page) : Prop :=
  ∃ m : Page, Grows p.rev m.rev ∧ p.pending <+: m.pending ∧ Grows m.flush.rev q.rev

/-- The page `q` continues `p`: it has grown, and the comments that wait on `p` still wait, in
front of later ones, or have been written. -/
structure Continues (p q : Page) : Prop where
  grows : Grows p.rev q.rev
  comments : p.pending <+: q.pending ∨ Wrote p q

variable {p q r : Page}

theorem Continues.of_eq (rev : p.rev = q.rev) (pending : p.pending = q.pending) :
    Continues p q :=
  ⟨rev ▸ .refl p.rev, .inl (pending ▸ List.prefix_rfl)⟩

theorem Continues.refl (p : Page) : Continues p p := .of_eq rfl rfl

theorem Continues.trans (first : Continues p q) (second : Continues q r) : Continues p r := by
  refine ⟨first.grows.trans second.grows, ?_⟩
  rcases first.comments with waits | ⟨m, grown, queued, written⟩
  · rcases second.comments with still | ⟨m, grown, queued, written⟩
    · exact .inl (waits.trans still)
    · exact .inr ⟨m, first.grows.trans grown, waits.trans queued, written⟩
  · exact .inr ⟨m, grown, queued, written.trans second.grows⟩

theorem continues_foldl (step : Page → Comment → Page) (each : ∀ p c, Continues p (step p c))
    (cs : List Comment) (p : Page) : Continues p (cs.foldl step p) := by
  induction cs generalizing p with
  | nil => exact .refl p
  | cons c cs ih => exact (each p c).trans (ih (step p c))

theorem continues_putChars (chars : List Char) (p : Page) : Continues p (p.putChars chars) :=
  ⟨⟨[], p.rev, chars.reverse, rfl, List.forall_mem_nil _, rfl⟩, .inl List.prefix_rfl⟩

theorem continues_comment (c : Comment) (p : Page) : Continues p (p.comment c) :=
  continues_putChars _ p

theorem continues_queue (cs : List Comment) (p : Page) : Continues p (p.queue cs) :=
  ⟨.refl p.rev, .inl (List.prefix_append p.pending cs)⟩

/-- Only blanks are taken back. -/
theorem continues_trim (p : Page) : Continues p p.trim := by
  refine ⟨⟨p.rev.takeWhile (· == ' '), p.trim.rev, [], ?_, ?_, rfl⟩, .inl List.prefix_rfl⟩
  · exact List.takeWhile_append_dropWhile.symm
  · intro c member
    simpa using List.mem_takeWhile_imp member

theorem continues_lineBreak (p : Page) : Continues p p.lineBreak :=
  ((continues_trim p).trans (continues_putChars ['\n'] _)).trans (continues_putChars _ _)

/-- Writing the comments that wait takes back blanks at most. -/
theorem grows_flush (p : Page) : Grows p.rev p.flush.rev := by
  unfold flush
  split
  next => exact .refl p.rev
  next first rest same =>
    have begun : Grows p.rev (comment first (put "  " { p with pending := [] })).rev :=
      ((continues_putChars _ { p with pending := [] }).trans (continues_comment first _)).grows
    apply begun.trans
    apply (continues_foldl (fun p c => p.lineBreak.comment c) ?_ rest _).grows
    intro p c
    exact (continues_lineBreak p).trans (continues_comment c _)

/-- The queue is emptied only where its comments are written. -/
theorem continues_newline (p : Page) : Continues p p.newline where
  grows := (grows_flush { p with breakDue := false }).trans (continues_lineBreak _).grows
  comments := .inr ⟨{ p with breakDue := false }, .refl p.rev, List.prefix_rfl,
    (continues_lineBreak _).grows⟩

theorem continues_breakIfDue (p : Page) : Continues p p.breakIfDue := by
  unfold breakIfDue
  split
  next => exact continues_newline p
  next => exact .refl p

theorem continues_commentLines (cs : List Comment) (p : Page) : Continues p (p.commentLines cs) :=
  continues_foldl (fun p c => newline (comment c p))
    (fun p c => (continues_comment c p).trans (continues_newline _)) cs p

/-- Comments above a node continue a page. -/
theorem continues_leading (cs : List Comment) (p : Page) : Continues p (p.leading cs) := by
  unfold leading
  split
  next => exact .refl p
  next =>
    have begun : Continues p (if 0 < p.trim.column then p.trim.putChars ['\n'] else p.trim) := by
      split
      · exact (continues_trim p).trans (continues_putChars _ _)
      · exact continues_trim p
    exact (begun.trans (continues_putChars _ _)).trans (continues_commentLines cs _)

end Page

/-! ## Playing a script -/

namespace Script

open Page

/-- Whatever a script does, the page goes on. -/
theorem continues_run (s : Script) (p : Page) : Continues p (s.run p) := by
  induction s generalizing p with
  | done | note | softBreak => exact .of_eq rfl rfl
  | word w => exact continues_putChars w.text p
  | blank => exact continues_putChars [' '] p
  | queue cs => exact continues_queue cs p
  | newline => exact continues_newline p
  | breakIfDue => exact continues_breakIfDue p
  | breakInside =>
      simp only [run, Page.breakInside]
      split
      · exact (continues_putChars _ p).trans (continues_putChars _ _)
      · exact continues_newline p
  | leading cs => exact continues_leading cs p
  | remarks cs => exact continues_commentLines cs p
  | closing cs =>
      apply continues_foldl (fun p c => comment c p.newline)
      intro p c
      exact (continues_newline p).trans (continues_comment c _)
  | under cs =>
      apply continues_foldl (fun p c => Page.softBreak (comment c p.breakIfDue))
      intro p c
      have written := (continues_breakIfDue p).trans (continues_comment c _)
      exact written.trans (.of_eq rfl rfl)
  | room =>
      simp only [run]
      split
      · exact .refl p
      · exact (continues_putChars _ p).trans (continues_putChars _ _)
  | apart s t =>
      simp only [run]
      split
      · exact .refl p
      · exact continues_newline p
  | hang breaks extra body ih =>
      have inside := ih { p with margin := if breaks = true then p.column + extra else p.margin }
      exact ⟨inside.grows, inside.comments⟩
  | indented body ih =>
      have inside := ih { p with margin := p.margin + indentWidth }
      exact ⟨inside.grows, inside.comments⟩
  | enclosed body ih =>
      have inside := ih { p with depth := p.depth + 1 }
      exact ⟨inside.grows, inside.comments⟩
  | seq first second one two => exact (one p).trans (two _)

/-- The pages that a script passes through when it is played on a page. -/
inductive Passes : Script → Page → Page → Prop
  | start (s : Script) (p : Page) : Passes s p p
  | finish (s : Script) (p : Page) : Passes s p (s.run p)
  | hang {breaks : Bool} {extra : Nat} {body : Script} {p m : Page}
      (inside : Passes body
        { p with margin := if breaks then p.column + extra else p.margin } m) :
      Passes (hang breaks extra body) p m
  | indented {body : Script} {p m : Page}
      (inside : Passes body { p with margin := p.margin + indentWidth } m) :
      Passes (indented body) p m
  | enclosed {body : Script} {p m : Page}
      (inside : Passes body { p with depth := p.depth + 1 } m) : Passes (enclosed body) p m
  | first {s t : Script} {p m : Page} (inside : Passes s p m) : Passes (s ++ t) p m
  | second {s t : Script} {p m : Page} (inside : Passes t (s.run p) m) : Passes (s ++ t) p m

/-- Each page on the way continues the first one, and the last one continues it. -/
theorem Passes.continues {s : Script} {p m : Page} (passes : s.Passes p m) :
    Continues p m ∧ Continues m (s.run p) := by
  induction passes with
  | start s p => exact ⟨.refl p, s.continues_run p⟩
  | finish s p => exact ⟨s.continues_run p, .refl _⟩
  | hang _ ih | indented _ ih | enclosed _ ih =>
      obtain ⟨before, after⟩ := ih
      exact ⟨⟨before.grows, before.comments⟩, ⟨after.grows, after.comments⟩⟩
  | @first s t p m _ ih => exact ⟨ih.1, ih.2.trans (t.continues_run _)⟩
  | @second s t p m _ ih => exact ⟨(s.continues_run p).trans ih.1, ih.2⟩

/-! ## Counting -/

/-- Plays a script and keeps the margin and the open brackets by counting up and down. It is stuck
where a counter would fall below zero. -/
def run? : Script → Page → Option Page
  | room, p =>
    if p.pending.isEmpty then some p
    else do
      let width ← p.margin.psub 2
      some (Page.pad width (p.putChars ['\n']))
  | hang breaks extra body, p => do
    let q ← body.run? { p with margin := if breaks then p.column + extra else p.margin }
    some { q with margin := p.margin }
  | indented body, p => do
    let q ← body.run? { p with margin := p.margin + indentWidth }
    let margin ← q.margin.psub indentWidth
    some { q with margin := margin }
  | enclosed body, p => do
    let q ← body.run? { p with depth := p.depth + 1 }
    let depth ← q.depth.psub 1
    some { q with depth := depth }
  | seq first second, p => do
    let q ← first.run? p
    second.run? q
  | s, p => some (s.run p)

theorem run?_append {s t : Script} {p : Page} (first : s.run? p = some (s.run p))
    (second : t.run? (s.run p) = some (t.run (s.run p))) :
    (s ++ t).run? p = some ((s ++ t).run p) := by
  show (s.run? p).bind t.run? = _
  rw [first]
  exact second

/-- A script that looks at the margin only inside an indented body never counts below zero. -/
theorem run?_eq_run {s : Script} {deep : Bool} (sheltered : s.Sheltered deep) {p : Page}
    (wide : deep = true → indentWidth ≤ p.margin) : s.run? p = some (s.run p) := by
  induction s generalizing deep p with
  | room =>
      have enough : 2 ≤ p.margin := Nat.le_trans (by decide) (wide sheltered)
      simp only [run?, run, Nat.psub_eq_sub enough]
      split <;> rfl
  | hang breaks extra body ih =>
      rw [run?, ih sheltered fun shallow => absurd shallow Bool.false_ne_true]
      rfl
  | indented body ih =>
      have inside := ih sheltered (p := { p with margin := p.margin + indentWidth })
        fun _ => Nat.le_add_left indentWidth p.margin
      have margin := (body.sameFrame_run { p with margin := p.margin + indentWidth }).margin
      simp only [run?, inside, Option.bind_eq_bind, Option.bind_some,
        Nat.psub_eq_some.mpr margin.symm]
      rfl
  | enclosed body ih =>
      have inside := ih sheltered (p := { p with depth := p.depth + 1 }) wide
      have depth := (body.sameFrame_run { p with depth := p.depth + 1 }).depth
      simp only [run?, inside, Option.bind_eq_bind, Option.bind_some,
        Nat.psub_eq_some.mpr depth.symm]
      rfl
  | seq first second one two =>
      apply run?_append (one sheltered.1 wide)
      apply two sheltered.2
      intro holds
      rw [(first.sameFrame_run p).margin]
      exact wide holds
  | _ => rfl

end Script

/-- Printing a node never counts below zero. -/
theorem Node.run?_script (v : Node) (outer : Strength) (p : Page) :
    (v.script outer).run? p = some (v.print outer p) := by
  rw [v.print_eq_run]
  exact Script.run?_eq_run (v.sheltered_script outer) fun shallow =>
    absurd shallow Bool.false_ne_true

/-- Statements at the top of a file stand outside all bodies, but each of them is a node. -/
theorem Script.run?_statements (vs : List Node) (p : Page) :
    (Script.statements (scriptList vs)).run? p =
      some ((Script.statements (scriptList vs)).run p) := by
  have whole (v : Node) (p : Page) : v.asLine.whole.run? p = some (v.asLine.whole.run p) :=
    Script.run?_eq_run v.sheltered_whole fun shallow => absurd shallow Bool.false_ne_true
  induction vs generalizing p with
  | nil => rfl
  | cons v vs ih =>
      cases vs with
      | nil => exact whole v p
      | cons w rest =>
          exact Script.run?_append
            (Script.run?_append (Script.run?_append (whole v p) rfl) rfl) (ih _)

/-- Printing a file never counts below zero. -/
theorem File.run?_script (f : File) (p : Page) : f.script.run? p = some (f.print p) := by
  rw [f.print_eq_run]
  exact Script.run?_append (Script.run?_append
    (Script.run?_append rfl (Script.run?_statements _ _)) rfl) rfl

/-! ## The queue at the end of a file -/

namespace Page

/-- No comment waits, or the end of the line is due. -/
def Settled (p : Page) : Prop := p.pending = [] ∨ p.breakDue = true

variable {p : Page}

theorem newline_pending (p : Page) : p.newline.pending = [] :=
  flush_pending { p with breakDue := false }

theorem settled_newline (p : Page) : p.newline.Settled := .inl p.newline_pending

theorem Settled.commentLines (settled : p.Settled) (cs : List Comment) :
    (p.commentLines cs).Settled := by
  induction cs generalizing p with
  | nil => exact settled
  | cons c cs ih => exact ih (settled_newline (p.comment c))

theorem Settled.below (settled : p.Settled) (cs : List Comment) : (p.below cs).Settled := by
  induction cs generalizing p with
  | nil => exact settled
  | cons c cs ih => exact ih (.inr rfl)

/-- When the end of the line has come, if it was due, no comment waits. -/
theorem Settled.breakIfDue_pending (settled : p.Settled) : p.breakIfDue.pending = [] := by
  unfold breakIfDue
  split
  next => exact p.newline_pending
  next open' => exact settled.resolve_right open'

/-- A comment block writes nothing, and every other statement asks for a new line. -/
theorem Settled.statement (settled : p.Settled) (s : Printed) : (s.statement p).Settled := by
  unfold Printed.statement
  split
  next => exact settled
  next => exact .inr rfl
  next => exact .inr rfl

/-- Statements leave no comment to wait, unless the end of the line is due. -/
theorem Settled.statements (settled : p.Settled) (ss : List Printed) :
    (p.statements ss).Settled := by
  fun_induction Page.statements ss p with
  | case1 => exact settled
  | case2 s p => exact (settled.statement s).below _
  | case3 s t rest p ended ih =>
      apply ih
      split
      · exact settled_newline _
      · exact settled_newline _

end Page

theorem File.page_pending (f : File) (σ : Spacing) : (f.page σ).pending = [] := by
  have start : (Page.blank σ).Settled := .inl rfl
  have front := start.commentLines f.comments.before
  exact ((front.statements _).commentLines f.comments.after).breakIfDue_pending

/-! ## Printing nodes and files -/

open Page in
/-- Printing a node, on every page and for every strength that is asked for, puts back the margin,
the open brackets and the spacing, and counts neither of the first two below zero. Meanwhile the
page goes on: it grows at its end, and no waiting comment is dropped. Printing a file leaves no
comment waiting, so each that has waited on the way has been written. -/
theorem Page.restored_by_printing :
    (∀ (v : Node) (outer : Strength) (p : Page),
      SameFrame p (v.print outer p) ∧
      (v.script outer).run? p = some (v.print outer p) ∧
      ∀ m, (v.script outer).Passes p m → Continues p m ∧ Continues m (v.print outer p)) ∧
    ∀ (f : File) (σ : Spacing),
      (f.page σ).pending = [] ∧
      f.script.run? (.blank σ) = some (f.page σ) ∧
      ∀ m, f.script.Passes (.blank σ) m →
        Grows m.rev (f.page σ).rev ∧ (m.pending = [] ∨ Wrote m (f.page σ)) := by
  constructor
  · intro v outer p
    refine ⟨?_, v.run?_script outer p, ?_⟩
    · rw [v.print_eq_run]
      exact (v.script outer).sameFrame_run p
    · intro m passes
      rw [v.print_eq_run]
      exact passes.continues
  · intro f σ
    refine ⟨f.page_pending σ, f.run?_script (.blank σ), ?_⟩
    intro m passes
    have goesOn : Continues m (f.page σ) := by
      rw [File.page, f.print_eq_run]
      exact passes.continues.2
    refine ⟨goesOn.grows, goesOn.comments.imp_left fun waits => ?_⟩
    rw [f.page_pending σ] at waits
    exact List.prefix_nil.mp waits

/-- A file with a list on lines of its own, and a comment behind the first of two elements. -/
def File.ofCommentedList : File :=
  let a : Node := .mk (.ofSuffix [.new "# c"]) (.ident .nowhere "a")
  let b : Node := .mk .none (.ident .nowhere "b")
  ⟨"a.bzl", .bzl, [.mk .none (.collection .list .nowhere [a, b] (.at .nowhere) ⟨false, true⟩)],
    .none⟩

open Page Script in
/-- The comment waits inside the list, where the margin has moved and a bracket is open. -/
theorem Page.restored_by_printing_list :
    ∃ m, File.ofCommentedList.script.Passes (.blank .grouped) m ∧
      m.pending = [.new "# c"] ∧ m.margin = 4 ∧ m.depth = 1 ∧
      Wrote m (File.ofCommentedList.page .grouped) := by
  obtain ⟨m, passes, pending, margin, depth⟩ :
      ∃ m, File.ofCommentedList.script.Passes (.blank .grouped) m ∧
        m.pending = [.new "# c"] ∧ m.margin = 4 ∧ m.depth = 1 := by
    refine ⟨_,
      -- from the file to its statement, to the form of the node, to what is in the brackets
      .first (.first (.second (.first (.first (.first (.second
        (.first (.second (.enclosed (.first (.indented (.first (.second
          -- the first element, behind the end of the line of the bracket
          (.first (.first (.second (.finish _ _))))))))))))))))), ?_, ?_, ?_⟩
    · rfl
    · rfl
    · rfl
  have written := (Page.restored_by_printing.2 File.ofCommentedList .grouped).2.2 m passes
  refine ⟨m, passes, pending, margin, depth, written.2.resolve_left ?_⟩
  rw [pending]
  exact List.cons_ne_nil _ _

end Starlark
