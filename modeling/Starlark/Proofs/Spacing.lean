import Starlark.Proofs.Script.Sheltered

/-!
# Blank lines between the statements of a file

A file can be printed with its statements apart or grouped. Apart means that
empty lines are added between statements, and nothing else changes
(`File.thins_formatWith`).

The spacing is looked at in the middle of printing, so this compares two runs
over the same tree. Two pages are alike when they differ only in their spacing
and in what stands above the present line (`Page.Alike`). A script keeps pages
alike: it takes back blanks and counts columns only up to the last line end,
and inside a body it decides on blank lines without looking at the spacing. At
the top of a file each statement starts on a line of its own with no comment
waiting, so what it writes there is what it writes on an empty page
(`Page.Fresh.run_rev`). Both runs therefore write the same lines, and only the
empty lines between them differ.
-/

set_option autoImplicit false

namespace Starlark

/-! ## What printing puts back -/

namespace Page

/-- Two pages have the same margin, open brackets and spacing. -/
structure SameFrame (p q : Page) : Prop where
  margin : q.margin = p.margin
  depth : q.depth = p.depth
  spacing : q.spacing = p.spacing

variable {p q r : Page}

theorem SameFrame.refl (p : Page) : SameFrame p p := ⟨rfl, rfl, rfl⟩

theorem SameFrame.trans (first : SameFrame p q) (second : SameFrame q r) : SameFrame p r :=
  ⟨second.margin.trans first.margin, second.depth.trans first.depth,
    second.spacing.trans first.spacing⟩

/-- What each comment leaves as it is, a list of comments leaves as it is. -/
theorem foldl_keeps {α : Type} (read : Page → α) (step : Page → Comment → Page)
    (each : ∀ p c, read (step p c) = read p) (cs : List Comment) (p : Page) :
    read (cs.foldl step p) = read p := by
  induction cs generalizing p with
  | nil => rfl
  | cons c cs ih => exact (ih (step p c)).trans (each p c)

theorem sameFrame_foldl (step : Page → Comment → Page) (each : ∀ p c, SameFrame p (step p c))
    (cs : List Comment) (p : Page) : SameFrame p (cs.foldl step p) where
  margin := foldl_keeps Page.margin step (fun p c => (each p c).margin) cs p
  depth := foldl_keeps Page.depth step (fun p c => (each p c).depth) cs p
  spacing := foldl_keeps Page.spacing step (fun p c => (each p c).spacing) cs p

theorem sameFrame_comment (c : Comment) (p : Page) : SameFrame p (p.comment c) := ⟨rfl, rfl, rfl⟩

theorem sameFrame_lineBreak (p : Page) : SameFrame p p.lineBreak := ⟨rfl, rfl, rfl⟩

theorem sameFrame_flush (p : Page) : SameFrame p p.flush := by
  unfold flush
  split
  next => exact .refl p
  next first rest same =>
    have started : SameFrame p (comment first (put "  " { p with pending := [] })) :=
      ⟨rfl, rfl, rfl⟩
    refine started.trans (sameFrame_foldl (fun p c => comment c p.lineBreak) (fun p c => ?_) rest _)
    exact (sameFrame_lineBreak p).trans (sameFrame_comment c _)

theorem sameFrame_newline (p : Page) : SameFrame p p.newline := by
  have cleared : SameFrame p { p with breakDue := false } := ⟨rfl, rfl, rfl⟩
  exact (cleared.trans (sameFrame_flush _)).trans (sameFrame_lineBreak _)

theorem sameFrame_breakIfDue (p : Page) : SameFrame p p.breakIfDue := by
  unfold breakIfDue
  split
  next => exact sameFrame_newline p
  next => exact .refl p

theorem sameFrame_commentLines (cs : List Comment) (p : Page) : SameFrame p (p.commentLines cs) :=
  sameFrame_foldl (fun p c => newline (comment c p))
    (fun p c => (sameFrame_comment c p).trans (sameFrame_newline _)) cs p

theorem sameFrame_leading (cs : List Comment) (p : Page) : SameFrame p (p.leading cs) := by
  unfold leading
  split
  next => exact .refl p
  next =>
    have started : SameFrame p (if 0 < p.trim.column then p.trim.putChars ['\n'] else p.trim) := by
      split <;> exact ⟨rfl, rfl, rfl⟩
    have padded (r : Page) : SameFrame r (pad r.margin r) := ⟨rfl, rfl, rfl⟩
    exact (started.trans (padded _)).trans (sameFrame_commentLines cs _)

end Page

open Page in
/-- A script puts the margin and the open brackets back. -/
theorem Script.sameFrame_run (s : Script) (p : Page) : SameFrame p (s.run p) := by
  induction s generalizing p with
  | done | word | blank | note | queue | softBreak => exact ⟨rfl, rfl, rfl⟩
  | newline => exact sameFrame_newline p
  | breakIfDue => exact sameFrame_breakIfDue p
  | breakInside =>
      simp only [run, Page.breakInside]
      split
      · exact ⟨rfl, rfl, rfl⟩
      · exact sameFrame_newline p
  | leading cs => exact sameFrame_leading cs p
  | remarks cs => exact sameFrame_commentLines cs p
  | closing cs =>
      exact sameFrame_foldl (fun p c => comment c p.newline)
        (fun p c => (sameFrame_newline p).trans (sameFrame_comment c _)) cs p
  | under cs =>
      exact sameFrame_foldl (fun p c => Page.softBreak (comment c p.breakIfDue))
        (fun p c => (sameFrame_breakIfDue p).trans ⟨rfl, rfl, rfl⟩) cs p
  | room =>
      simp only [run]
      split <;> exact ⟨rfl, rfl, rfl⟩
  | apart s t =>
      simp only [run]
      split
      · exact .refl p
      · exact sameFrame_newline p
  | hang breaks extra body ih =>
      have kept := ih { p with margin := if breaks = true then p.column + extra else p.margin }
      exact ⟨rfl, kept.depth, kept.spacing⟩
  | indented body ih =>
      have kept := ih { p with margin := p.margin + indentWidth }
      exact ⟨rfl, kept.depth, kept.spacing⟩
  | enclosed body ih =>
      have kept := ih { p with depth := p.depth + 1 }
      exact ⟨kept.margin, rfl, kept.spacing⟩
  | seq first second one two => exact (one p).trans (two _)

/-! ## Pages that differ above the present line -/

/-- Text, last character first, behind which a line starts. -/
def StartsLine (rev : List Char) : Prop := rev = [] ∨ ∃ above, rev = '\n' :: above

theorem StartsLine.takeWhile {a : List Char} (line : StartsLine a) (w : List Char) :
    (w ++ a).takeWhile (· != '\n') = w.takeWhile (· != '\n') := by
  induction w with
  | nil => obtain rfl | ⟨above, rfl⟩ := line <;> rfl
  | cons c w ih =>
      rw [List.cons_append, List.takeWhile_cons, List.takeWhile_cons, ih]

theorem StartsLine.dropWhile {a : List Char} (line : StartsLine a) (w : List Char) :
    (w ++ a).dropWhile (· == ' ') = w.dropWhile (· == ' ') ++ a := by
  induction w with
  | nil => obtain rfl | ⟨above, rfl⟩ := line <;> rfl
  | cons c w ih =>
      rw [List.cons_append, List.dropWhile_cons, List.dropWhile_cons]
      split
      · exact ih
      · rfl

namespace Page

/-- Two pages that agree in all but their spacing and what they hold above: `p` behind the text
`a`, and `q` behind the text `b`. -/
structure Alike (a b : List Char) (p q : Page) : Prop where
  text : ∃ w, p.rev = w ++ a ∧ q.rev = w ++ b
  pending : q.pending = p.pending
  margin : q.margin = p.margin
  depth : q.depth = p.depth
  breakDue : q.breakDue = p.breakDue

namespace Alike

variable {a b : List Char} {p q : Page}

theorem putChars (alike : Alike a b p q) (chars : List Char) :
    Alike a b (p.putChars chars) (q.putChars chars) := by
  obtain ⟨w, left, right⟩ := alike.text
  refine { alike with text := ⟨chars.reverse ++ w, ?_, ?_⟩ }
  · rw [Page.putChars, left, List.append_assoc]
  · rw [Page.putChars, right, List.append_assoc]

theorem comment (alike : Alike a b p q) (c : Comment) : Alike a b (p.comment c) (q.comment c) :=
  alike.putChars _

theorem foldl (step : Page → Comment → Page)
    (each : ∀ {p q}, Alike a b p q → ∀ c, Alike a b (step p c) (step q c))
    (alike : Alike a b p q) (cs : List Comment) :
    Alike a b (cs.foldl step p) (cs.foldl step q) := by
  induction cs generalizing p q with
  | nil => exact alike
  | cons c cs ih => exact ih (each alike c)

variable (first : StartsLine a) (second : StartsLine b)
include first second

theorem column (alike : Alike a b p q) : q.column = p.column := by
  obtain ⟨w, left, right⟩ := alike.text
  rw [Page.column, Page.column, left, right, first.takeWhile, second.takeWhile]

theorem trim (alike : Alike a b p q) : Alike a b p.trim q.trim := by
  obtain ⟨w, left, right⟩ := alike.text
  refine { alike with text := ⟨w.dropWhile (· == ' '), ?_, ?_⟩ }
  · rw [Page.trim, left, first.dropWhile]
  · rw [Page.trim, right, second.dropWhile]

theorem lineBreak (alike : Alike a b p q) : Alike a b p.lineBreak q.lineBreak := by
  have ended := (alike.trim first second).putChars ['\n']
  rw [Page.lineBreak, Page.lineBreak, alike.margin]
  exact ended.putChars _

/-- Writing the comments that wait keeps two pages alike. -/
theorem flush (alike : Alike a b p q) : Alike a b p.flush q.flush := by
  unfold Page.flush
  rw [alike.pending]
  split
  next => exact alike
  next c cs same =>
    have cleared : Alike a b { p with pending := [] } { q with pending := [] } :=
      { alike with pending := rfl }
    exact foldl (fun p c => p.lineBreak.comment c)
      (fun alike c => (alike.lineBreak first second).comment c)
      ((cleared.putChars "  ".toList).comment c) cs

theorem newline (alike : Alike a b p q) : Alike a b p.newline q.newline := by
  have cleared : Alike a b { p with breakDue := false } { q with breakDue := false } :=
    { alike with breakDue := rfl }
  exact (cleared.flush first second).lineBreak first second

theorem breakIfDue (alike : Alike a b p q) : Alike a b p.breakIfDue q.breakIfDue := by
  unfold Page.breakIfDue
  rw [alike.breakDue]
  split
  next => exact alike.newline first second
  next => exact alike

theorem breakInside (alike : Alike a b p q) : Alike a b p.breakInside q.breakInside := by
  unfold Page.breakInside
  rw [alike.depth, alike.margin]
  split
  next => exact (alike.putChars " \\\n".toList).putChars _
  next => exact alike.newline first second

theorem commentLines (alike : Alike a b p q) (cs : List Comment) :
    Alike a b (p.commentLines cs) (q.commentLines cs) :=
  foldl (fun p c => (p.comment c).newline)
    (fun alike c => (alike.comment c).newline first second) alike cs

/-- So do comments above a node. -/
theorem leading (alike : Alike a b p q) (cs : List Comment) :
    Alike a b (p.leading cs) (q.leading cs) := by
  unfold Page.leading
  split
  next => exact alike
  next =>
    have trimmed := alike.trim first second
    have open' : Alike a b (if 0 < p.trim.column then p.trim.putChars ['\n'] else p.trim)
        (if 0 < q.trim.column then q.trim.putChars ['\n'] else q.trim) := by
      rw [trimmed.column first second]
      split
      · exact trimmed.putChars _
      · exact trimmed
    dsimp only
    rw [open'.margin]
    exact (open'.putChars _).commentLines first second cs

/-- A script does the same on both pages, provided that it asks for a blank line between
statements only where the margin is positive. -/
theorem run {s : Script} {deep : Bool} (sheltered : s.Sheltered deep)
    (positive : deep = true → 0 < p.margin) (alike : Alike a b p q) :
    Alike a b (s.run p) (s.run q) := by
  induction s generalizing deep p q with
  | done => exact alike
  | word w => exact alike.putChars w.text
  | blank => exact alike.putChars [' ']
  | note token => exact { alike with }
  | queue cs => exact { alike with pending := congrArg (· ++ cs) alike.pending }
  | newline => exact alike.newline first second
  | softBreak => exact { alike with breakDue := rfl }
  | breakIfDue => exact alike.breakIfDue first second
  | breakInside => exact alike.breakInside first second
  | leading cs => exact alike.leading first second cs
  | remarks cs => exact alike.commentLines first second cs
  | closing cs =>
      exact foldl (fun p c => p.newline.comment c)
        (fun alike c => (alike.newline first second).comment c) alike cs
  | under cs =>
      refine foldl (fun p c => (p.breakIfDue.comment c).softBreak) (fun alike c => ?_) alike cs
      exact { (alike.breakIfDue first second).comment c with breakDue := rfl }
  | room =>
      simp only [Script.run]
      rw [alike.pending, alike.margin]
      split
      · exact alike
      · exact (alike.putChars _).putChars _
  | apart s t =>
      have inside : p.margin ≠ 0 := Nat.ne_of_gt (positive sheltered)
      have same : q.keepsTogether s t = p.keepsTogether s t := by
        simp [keepsTogether, alike.margin, inside]
      simp only [Script.run]
      rw [same]
      split
      · exact alike
      · exact alike.newline first second
  | hang breaks extra body ih =>
      simp only [Script.run, marginAt]
      rw [alike.column first second, alike.margin]
      have moved : Alike a b
          { p with margin := if breaks = true then p.column + extra else p.margin }
          { q with margin := if breaks = true then p.column + extra else p.margin } :=
        { alike with margin := rfl }
      exact { ih sheltered (fun deep => absurd deep Bool.false_ne_true) moved with margin := rfl }
  | indented body ih =>
      simp only [Script.run, indented, marginAt]
      rw [alike.margin]
      have moved : Alike a b { p with margin := p.margin + indentWidth }
          { q with margin := p.margin + indentWidth } := { alike with margin := rfl }
      exact { ih sheltered (fun _ => by simp [indentWidth]) moved with margin := rfl }
  | enclosed body ih =>
      simp only [Script.run, enclosed]
      rw [alike.depth]
      have deeper : Alike a b { p with depth := p.depth + 1 } { q with depth := p.depth + 1 } :=
        { alike with depth := rfl }
      exact { ih sheltered (by exact positive) deeper with depth := rfl }
  | seq one two first' second' =>
      refine second' sheltered.2 (fun holds => ?_) (first' sheltered.1 positive alike)
      rw [(one.sameFrame_run p).margin]
      exact positive holds

end Alike

/-! ## Between the statements of a file -/

/-- A page at the start of a line at the top of a file, with nothing left to write. -/
structure Fresh (p : Page) : Prop where
  line : StartsLine p.rev
  pending : p.pending = []
  margin : p.margin = 0
  depth : p.depth = 0
  breakDue : p.breakDue = false

variable {p : Page}

theorem fresh_blank (σ : Spacing) : (blank σ).Fresh := ⟨.inl rfl, rfl, rfl, rfl, rfl⟩

theorem flush_pending (p : Page) : p.flush.pending = [] := by
  unfold flush
  split
  next none => exact none
  next => exact foldl_keeps Page.pending (fun p c => p.lineBreak.comment c) (fun _ _ => rfl) _ _

theorem flush_breakDue (p : Page) : p.flush.breakDue = p.breakDue := by
  unfold flush
  split
  next => rfl
  next => exact foldl_keeps Page.breakDue (fun p c => p.lineBreak.comment c) (fun _ _ => rfl) _ _

theorem exists_newline_rev (margin : p.margin = 0) : ∃ above, p.newline.rev = '\n' :: above := by
  have kept : (flush { p with breakDue := false }).margin = 0 :=
    (sameFrame_flush { p with breakDue := false }).margin.trans margin
  rw [newline, lineBreak, kept]
  exact ⟨_, rfl⟩

theorem fresh_newline (margin : p.margin = 0) (depth : p.depth = 0) : p.newline.Fresh where
  line := .inr (exists_newline_rev margin)
  pending := flush_pending { p with breakDue := false }
  margin := (sameFrame_newline p).margin.trans margin
  depth := (sameFrame_newline p).depth.trans depth
  breakDue := flush_breakDue { p with breakDue := false }

namespace Fresh

theorem alike (fresh : p.Fresh) (σ : Spacing) : Alike p.rev [] p (blank σ) :=
  ⟨⟨[], rfl, rfl⟩, fresh.pending.symm, fresh.margin.symm, fresh.depth.symm, fresh.breakDue.symm⟩

/-- What a script writes at the start of a line is what it writes on an empty page. -/
theorem run_rev (fresh : p.Fresh) {s : Script} (sheltered : s.Sheltered false) (σ : Spacing) :
    (s.run p).rev = (s.run (blank σ)).rev ++ p.rev := by
  obtain ⟨w, left, right⟩ := ((fresh.alike σ).run fresh.line (.inl rfl) sheltered nofun).text
  rw [left, right, List.append_nil]

/-- A line that is left empty. -/
theorem newline_rev (fresh : p.Fresh) : p.newline.rev = '\n' :: p.rev := by
  have nothing : flush { p with breakDue := false } = { p with breakDue := false } := by
    rw [flush, fresh.pending]
  have trimmed := fresh.line.dropWhile []
  rw [newline, nothing, lineBreak, fresh.margin]
  exact congrArg ('\n' :: ·) trimmed

theorem commentLines (fresh : p.Fresh) (cs : List Comment) : (p.commentLines cs).Fresh := by
  induction cs generalizing p with
  | nil => exact fresh
  | cons c cs ih => exact ih (fresh_newline fresh.margin fresh.depth)

theorem keepsTogether_eq (fresh : p.Fresh) (s t : Node) :
    p.keepsTogether s t = (blank p.spacing).keepsTogether s t := by
  unfold keepsTogether
  rw [fresh.margin]
  rfl

end Fresh

end Page

open Script (Line)

/-- The lines of a statement at the top of a file, behind which another one follows. -/
def Node.lines (v : Node) : List Char :=
  (Page.newline (Page.below v.comments.after
    (Printed.statement ⟨v, v.print .low⟩ (.blank .grouped)))).rev.reverse

/-- A statement with its script. -/
def Node.asLine (v : Node) : Line := ⟨v, v.script .low⟩

theorem Node.sheltered_whole (v : Node) : v.asLine.whole.Sheltered false :=
  Script.Line.sheltered_whole (v.sheltered_script .low)

theorem Node.lines_eq (v : Node) :
    v.lines = ((v.asLine.whole ++ .newline).run (.blank .grouped)).rev.reverse := by
  have doc : v.print .low = (v.script .low).run := funext (v.print_eq_run .low)
  rw [Node.lines, doc, Script.run_append, Script.Line.whole, Script.run_append,
    Script.Line.run_statement]
  rfl

theorem Node.exists_lines_eq (v : Node) : ∃ text, v.lines = text ++ ['\n'] := by
  have top : (v.asLine.whole.run (.blank .grouped)).margin = 0 :=
    (Script.sameFrame_run _ _).margin
  obtain ⟨above, rev⟩ := Page.exists_newline_rev top
  rw [v.lines_eq, Script.run_append]
  exact ⟨above.reverse, (congrArg List.reverse rev).trans List.reverse_cons⟩

/-- A statement at the start of a line writes its lines. -/
theorem Page.Fresh.run_line {p : Page} (fresh : p.Fresh) (v : Node) :
    ((v.asLine.whole ++ .newline).run p).rev = v.lines.reverse ++ p.rev ∧
      ((v.asLine.whole ++ .newline).run p).Fresh := by
  have kept := v.asLine.whole.sameFrame_run p
  have sheltered : (v.asLine.whole ++ .newline).Sheltered false := ⟨v.sheltered_whole, trivial⟩
  constructor
  · rw [v.lines_eq, List.reverse_reverse]
    exact fresh.run_rev sheltered .grouped
  · exact Page.fresh_newline (kept.margin.trans fresh.margin) (kept.depth.trans fresh.depth)

namespace Spacing

/-- Whether a blank line goes between two statements at the top of a file. -/
def gap (σ : Spacing) (s t : Node) : Bool := !(Page.blank σ).keepsTogether s t

/-- The lines of all statements but the last, and the blank lines between the statements. -/
def spaced (σ : Spacing) : List Node → List Char
  | [] | [_] => []
  | s :: t :: rest => s.lines ++ (if σ.gap s t then ['\n'] else []) ++ σ.spaced (t :: rest)

end Spacing

/-- Between two statements a line is left empty, or nothing is written. -/
theorem Page.Fresh.run_apart {p : Page} (fresh : p.Fresh) (s t : Node) :
    ((Script.apart s t).run p).rev = (if p.spacing.gap s t then ['\n'] else []) ++ p.rev ∧
      ((Script.apart s t).run p).Fresh := by
  rw [Spacing.gap, ← fresh.keepsTogether_eq, Script.run]
  cases p.keepsTogether s t with
  | true => exact ⟨rfl, fresh⟩
  | false => exact ⟨fresh.newline_rev, Page.fresh_newline fresh.margin fresh.depth⟩

/-- Statements write their lines with blank lines in between, and the last one does what it does
on an empty page. -/
theorem Page.Fresh.run_statements {p : Page} (fresh : p.Fresh) (vs : List Node) {tail : Script}
    (sheltered : tail.Sheltered false) :
    ((Script.statements (scriptList vs) ++ tail).run p).rev =
      ((Script.statements (scriptList vs.getLast?.toList) ++ tail).run (.blank .grouped)).rev ++
        (p.spacing.spaced vs).reverse ++ p.rev := by
  induction vs generalizing p with
  | nil =>
      have whole : (Script.statements (scriptList []) ++ tail).Sheltered false :=
        ⟨trivial, sheltered⟩
      rw [Spacing.spaced, List.reverse_nil, List.append_nil]
      exact fresh.run_rev whole .grouped
  | cons s vs ih =>
      cases vs with
      | nil =>
          have whole : (Script.statements (scriptList [s]) ++ tail).Sheltered false :=
            ⟨s.sheltered_whole, sheltered⟩
          rw [Spacing.spaced, List.reverse_nil, List.append_nil]
          exact fresh.run_rev whole .grouped
      | cons t rest =>
          obtain ⟨lines, after⟩ := fresh.run_line s
          obtain ⟨gap, next⟩ := after.run_apart s t
          have spacing : (Script.run (.apart s t) ((s.asLine.whole ++ .newline).run p)).spacing =
              p.spacing := by
            rw [(Script.sameFrame_run _ _).spacing, (Script.sameFrame_run _ _).spacing]
          have steps : (Script.statements (scriptList (s :: t :: rest)) ++ tail).run p =
              (Script.statements (scriptList (t :: rest)) ++ tail).run
                (Script.run (.apart s t) ((s.asLine.whole ++ .newline).run p)) := rfl
          rw [steps, ih next, gap, lines, spacing, (Script.sameFrame_run _ _).spacing,
            List.getLast?_cons_cons, Spacing.spaced]
          split <;> simp

/-! ## The text of a file -/

/-- The text of a file under each spacing: between a front and a back that do not depend on it,
the lines of the statements with the blank lines that the spacing asks for. -/
theorem File.exists_formatWith_eq (f : File) : ∃ front back : List Char, ∀ σ : Spacing,
    (f.formatWith σ).toList = front ++ σ.spaced f.statements ++ back := by
  let tail : Script := .remarks f.comments.after ++ .breakIfDue
  have sheltered : tail.Sheltered false := ⟨trivial, trivial⟩
  refine ⟨((Page.blank .grouped).commentLines f.comments.before).rev.reverse,
    ((Script.statements (scriptList f.statements.getLast?.toList) ++ tail).run
      (.blank .grouped)).rev.reverse, fun σ => ?_⟩
  have fresh := (Page.fresh_blank σ).commentLines f.comments.before
  have front : ((Page.blank σ).commentLines f.comments.before).rev =
      ((Page.blank .grouped).commentLines f.comments.before).rev := by
    have same := (Page.fresh_blank σ).run_rev (s := .remarks f.comments.before) trivial .grouped
    rw [Page.blank, List.append_nil] at same
    exact same
  have steps : (f.print (.blank σ)) = (Script.statements (scriptList f.statements) ++ tail).run
      ((Page.blank σ).commentLines f.comments.before) := f.print_eq_run (.blank σ)
  have written := fresh.run_statements f.statements sheltered
  rw [formatWith, Page.text, String.toList_ofList, page, steps, written, front,
    (Page.sameFrame_commentLines _ _).spacing]
  simp [Page.blank]

/-- Some of the empty lines between statements are taken out of a text. Each statement but the
last stands there with its lines, and an empty line behind them is kept or not. -/
inductive Thins : List Node → List Char → List Char → Prop
  | none : Thins [] [] []
  | last {v : Node} : Thins [v] [] []
  | close {s t : Node} {rest : List Node} {loose tight : List Char}
      (more : Thins (t :: rest) loose tight) :
      Thins (s :: t :: rest) (s.lines ++ loose) (s.lines ++ tight)
  | kept {s t : Node} {rest : List Node} {loose tight : List Char}
      (more : Thins (t :: rest) loose tight) :
      Thins (s :: t :: rest) (s.lines ++ '\n' :: loose) (s.lines ++ '\n' :: tight)
  | removed {s t : Node} {rest : List Node} {loose tight : List Char}
      (more : Thins (t :: rest) loose tight) :
      Thins (s :: t :: rest) (s.lines ++ '\n' :: loose) (s.lines ++ tight)

/-- Statements that are grouped have a blank line between them only where statements that are
apart have one. -/
theorem Spacing.gap_apart {s t : Node} (gap : Spacing.grouped.gap s t = true) :
    Spacing.apart.gap s t = true := by
  simp only [Spacing.gap, Page.keepsTogether, Bool.not_eq_true'] at gap ⊢
  split
  next => rfl
  next plain =>
    split
    next loads =>
      rw [if_neg plain, if_pos loads] at gap
      cases gap
    next => rfl

/-- Between the same statements, grouping leaves out blank lines and adds none. -/
theorem Spacing.thins_spaced (vs : List Node) :
    Thins vs (Spacing.apart.spaced vs) (Spacing.grouped.spaced vs) := by
  induction vs with
  | nil => exact .none
  | cons s vs ih =>
      cases vs with
      | nil => exact .last
      | cons t rest =>
          rw [Spacing.spaced, Spacing.spaced, List.append_assoc, List.append_assoc]
          cases loose : Spacing.apart.gap s t with
          | true =>
              cases Spacing.grouped.gap s t with
              | true => exact .kept ih
              | false => exact .removed ih
          | false =>
              have tight : Spacing.grouped.gap s t = false :=
                Bool.eq_false_iff.mpr fun gap => Bool.eq_false_iff.mp loose (Spacing.gap_apart gap)
              rw [tight]
              exact .close ih

/-- Setting statements apart only adds empty lines between the statements of a file. -/
theorem File.thins_formatWith (f : File) :
    ∃ front back : List Char,
      (∀ σ : Spacing, (f.formatWith σ).toList = front ++ σ.spaced f.statements ++ back) ∧
      Thins f.statements (Spacing.apart.spaced f.statements) (Spacing.grouped.spaced f.statements) ∧
      ∀ v ∈ f.statements, ∃ text, v.lines = text ++ ['\n'] := by
  obtain ⟨front, back, each⟩ := f.exists_formatWith_eq
  exact ⟨front, back, each, Spacing.thins_spaced f.statements, fun v _ => v.exists_lines_eq⟩

end Starlark
