import Starlark.File.Print
import Starlark.Proofs.Script

/-!
# Sheets

A page holds characters. A sheet holds the same text as a list of scraps: the
words, the line ends and the comments that were written, each behind a number
of blanks. Blanks that nothing follows yet are counted apart, so a sheet only
grows at its end, also where a page takes blanks back.

`Script.write` plays a script on a sheet, and the page that the script fills
shows the sheet (`Shows.run`). What printing writes is proved on sheets.
-/

set_option autoImplicit false

namespace Starlark

/-- What a scrap writes behind its blanks. -/
inductive Mark where
  | word (w : Word)
  | line
  /-- A backslash that joins two lines. -/
  | join
  | remark (c : Comment)

namespace Mark

/-- The text of a comment as it is printed. -/
def remarkText (c : Comment) : List Char := Text.trim c.text.toList

def text : Mark → List Char
  | word w => w.text
  | line => ['\n']
  | join => ['\\', '\n']
  | remark c => remarkText c

/-- Whether a mark ends a line. -/
def endsLine : Mark → Bool
  | line | join => true
  | _ => false

end Mark

/-- A mark behind some blanks. -/
structure Scrap where
  gap : Nat
  mark : Mark

namespace Scrap

def text (x : Scrap) : List Char := List.replicate x.gap ' ' ++ x.mark.text

/-- The text of some scraps. -/
def textOf (xs : List Scrap) : List Char := xs.flatMap text

@[simp] theorem textOf_nil : textOf [] = [] := rfl

@[simp] theorem textOf_cons (x : Scrap) (xs : List Scrap) :
    textOf (x :: xs) = x.text ++ textOf xs := rfl

@[simp] theorem textOf_append (xs ys : List Scrap) :
    textOf (xs ++ ys) = textOf xs ++ textOf ys := by
  simp [textOf]

end Scrap

/-- What has been printed so far, cut into scraps. -/
structure Sheet where
  scraps : List Scrap
  /-- Blanks that nothing follows yet. -/
  gap : Nat
  pending : List Comment
  margin : Nat
  depth : Nat
  due : Bool
  spacing : Spacing

namespace Sheet

/-- An empty sheet. -/
def blank (spacing : Spacing) : Sheet := ⟨[], 0, [], 0, 0, false, spacing⟩

/-- The text of a sheet. -/
def text (s : Sheet) : List Char := Scrap.textOf s.scraps ++ List.replicate s.gap ' '

/-- Adds a mark. -/
def put (m : Mark) (s : Sheet) : Sheet :=
  { s with scraps := s.scraps ++ [⟨s.gap, m⟩], gap := 0 }

/-- Adds blanks. -/
def pad (width : Nat) (s : Sheet) : Sheet := { s with gap := s.gap + width }

/-- Takes back the blanks at the end. -/
def trim (s : Sheet) : Sheet := { s with gap := 0 }

/-- Ends a line and starts the next at the margin. -/
def lineBreak (s : Sheet) : Sheet := (s.trim.put .line).pad s.margin

/-- Writes the comments that wait. -/
def flush (s : Sheet) : Sheet :=
  match s.pending with
  | [] => s
  | first :: rest =>
    rest.foldl (fun s c => s.lineBreak.put (.remark c))
      (({ s with pending := [] }.pad 2).put (.remark first))

def newline (s : Sheet) : Sheet := (flush { s with due := false }).lineBreak

def softBreak (s : Sheet) : Sheet := { s with due := true }

def breakIfDue (s : Sheet) : Sheet := if s.due then s.newline else s

def breakInside (s : Sheet) : Sheet :=
  if s.depth = 0 then ((s.pad 1).put .join).pad s.margin else s.newline

def queue (cs : List Comment) (s : Sheet) : Sheet := { s with pending := s.pending ++ cs }

/-- Whether nothing stands on the last line but blanks. -/
def isFresh (s : Sheet) : Bool := s.scraps.getLast?.all fun x => x.mark.endsLine

def remarks (cs : List Comment) (s : Sheet) : Sheet :=
  cs.foldl (fun s c => (s.put (.remark c)).newline) s

def closing (cs : List Comment) (s : Sheet) : Sheet :=
  cs.foldl (fun s c => s.newline.put (.remark c)) s

def under (cs : List Comment) (s : Sheet) : Sheet :=
  cs.foldl (fun s c => (s.breakIfDue.put (.remark c)).softBreak) s

def leading (cs : List Comment) (s : Sheet) : Sheet :=
  if cs.isEmpty then s
  else remarks cs ((if s.trim.isFresh then s.trim else s.trim.put .line).pad s.margin)

/-- The column at the end of the text. -/
def column (s : Sheet) : Nat := (s.text.reverse.takeWhile (· != '\n')).length

def keepsTogether (s : Sheet) (x y : Node) : Bool :=
  Page.keepsTogether ⟨[], [], s.margin, s.depth, s.due, s.spacing, []⟩ x y

/-- Writes with the margin at a column. -/
def marginAt (margin : Nat) (doc : Sheet → Sheet) (s : Sheet) : Sheet :=
  { doc { s with margin := margin } with margin := s.margin }

/-- Writes inside one more bracket. -/
def enclosed (doc : Sheet → Sheet) (s : Sheet) : Sheet :=
  { doc { s with depth := s.depth + 1 } with depth := s.depth }

end Sheet

/-- Plays a script on a sheet. -/
def Script.write : Script → Sheet → Sheet
  | done, s => s
  | word w, s => s.put (.word w)
  | blank, s => s.pad 1
  | note _, s => s
  | queue cs, s => s.queue cs
  | newline, s => s.newline
  | softBreak, s => s.softBreak
  | breakIfDue, s => s.breakIfDue
  | breakInside, s => s.breakInside
  | leading cs, s => s.leading cs
  | remarks cs, s => s.remarks cs
  | closing cs, s => s.closing cs
  | under cs, s => s.under cs
  | room, s => if s.pending.isEmpty then s else (s.put .line).pad (s.margin - 2)
  | apart x y, s => if s.keepsTogether x y then s else s.newline
  | hang breaks extra body, s =>
    Sheet.marginAt (if breaks then s.column + extra else s.margin) body.write s
  | indented body, s => Sheet.marginAt (s.margin + indentWidth) body.write s
  | enclosed body, s => Sheet.enclosed body.write s
  | seq first second, s => second.write (first.write s)

@[simp] theorem Script.write_append (s t : Script) (x : Sheet) :
    (s ++ t).write x = t.write (s.write x) := rfl

/-- The words of a script, in order. -/
def Script.words : Script → List Word
  | word w => [w]
  | hang _ _ body | indented body | enclosed body => body.words
  | seq first second => first.words ++ second.words
  | _ => []

/-- The comments of a script, in order. -/
def Script.comments : Script → List Comment
  | queue cs | leading cs | remarks cs | closing cs | under cs => cs
  | hang _ _ body | indented body | enclosed body => body.comments
  | seq first second => first.comments ++ second.comments
  | _ => []

/-- Whether a script does nothing to a sheet on which no line break is due. -/
def Script.isSilent : Script → Bool
  | done | note _ | breakIfDue => true
  | queue cs | leading cs | closing cs => cs.isEmpty
  | hang _ _ body | indented body | enclosed body => body.isSilent
  | seq first second => first.isSilent && second.isSilent
  | _ => false

/-- The word that a script begins with, if it begins with one. -/
def Script.head? : Script → Option Word
  | word w => some w
  | hang _ _ body | indented body | enclosed body => body.head?
  | seq first second => if first.isSilent then second.head? else first.head?
  | _ => none

@[simp] theorem Script.isSilent_append (s t : Script) :
    (s ++ t).isSilent = (s.isSilent && t.isSilent) := rfl

@[simp] theorem Script.head?_append (s t : Script) :
    (s ++ t).head? = if s.isSilent then t.head? else s.head? := rfl

@[simp] theorem Script.words_append (s t : Script) : (s ++ t).words = s.words ++ t.words := rfl

@[simp] theorem Script.comments_append (s t : Script) :
    (s ++ t).comments = s.comments ++ t.comments := rfl

/-! ## Pages that show sheets -/

/-- A text that ends in neither a blank nor a line end. -/
def Firm (text : List Char) : Prop := ∃ front c, text = front ++ [c] ∧ c ≠ ' ' ∧ c ≠ '\n'

/-- A comment that is printed as a text that ends in no blank. -/
def Comment.Firm (c : Comment) : Prop := Starlark.Firm (Mark.remarkText c)

namespace Mark

/-- A mark whose text ends in no blank, and in a line end only when it ends the
line. -/
def Firm : Mark → Prop
  | word w => Starlark.Firm w.text
  | remark c => c.Firm
  | line | join => True

end Mark

/-- A page shows the text of a sheet and is in the same state. -/
structure Shows (p : Page) (s : Sheet) : Prop where
  text : p.rev.reverse = s.text
  pending : p.pending = s.pending
  margin : p.margin = s.margin
  depth : p.depth = s.depth
  due : p.breakDue = s.due
  spacing : p.spacing = s.spacing
  firm : ∀ x ∈ s.scraps, x.mark.Firm
  waiting : ∀ c ∈ s.pending, c.Firm

namespace Scrap

/-- Scraps end in no blank, and in a line end only when the last one ends the
line. -/
theorem textOf_ends {xs : List Scrap} (firm : ∀ x ∈ xs, x.mark.Firm) :
    xs = [] ∨ ∃ front c, textOf xs = front ++ [c] ∧ c ≠ ' ' ∧
      xs.getLast?.all (fun x => x.mark.endsLine) = (c == '\n') := by
  rcases List.eq_nil_or_concat xs with rfl | ⟨xs, x, rfl⟩
  · exact .inl rfl
  · right
    have last := firm x (by simp)
    rw [List.concat_eq_append, textOf_append, List.getLast?_append]
    obtain ⟨gap, mark⟩ := x
    cases mark with
    | word w =>
        obtain ⟨front, c, same, blank, line⟩ := last
        refine ⟨textOf xs ++ (List.replicate gap ' ' ++ front), c, ?_, blank, ?_⟩
        · simp [text, Mark.text, same]
        · simp [Mark.endsLine, line]
    | remark c =>
        obtain ⟨front, d, same, blank, line⟩ := last
        refine ⟨textOf xs ++ (List.replicate gap ' ' ++ front), d, ?_, blank, ?_⟩
        · simp [text, Mark.text, same]
        · simp [Mark.endsLine, line]
    | line =>
        exact ⟨textOf xs ++ List.replicate gap ' ', '\n', by simp [text, Mark.text], by decide,
          by simp [Mark.endsLine]⟩
    | join =>
        exact ⟨textOf xs ++ (List.replicate gap ' ' ++ ['\\']), '\n', by simp [text, Mark.text],
          by decide, by simp [Mark.endsLine]⟩

end Scrap

namespace Shows

variable {p : Page} {s : Sheet}

/-- An empty page shows an empty sheet. -/
theorem blank (spacing : Spacing) : Shows (.blank spacing) (.blank spacing) :=
  ⟨rfl, rfl, rfl, rfl, rfl, rfl, nofun, nofun⟩

theorem rev_eq (shows : Shows p s) : p.rev = s.text.reverse := by
  rw [← shows.text, List.reverse_reverse]

theorem put (shows : Shows p s) {m : Mark} (firm : m.Firm) :
    Shows (p.putChars m.text) (s.put m) :=
  { shows with
    text := by simp [Page.putChars, Sheet.put, Sheet.text, shows.text, Scrap.text]
    firm := List.forall_mem_append.mpr ⟨shows.firm, List.forall_mem_singleton.mpr firm⟩ }

theorem pad (shows : Shows p s) (width : Nat) : Shows (p.pad width) (s.pad width) :=
  { shows with
    text := by simp [Page.pad, Page.putChars, Sheet.pad, Sheet.text, shows.text] }

theorem trim (shows : Shows p s) : Shows p.trim s.trim := by
  have blanks : ∀ c ∈ List.replicate s.gap ' ', (c == ' ') = true := by
    intro c member
    rw [List.eq_of_mem_replicate member]
    rfl
  refine { shows with text := ?_ }
  show (p.rev.dropWhile (· == ' ')).reverse = _
  rw [shows.rev_eq, Sheet.text, List.reverse_append, List.reverse_replicate,
    List.dropWhile_append_of_pos blanks]
  rcases Scrap.textOf_ends shows.firm with nothing | ⟨front, c, same, blank, _⟩
  · simp [Sheet.text, Sheet.trim, nothing]
  · simp [Sheet.text, Sheet.trim, same, blank]

/-- The last line of a trimmed page is empty when its sheet says so. -/
theorem column_trim (shows : Shows p s) : 0 < p.trim.column ↔ s.isFresh = false := by
  have text : p.trim.rev = (Scrap.textOf s.scraps).reverse := by
    rw [shows.trim.rev_eq]
    simp [Sheet.text, Sheet.trim]
  unfold Page.column Sheet.isFresh
  rw [text]
  rcases Scrap.textOf_ends shows.firm with nothing | ⟨front, c, same, _, ends⟩
  · simp [nothing]
  · rw [same, ends]
    by_cases line : c = '\n' <;> simp [line]

theorem lineBreak (shows : Shows p s) : Shows p.lineBreak s.lineBreak := by
  have next := (shows.trim.put (m := .line) trivial).pad s.margin
  unfold Page.lineBreak
  rw [shows.margin]
  exact next

theorem comment (shows : Shows p s) {c : Comment} (firm : c.Firm) :
    Shows (p.comment c) (s.put (.remark c)) :=
  shows.put (m := .remark c) firm

/-- What each of some comments keeps, all of them keep. -/
theorem foldl {f : Page → Comment → Page} {g : Sheet → Comment → Sheet}
    (step : ∀ {p s c}, Shows p s → c.Firm → Shows (f p c) (g s c)) {cs : List Comment}
    (shows : Shows p s) (firm : ∀ c ∈ cs, c.Firm) : Shows (cs.foldl f p) (cs.foldl g s) := by
  induction cs generalizing p s with
  | nil => exact shows
  | cons c cs ih =>
      obtain ⟨first, others⟩ := List.forall_mem_cons.mp firm
      exact ih (step shows first) others

/-- Writing the comments that wait keeps a page showing its sheet. -/
theorem flush (shows : Shows p s) : Shows p.flush s.flush := by
  unfold Page.flush Sheet.flush
  rw [shows.pending]
  cases waits : s.pending with
  | nil => exact shows
  | cons first rest =>
      have firm := shows.waiting
      rw [waits] at firm
      obtain ⟨one, others⟩ := List.forall_mem_cons.mp firm
      have clear : Shows { p with pending := [] } { s with pending := [] } :=
        { shows with pending := rfl, waiting := by simp }
      have two := (clear.pad 2).comment one
      exact two.foldl (f := fun p c => p.lineBreak.comment c)
        (g := fun s c => s.lineBreak.put (.remark c))
        (fun shows firm => shows.lineBreak.comment firm) others

theorem newline (shows : Shows p s) : Shows p.newline s.newline := by
  have calm : Shows { p with breakDue := false } { s with due := false } :=
    { shows with due := rfl }
  exact calm.flush.lineBreak

theorem softBreak (shows : Shows p s) : Shows p.softBreak s.softBreak :=
  { shows with due := rfl }

theorem breakIfDue (shows : Shows p s) : Shows p.breakIfDue s.breakIfDue := by
  unfold Page.breakIfDue Sheet.breakIfDue
  rw [shows.due]
  split
  · exact shows.newline
  · exact shows

theorem breakInside (shows : Shows p s) : Shows p.breakInside s.breakInside := by
  unfold Page.breakInside Sheet.breakInside
  rw [shows.depth]
  split
  · rw [shows.margin]
    exact ((shows.pad 1).put (m := .join) trivial).pad s.margin
  · exact shows.newline

theorem queue (shows : Shows p s) {cs : List Comment} (firm : ∀ c ∈ cs, c.Firm) :
    Shows (p.queue cs) (s.queue cs) :=
  { shows with
    pending := by simp only [Page.queue, Sheet.queue, shows.pending]
    waiting := List.forall_mem_append.mpr ⟨shows.waiting, firm⟩ }

theorem remarks (shows : Shows p s) {cs : List Comment} (firm : ∀ c ∈ cs, c.Firm) :
    Shows (p.commentLines cs) (s.remarks cs) :=
  shows.foldl (f := fun p c => (p.comment c).newline)
    (g := fun s c => (s.put (.remark c)).newline)
    (fun shows firm => (shows.comment firm).newline) firm

theorem closing (shows : Shows p s) {cs : List Comment} (firm : ∀ c ∈ cs, c.Firm) :
    Shows (p.linesOfComments cs) (s.closing cs) :=
  shows.foldl (f := fun p c => p.newline.comment c) (g := fun s c => s.newline.put (.remark c))
    (fun shows firm => shows.newline.comment firm) firm

theorem under (shows : Shows p s) {cs : List Comment} (firm : ∀ c ∈ cs, c.Firm) :
    Shows (p.below cs) (s.under cs) :=
  shows.foldl (f := fun p c => (p.breakIfDue.comment c).softBreak)
    (g := fun s c => (s.breakIfDue.put (.remark c)).softBreak)
    (fun shows firm => (shows.breakIfDue.comment firm).softBreak) firm

/-- So do comments above a node, whether the line is fresh or not. -/
theorem leading (shows : Shows p s) {cs : List Comment} (firm : ∀ c ∈ cs, c.Firm) :
    Shows (p.leading cs) (s.leading cs) := by
  unfold Page.leading Sheet.leading
  split
  · exact shows
  · have start : Shows (if 0 < p.trim.column then Page.putChars ['\n'] p.trim else p.trim)
        (if s.trim.isFresh then s.trim else s.trim.put .line) := by
      have fresh : 0 < p.trim.column ↔ s.trim.isFresh = false := shows.column_trim
      cases begun : s.trim.isFresh with
      | true =>
          rw [if_neg (by simp [fresh, begun]), if_pos rfl]
          exact shows.trim
      | false =>
          rw [if_pos (fresh.mpr begun)]
          exact shows.trim.put (m := .line) trivial
    have margin := start.margin
    have kept : (if s.trim.isFresh then s.trim else s.trim.put .line).margin = s.margin := by
      split <;> rfl
    have padded := start.pad s.margin
    rw [← kept, ← margin] at padded
    rw [kept] at margin
    rw [← margin]
    exact remarks padded firm

theorem room (shows : Shows p s) : Shows (Script.room.run p) (Script.room.write s) := by
  simp only [Script.run, Script.write, shows.pending]
  split
  · exact shows
  · rw [shows.margin]
    exact (shows.put (m := .line) trivial).pad (s.margin - 2)

theorem apart (shows : Shows p s) (x y : Node) :
    Shows ((Script.apart x y).run p) ((Script.apart x y).write s) := by
  have same : p.keepsTogether x y = s.keepsTogether x y := by
    simp only [Sheet.keepsTogether, Page.keepsTogether, shows.spacing, shows.margin]
  simp only [Script.run, Script.write, same]
  split
  · exact shows
  · exact shows.newline

theorem marginAt (shows : Shows p s) {doc : Doc} {doc' : Sheet → Sheet} {margin : Nat}
    (inside : ∀ {p s}, Shows p s → Shows (doc p) (doc' s)) :
    Shows (p.marginAt margin doc) (s.marginAt margin doc') := by
  have moved : Shows { p with margin := margin } { s with margin := margin } :=
    { shows with margin := rfl }
  exact { inside moved with margin := shows.margin }

theorem enclosed (shows : Shows p s) {doc : Doc} {doc' : Sheet → Sheet}
    (inside : ∀ {p s}, Shows p s → Shows (doc p) (doc' s)) :
    Shows (p.enclosed doc) (s.enclosed doc') := by
  have deeper : Shows { p with depth := p.depth + 1 } { s with depth := s.depth + 1 } :=
    { shows with depth := by rw [shows.depth] }
  exact { inside deeper with depth := shows.depth }

theorem column (shows : Shows p s) : p.column = s.column := by
  rw [Page.column, Sheet.column, shows.rev_eq]

/-- Playing a script on a page and on the sheet that it shows goes side by side. -/
theorem run {script : Script} (words : ∀ w ∈ script.words, Firm w.text)
    (comments : ∀ c ∈ script.comments, c.Firm) (shows : Shows p s) :
    Shows (script.run p) (script.write s) := by
  induction script generalizing p s with
  | done => exact shows
  | word w => exact shows.put (m := .word w) (words w (List.mem_singleton_self w))
  | blank => exact shows.pad 1
  | note token => exact { shows with }
  | queue cs => exact shows.queue comments
  | newline => exact shows.newline
  | softBreak => exact shows.softBreak
  | breakIfDue => exact shows.breakIfDue
  | breakInside => exact shows.breakInside
  | leading cs => exact shows.leading comments
  | remarks cs => exact shows.remarks comments
  | closing cs => exact shows.closing comments
  | under cs => exact shows.under comments
  | room => exact shows.room
  | apart x y => exact shows.apart x y
  | hang breaks extra body ih =>
      simp only [Script.run, Script.write, shows.column, shows.margin]
      exact shows.marginAt (ih words comments)
  | indented body ih =>
      simp only [Script.run, Script.write, Page.indented, shows.margin]
      exact shows.marginAt (ih words comments)
  | enclosed body ih => exact shows.enclosed (ih words comments)
  | seq first second one two =>
      obtain ⟨words₁, words₂⟩ := List.forall_mem_append.mp words
      obtain ⟨comments₁, comments₂⟩ := List.forall_mem_append.mp comments
      exact two words₂ comments₂ (one words₁ comments₁ shows)

end Shows

/-! ## Files -/

namespace File

/-- The script that printing a file plays. -/
def script (f : File) : Script :=
  .remarks f.comments.before ++ Script.statements (scriptList f.statements) ++
    .remarks f.comments.after ++ .breakIfDue

theorem print_eq_run (f : File) (p : Page) : f.print p = f.script.run p := by
  simp only [print, script, Script.run_append, Script.run_statements, printList_eq]
  rfl

/-- The sheet that a file fills. -/
def sheet (spacing : Spacing) (f : File) : Sheet :=
  f.script.write (.blank spacing)

/-- The text of a file is the text of its sheet. -/
theorem toList_formatWith {spacing : Spacing} {f : File}
    (words : ∀ w ∈ f.script.words, Firm w.text) (comments : ∀ c ∈ f.script.comments, c.Firm) :
    (f.formatWith spacing).toList = (f.sheet spacing).text := by
  have shows := (Shows.blank spacing).run words comments
  rw [← f.print_eq_run] at shows
  rw [formatWith, Page.text, String.toList_ofList]
  exact shows.text

end File

end Starlark
