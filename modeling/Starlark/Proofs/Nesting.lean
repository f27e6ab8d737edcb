import Starlark.Proofs.Seam
import Starlark.Proofs.Shape

/-!
# Brackets on sheets

Outside brackets a line end is a token, so an expression that is printed over
several lines can only be read back if each line end stands inside brackets or
behind a backslash. `Nested` says this of scraps, and `Nests` is the triple of a
script that keeps it on sheets without comments.

Where a line may break, the printer asks how many brackets are open. It does not
count those of subscripts, so its count may be too low but never claims a
bracket that is not there. `Script.Even` is what this comes to for the script of
an expression.
-/

set_option autoImplicit false

namespace Starlark

/-! ## What a script adds -/

/-- The words on some scraps. -/
def Scrap.wordsOf (xs : List Scrap) : List Word :=
  xs.filterMap fun x =>
    match x.mark with
    | .word w => some w
    | _ => none

/-- A sheet that has grown by scraps with the given words. -/
def Sheet.Adds (ws : List Word) (s t : Sheet) : Prop :=
  ∃ xs, t.scraps = s.scraps ++ xs ∧ Scrap.wordsOf xs = ws

namespace Sheet.Adds

variable {s t u : Sheet} {ws vs : List Word}

theorem refl (same : t.scraps = s.scraps) : Adds [] s t := ⟨[], by simp [same], rfl⟩

theorem trans (first : Adds ws s t) (second : Adds vs t u) : Adds (ws ++ vs) s u := by
  obtain ⟨xs, same, rfl⟩ := first
  obtain ⟨ys, same', rfl⟩ := second
  exact ⟨xs ++ ys, by rw [same', same, List.append_assoc], by simp [Scrap.wordsOf]⟩

theorem word (s : Sheet) (w : Word) : Adds [w] s (s.put (.word w)) := ⟨[_], rfl, rfl⟩

/-- Adding something that is no word. -/
theorem put (adds : Adds ws s t) {m : Mark} (other : ∀ w, m ≠ .word w) : Adds ws s (t.put m) := by
  have mark : Adds [] t (t.put m) := by
    refine ⟨[⟨t.gap, m⟩], rfl, ?_⟩
    cases m with
    | word w => exact absurd rfl (other w)
    | line | join | remark => rfl
  simpa using adds.trans mark

theorem remark (adds : Adds ws s t) (c : Comment) : Adds ws s (t.put (.remark c)) :=
  adds.put fun _ => nofun

theorem lineBreak (adds : Adds ws s t) : Adds ws s t.lineBreak :=
  Adds.put (t := t.trim) adds fun _ => nofun

theorem newline (adds : Adds ws s t) : Adds ws s t.newline :=
  lineBreak (t := Sheet.flush { t with due := false })
    (flush_induction (fun _ => adds)
      (fun c => remark (t := Sheet.pad 2 { t with due := false, pending := [] }) adds c)
      fun _ c adds => adds.lineBreak.remark c)

theorem breakIfDue (adds : Adds ws s t) : Adds ws s t.breakIfDue := by
  unfold Sheet.breakIfDue
  split
  · exact adds.newline
  · exact adds

/-- What adds no word for one comment adds none for all of them. -/
theorem foldl {step : Sheet → Comment → Sheet}
    (each : ∀ {t c}, Adds ws s t → Adds ws s (step t c)) (adds : Adds ws s t) (cs : List Comment) :
    Adds ws s (cs.foldl step t) :=
  List.foldlRecOn cs step adds fun _ adds _ _ => each adds

end Sheet.Adds

open Sheet in
/-- A sheet grows by the words of the script. -/
theorem Script.write_adds (script : Script) (s : Sheet) :
    Adds script.words s (script.write s) := by
  have refl : Adds [] s s := .refl rfl
  induction script generalizing s with
  | done | note | queue | softBreak | blank => exact .refl rfl
  | word w => exact .word s w
  | newline => exact refl.newline
  | breakIfDue => exact refl.breakIfDue
  | breakInside =>
      show Adds [] s (if s.depth = 0 then ((s.pad 1).put .join).pad s.margin else s.newline)
      split
      · exact Adds.put (t := s.pad 1) refl fun _ => nofun
      · exact refl.newline
  | leading cs =>
      show Adds [] s (s.leading cs)
      unfold Sheet.leading
      split
      · exact refl
      · refine Adds.foldl (fun adds => (adds.remark _).newline) ?_ cs
        split
        · exact refl
        · exact Adds.put (t := s.trim) refl fun _ => nofun
  | remarks cs => exact refl.foldl (fun adds => (adds.remark _).newline) cs
  | closing cs => exact refl.foldl (fun adds => adds.newline.remark _) cs
  | under cs =>
      show Adds [] s (cs.foldl (fun s c => (s.breakIfDue.put (.remark c)).softBreak) s)
      refine refl.foldl (fun adds => ?_) cs
      exact adds.breakIfDue.remark _
  | room =>
      show Adds [] s (if s.pending.isEmpty then s else (s.put .line).pad (s.margin - 2))
      split
      · exact refl
      · exact refl.put (m := .line) fun _ => nofun
  | apart x y =>
      show Adds [] s (if s.keepsTogether x y then s else s.newline)
      split
      · exact refl
      · exact refl.newline
  | hang breaks extra body ih =>
      exact ih { s with margin := if breaks then s.column + extra else s.margin } (.refl rfl)
  | indented body ih => exact ih { s with margin := s.margin + indentWidth } (.refl rfl)
  | enclosed body ih => exact ih { s with depth := s.depth + 1 } (.refl rfl)
  | seq first second one two => exact (one s refl).trans (two _ (.refl rfl))

/-! ## The first word -/

namespace Script

/-- A script that begins with a word is not silent. -/
theorem isSilent_of_head? {script : Script} {w : Word} (first : script.head? = some w) :
    script.isSilent = false := by
  induction script with
  | hang _ _ body ih | indented body ih | enclosed body ih => exact ih first
  | seq one two ih ih' =>
      rw [head?] at first
      rw [isSilent]
      split at first
      · rw [ih' first, Bool.and_false]
      · rename_i loud
        simp [loud]
  | word => rfl
  | _ => cases first

/-- A silent script has no words. -/
theorem words_of_isSilent {script : Script} (silent : script.isSilent = true) :
    script.words = [] := by
  induction script with
  | hang _ _ body ih | indented body ih | enclosed body ih => exact ih silent
  | seq one two ih ih' =>
      obtain ⟨left, right⟩ := Bool.and_eq_true_iff.mp silent
      rw [words, ih left, ih' right, List.append_nil]
  | word => cases silent
  | _ => rfl

/-- A silent script has no comments. -/
theorem comments_of_isSilent {script : Script} (silent : script.isSilent = true) :
    script.comments = [] := by
  induction script with
  | hang _ _ body ih | indented body ih | enclosed body ih => exact ih silent
  | seq one two ih ih' =>
      obtain ⟨left, right⟩ := Bool.and_eq_true_iff.mp silent
      rw [comments, ih left, ih' right, List.append_nil]
  | queue cs | leading cs | closing cs => exact List.isEmpty_iff.mp silent
  | done | note | breakIfDue => rfl
  | _ => cases silent

/-- The word that a script begins with is the first of its words. -/
theorem words_of_head? {script : Script} {w : Word} (first : script.head? = some w) :
    ∃ ws, script.words = w :: ws := by
  induction script with
  | hang _ _ body ih | indented body ih | enclosed body ih => exact ih first
  | seq one two ih ih' =>
      rw [head?] at first
      split at first
      · rename_i silent
        obtain ⟨ws, same⟩ := ih' first
        exact ⟨ws, by rw [words, words_of_isSilent silent, same, List.nil_append]⟩
      · obtain ⟨ws, same⟩ := ih first
        exact ⟨ws ++ two.words, by rw [words, same, List.cons_append]⟩
  | word =>
      cases first
      exact ⟨[], rfl⟩
  | _ => cases first

/-- A silent script leaves a sheet as it is on which no line break is due. -/
theorem write_of_isSilent {script : Script} (silent : script.isSilent = true) {s : Sheet}
    (free : s.due = false) : script.write s = s := by
  induction script generalizing s with
  | done | note => rfl
  | breakIfDue => exact if_neg (by simp [free])
  | queue cs | leading cs | closing cs =>
      obtain rfl := List.isEmpty_iff.mp silent
      simp [write, Sheet.queue, Sheet.leading, Sheet.closing]
  | hang breaks extra body ih =>
      show Sheet.marginAt _ body.write s = s
      rw [Sheet.marginAt, ih silent (by exact free)]
  | indented body ih =>
      show Sheet.marginAt _ body.write s = s
      rw [Sheet.marginAt, ih silent (by exact free)]
  | enclosed body ih =>
      show Sheet.enclosed body.write s = s
      rw [Sheet.enclosed, ih silent (by exact free)]
  | seq one two ih ih' =>
      obtain ⟨left, right⟩ := Bool.and_eq_true_iff.mp silent
      rw [write, ih left free, ih' right free]
  | _ => cases silent

/-- A script that begins with a word writes it where the sheet ends. -/
theorem write_of_head? {script : Script} {w : Word} (first : script.head? = some w) {s : Sheet}
    (free : s.due = false) :
    ∃ xs, (script.write s).scraps = s.scraps ++ ⟨s.gap, .word w⟩ :: xs := by
  induction script generalizing s with
  | word =>
      cases first
      exact ⟨[], rfl⟩
  | hang breaks extra body ih =>
      exact ih first (s := { s with margin := if breaks then s.column + extra else s.margin }) free
  | indented body ih => exact ih first (s := { s with margin := s.margin + indentWidth }) free
  | enclosed body ih => exact ih first (s := { s with depth := s.depth + 1 }) free
  | seq one two ih ih' =>
      rw [head?] at first
      split at first
      · rename_i silent
        rw [write, write_of_isSilent silent free]
        exact ih' first free
      · obtain ⟨xs, same⟩ := ih first free
        obtain ⟨ys, more, _⟩ := two.write_adds (one.write s)
        exact ⟨xs ++ ys, by rw [write, more, same]; simp⟩
  | _ => cases first

end Script

/-! ## Brackets -/

/-- The number of open brackets behind a word. -/
def Word.level (w : Word) (d : Nat) : Nat :=
  match w.kind with
  | .symbol sign => if sign.opens then d + 1 else if sign.closes then d - 1 else d
  | _ => d

/-- A word that is read as what it is whatever follows it. `load` is none. -/
def Word.Stable (w : Word) : Prop := ∀ rest, kindOf w.piece w.text rest = w.kind

namespace Word

theorem stable_symbol (s : Symbol) : (symbol s).Stable := by
  intro rest
  cases s <;> rfl

theorem stable_keyword {k : Keyword} (other : k ≠ .load) : (keyword k).Stable := by
  intro rest
  cases k with
  | load => exact absurd rfl other
  | _ => rfl

end Word

/-- Scraps without comments that lead from one number of open brackets to another, with lines that
end only inside brackets. -/
inductive Nested : Nat → List Scrap → Nat → Prop
  | nil {d : Nat} : Nested d [] d
  | word {d e gap : Nat} {w : Word} {xs : List Scrap} (stable : w.Stable)
      (rest : Nested (w.level d) xs e) : Nested d (⟨gap, .word w⟩ :: xs) e
  | line {d e gap : Nat} {xs : List Scrap} (inside : 0 < d) (rest : Nested d xs e) :
      Nested d (⟨gap, .line⟩ :: xs) e
  | join {d e gap : Nat} {xs : List Scrap} (rest : Nested d xs e) :
      Nested d (⟨gap, .join⟩ :: xs) e

theorem Nested.append {d e k : Nat} {xs ys : List Scrap} (first : Nested d xs e)
    (second : Nested e ys k) : Nested d (xs ++ ys) k := by
  induction first with
  | nil => exact second
  | word stable _ ih => exact .word stable (ih second)
  | line inside _ ih => exact .line inside (ih second)
  | join _ ih => exact .join (ih second)

/-- A sheet on which nothing waits. -/
structure Sheet.Calm (s : Sheet) : Prop where
  pending : s.pending = []
  due : s.due = false

/-- A script without comments that leads from one number of open brackets to another on sheets on
which nothing waits. Where `inside` is not set, the printer counts no open bracket. -/
structure Nests (inside : Bool) (d : Nat) (script : Script) (e : Nat) : Prop where
  quiet : script.comments = []
  writes : ∀ s : Sheet, s.Calm → (0 < s.depth → inside = true) →
    (script.write s).Calm ∧ (script.write s).depth = s.depth ∧
      ∃ xs, (script.write s).scraps = s.scraps ++ xs ∧ Nested d xs e

namespace Nests

variable {inside : Bool} {d e k : Nat} {script next body : Script}

theorem seq (first : Nests inside d script e) (second : Nests inside e next k) :
    Nests inside d (script ++ next) k := by
  refine ⟨by rw [Script.comments_append, first.quiet, second.quiet]; rfl, fun s calm count => ?_⟩
  obtain ⟨calm, depth, xs, added, nested⟩ := first.writes s calm count
  obtain ⟨calm, depth', ys, added', nested'⟩ := second.writes _ calm (by rwa [depth])
  refine ⟨calm, depth'.trans depth, xs ++ ys, ?_, nested.append nested'⟩
  rw [Script.write_append, added', added, List.append_assoc]

theorem ofSilent (silent : script.isSilent = true) : Nests inside d script d := by
  refine ⟨Script.comments_of_isSilent silent, fun s calm _ => ?_⟩
  rw [Script.write_of_isSilent silent calm.due]
  exact ⟨calm, rfl, [], (List.append_nil _).symm, .nil⟩

theorem word {w : Word} (stable : w.Stable) (level : w.level d = e) :
    Nests inside d (.word w) e := by
  subst level
  exact ⟨rfl, fun _ calm _ => ⟨⟨calm.pending, calm.due⟩, rfl, [_], rfl, .word stable .nil⟩⟩

theorem blank : Nests inside d .blank d :=
  ⟨rfl, fun _ calm _ => ⟨⟨calm.pending, calm.due⟩, rfl, [], (List.append_nil _).symm, .nil⟩⟩

/-- A line break with nothing that waits for it. -/
theorem write_newline {s : Sheet} (calm : s.Calm) :
    s.newline = { s with scraps := s.scraps ++ [⟨0, .line⟩], gap := s.margin } := by
  obtain ⟨scraps, gap, pending, margin, depth, due, spacing⟩ := s
  obtain ⟨rfl, rfl⟩ : pending = [] ∧ due = false := ⟨calm.pending, calm.due⟩
  simp [Sheet.newline, Sheet.flush, Sheet.lineBreak, Sheet.put, Sheet.pad, Sheet.trim]

theorem newline (open' : 0 < d) : Nests inside d .newline d := by
  refine ⟨rfl, fun s calm _ => ?_⟩
  rw [Script.write, write_newline calm]
  exact ⟨⟨calm.pending, calm.due⟩, rfl, [_], rfl, .line open' .nil⟩

theorem breakInside (open' : inside = true → 0 < d) : Nests inside d .breakInside d := by
  refine ⟨rfl, fun s calm count => ?_⟩
  rw [Script.write, Sheet.breakInside]
  split
  · exact ⟨⟨calm.pending, calm.due⟩, rfl, [_], rfl, .join .nil⟩
  · rename_i deep
    exact (newline (open' (count (by omega)))).writes s calm count

theorem room : Nests inside d .room d := by
  refine ⟨rfl, fun s calm _ => ?_⟩
  rw [Script.write, calm.pending]
  exact ⟨calm, rfl, [], (List.append_nil _).symm, .nil⟩

theorem hang {breaks : Bool} {extra : Nat} (nests : Nests inside d body e) :
    Nests inside d (.hang breaks extra body) e := by
  refine ⟨nests.quiet, fun s calm count => ?_⟩
  obtain ⟨after, depth, xs⟩ := nests.writes
    { s with margin := if breaks then s.column + extra else s.margin }
    ⟨calm.pending, calm.due⟩ count
  exact ⟨⟨after.pending, after.due⟩, depth, xs⟩

theorem indented (nests : Nests inside d body e) : Nests inside d (.indented body) e := by
  refine ⟨nests.quiet, fun s calm count => ?_⟩
  obtain ⟨after, depth, xs⟩ := nests.writes { s with margin := s.margin + indentWidth }
    ⟨calm.pending, calm.due⟩ count
  exact ⟨⟨after.pending, after.due⟩, depth, xs⟩

/-- Where a script may count on a bracket, the brackets that are counted are no matter. -/
theorem ofInside (nests : Nests true d script e) : Nests inside d script e :=
  ⟨nests.quiet, fun s calm _ => nests.writes s calm fun _ => rfl⟩

theorem enclosed (nests : Nests true d body e) : Nests inside d (.enclosed body) e := by
  refine ⟨nests.quiet, fun s calm _ => ?_⟩
  obtain ⟨after, _, xs⟩ := nests.writes { s with depth := s.depth + 1 } ⟨calm.pending, calm.due⟩
    fun _ => rfl
  exact ⟨⟨after.pending, after.due⟩, rfl, xs⟩

theorem opening {sign : Symbol} (opens : sign.opens = true) :
    Nests inside d (Script.mark sign) (d + 1) :=
  word (Word.stable_symbol sign) (if_pos opens)

theorem closing {sign : Symbol} (shut : sign.opens = false) (closes : sign.closes = true) :
    Nests inside (d + 1) (Script.mark sign) d :=
  word (Word.stable_symbol sign) (by simp [Word.level, Word.symbol, shut, closes])

end Nests

/-! ## Scripts that leave the brackets as they are -/

namespace Script

/-- A script that leaves the brackets as they are and may stand everywhere. Where `flat` is set, it
ends no line outside its own brackets, so it matters not which brackets the printer counts. -/
def Even (flat : Bool) (script : Script) : Prop :=
  ∀ inside d, flat = true ∨ (inside = true → 0 < d) → Nests inside d script d

/-- A script that leaves the brackets as they are where it stands inside a bracket. -/
def EvenInside (script : Script) : Prop := ∀ d, 0 < d → Nests true d script d

namespace Even

variable {flat : Bool} {x y body : Script}

/-- What stands between brackets leaves the brackets as they are if each part does. -/
theorem inside (even : x.Even flat) : x.EvenInside :=
  fun d open' => even true d (.inr fun _ => open')

theorem outside (even : x.Even flat) : Nests false 0 x 0 := even false 0 (.inr nofun)

theorem append (first : x.Even flat) (second : y.Even flat) : (x ++ y).Even flat :=
  fun inside d open' => (first inside d open').seq (second inside d open')

theorem ofSilent (silent : x.isSilent = true) : x.Even flat := fun _ _ _ => .ofSilent silent

theorem blank : Script.blank.Even flat := fun _ _ _ => .blank

theorem breakInside : Script.breakInside.Even false :=
  fun _ _ open' => .breakInside (open'.resolve_left Bool.false_ne_true)

theorem word {w : Word} (stable : w.Stable) (same : ∀ d, w.level d = d) :
    (Script.word w).Even flat :=
  fun _ d _ => .word stable (same d)

theorem key (k : Keyword) (other : k ≠ .load) : (Script.key k).Even flat :=
  word (Word.stable_keyword other) fun _ => rfl

theorem between (k : Keyword) (other : k ≠ .load) :
    (Script.blank ++ Script.key k ++ Script.blank).Even flat :=
  (blank.append (key k other)).append blank

theorem mark {s : Symbol} (open' : s.opens = false) (close : s.closes = false) :
    (Script.mark s).Even flat :=
  word (Word.stable_symbol s) fun _ => by simp [Word.level, Word.symbol, open', close]

theorem onlyIf {b : Bool} (even : x.Even flat) : (Script.onlyIf b x).Even flat := by
  cases b with
  | true => exact even
  | false => exact ofSilent rfl

/-- Between brackets that the printer counts, lines may break. -/
theorem bracket {o c : Symbol} (opens : o.opens = true) (shut : c.opens = false)
    (closes : c.closes = true) (inner : body.EvenInside) :
    (Script.mark o ++ enclosed body ++ Script.mark c).Even flat := by
  intro inside d _
  have nests := inner (d + 1) (Nat.succ_pos d)
  exact ((Nests.opening opens).seq nests.enclosed).seq (Nests.closing shut closes)

end Even

namespace EvenInside

variable {x y : Script}

theorem append (first : x.EvenInside) (second : y.EvenInside) : (x ++ y).EvenInside :=
  fun d open' => (first d open').seq (second d open')

theorem ofSilent (silent : x.isSilent = true) : x.EvenInside := fun _ _ => .ofSilent silent

theorem newline : Script.newline.EvenInside := fun _ open' => .newline open'

theorem room : Script.room.EvenInside := fun _ _ => .room

theorem comma : (Script.mark .comma).EvenInside :=
  have even : (Script.mark .comma).Even false := .mark rfl rfl
  even.inside

theorem indented (even : x.EvenInside) : (Script.indented x).EvenInside :=
  fun d open' => (even d open').indented

theorem onlyIf {b : Bool} (even : x.EvenInside) : (Script.onlyIf b x).EvenInside := by
  cases b with
  | true => exact even
  | false => exact ofSilent rfl

end EvenInside

namespace Even

variable {flat : Bool} {x y body : Script} {parts : List Part}

/-- An operator leaves the brackets as they are. -/
theorem operator {op : String} (known : op ∈ assignments ++ binaryOperators) :
    (Script.operator op).Even flat := by
  unfold Script.operator
  split
  · exact ((key .not nofun).append blank).append (key .in nofun)
  split
  · exact ((key .is nofun).append blank).append (key .not nofun)
  · refine word (fun rest => ?_) fun d => ?_
    all_goals fin_cases known <;> rfl

/-- So does an operation whose sides do. -/
theorem operation {op : String} {breaks : Bool} {extra : Nat}
    (known : op ∈ assignments ++ binaryOperators) (whole : flat = true → breaks = false)
    (left : x.Even flat) (right : y.Even flat) :
    (Script.operation x op breaks y extra).Even flat := by
  have gap : (if breaks then Script.breakInside else Script.blank).Even flat := by
    cases breaks with
    | false => exact blank
    | true =>
        cases flat with
        | false => exact breakInside
        | true => cases whole rfl
  have all := (((left.append blank).append (operator known)).append gap).append right
  exact fun inside d open' => (all inside d open').hang

theorem framed {parens isBlock : Bool} (even : body.Even flat) :
    (Script.framed .none parens isBlock body).Even flat := by
  have start : (Script.breakIfDue ++ Script.leading []).Even flat := ofSilent rfl
  have stop : (Script.onlyIf (!isBlock) (.queue [])).Even flat := onlyIf (ofSilent rfl)
  refine (start.append ?_).append stop
  cases parens with
  | true => exact bracket rfl rfl rfl even.inside
  | false => exact even

theorem comma : (Script.mark .comma).Even flat := mark rfl rfl

theorem colon : (Script.mark .colon).Even flat := mark rfl rfl

theorem onOneLine (each : ∀ x ∈ parts, x.script.Even flat) :
    (Script.onOneLine parts).Even flat := by
  fun_induction Script.onOneLine parts with
  | case1 => exact ofSilent rfl
  | case2 x => exact each x (List.mem_singleton_self x)
  | case3 x y rest ih =>
      obtain ⟨here, later⟩ := List.forall_mem_cons.mp each
      exact (here.append (comma.append blank)).append (ih later)

end Even

namespace EvenInside

variable {x body : Script} {parts : List Part}

theorem onOneLine (each : ∀ x ∈ parts, x.script.EvenInside) :
    (Script.onOneLine parts).EvenInside := by
  fun_induction Script.onOneLine parts with
  | case1 => exact ofSilent rfl
  | case2 x => exact each x (List.mem_singleton_self x)
  | case3 x y rest ih =>
      obtain ⟨here, later⟩ := List.forall_mem_cons.mp each
      exact (here.append (comma.append (@Even.blank false).inside)).append (ih later)

theorem onLines {enclosure : Enclosure} (each : ∀ x ∈ parts, x.script.EvenInside) :
    (Script.onLines enclosure parts).EvenInside := by
  induction parts with
  | nil => exact ofSilent rfl
  | cons x rest ih =>
      obtain ⟨here, later⟩ := List.forall_mem_cons.mp each
      exact ((newline.append here).append (onlyIf comma)).append (ih later)

/-- What stands between brackets leaves the brackets as they are if each part does. -/
theorem inside {enclosure : Enclosure} {layout : Layout}
    (each : ∀ x ∈ parts, x.script.EvenInside) :
    (Script.inside enclosure parts [] layout).EvenInside := by
  unfold Script.inside
  split
  · exact (onOneLine each).append (onlyIf comma)
  · have lines : (Script.onLines enclosure parts).EvenInside := onLines each
    have listed := (onlyIf (b := !parts.isEmpty) room).append lines
    exact (listed.append fun _ _ => Nests.ofSilent rfl).indented.append newline

/-- So do clauses between brackets. -/
theorem clauses {multiLine : Bool} (each : ∀ x ∈ parts, x.script.EvenInside) :
    (Script.clauses multiLine parts).EvenInside := by
  induction parts with
  | nil => exact ofSilent rfl
  | cons x rest ih =>
      obtain ⟨here, later⟩ := List.forall_mem_cons.mp each
      refine append ?_ (ih later)
      cases multiLine with
      | true => exact Even.breakInside.inside.append here
      | false => exact (@Even.blank false).inside.append here

end EvenInside

namespace Even

variable {flat : Bool} {x y body : Script} {parts : List Part}

theorem sequence {enclosure : Enclosure} {layout : Layout} (bracketed : enclosure ≠ .none)
    (each : ∀ x ∈ parts, x.script.EvenInside) :
    (Script.sequence enclosure parts [] layout).Even flat := by
  have inner : (Script.inside enclosure parts [] layout).EvenInside := EvenInside.inside each
  cases enclosure with
  | none => exact absurd rfl bracketed
  | call | tuple | paren | list | braces => exact bracket rfl rfl rfl inner

/-- Here the opening bracket is already counted when it is written. -/
theorem comprehension {curly multiLine : Bool} (element : body.EvenInside)
    (each : ∀ x ∈ parts, x.script.EvenInside) :
    (Script.comprehension curly body parts [] multiLine).Even flat := by
  have lines : (if multiLine || !([] : List Comment).isEmpty then
      Script.indented (.newline ++ body ++ .clauses true parts ++ .closing []) ++ .newline
      else body ++ .clauses false parts).EvenInside := by
    split
    · have loops : (Script.clauses true parts).EvenInside := .clauses each
      have listed := (EvenInside.newline.append element).append loops
      exact (listed.append fun _ _ => Nests.ofSilent rfl).indented.append .newline
    · exact element.append (.clauses each)
  intro inside d _
  have middle := lines (d + 1) (Nat.succ_pos d)
  refine Nests.enclosed (((Nests.opening ?_).seq middle).seq (Nests.closing ?_ ?_)) <;>
    cases curly <;> rfl

theorem lambdaParams (each : ∀ x ∈ parts, x.script.Even flat) :
    (Script.lambdaParams parts).Even flat := by
  cases parts with
  | nil => exact ofSilent rfl
  | cons x rest => exact blank.append (onOneLine each)

/-- Between brackets that the printer does not count. -/
theorem subscript (left : x.Even flat) (inner : y.EvenInside) :
    (x ++ Script.mark .lbrack ++ y ++ Script.mark .rbrack).Even flat := by
  intro inside d open'
  have middle : Nests inside (d + 1) y (d + 1) := (inner (d + 1) (Nat.succ_pos d)).ofInside
  exact (((left inside d open').seq (.opening rfl)).seq middle).seq (.closing rfl rfl)

/-- A slice closes the bracket that it opens, whichever of its parts it has. -/
theorem slice {lower upper step : Script} {second : Bool} (left : x.Even flat)
    (start : lower.EvenInside) (stop : upper.EvenInside) (stride : step.EvenInside) :
    (x ++ Script.mark .lbrack ++ lower ++ Script.mark .colon ++ upper ++
      (if second then Script.mark .colon ++ step else .done) ++ Script.mark .rbrack).Even flat := by
  have colons : (Script.mark .colon).EvenInside := (@colon false).inside
  have rest : (if second then Script.mark .colon ++ step else Script.done).EvenInside := by
    split
    · exact colons.append stride
    · exact .ofSilent rfl
  intro inside d open'
  have within {y : Script} (even : y.EvenInside) : Nests inside (d + 1) y (d + 1) :=
    (even (d + 1) (Nat.succ_pos d)).ofInside
  have bracket : Nests inside d (Script.mark .lbrack) (d + 1) := .opening rfl
  have opened := ((left inside d open').seq bracket).seq (within start)
  have bounds := (opened.seq (within colons)).seq (within stop)
  exact (bounds.seq (within rest)).seq (.closing rfl rfl)

end Even

end Script

end Starlark
