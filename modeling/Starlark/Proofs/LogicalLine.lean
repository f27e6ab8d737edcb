import Starlark.Proofs.RoundTrip
import Starlark.Proofs.Spacing

/-!
# Logical lines

A statement that is an expression or an assignment is printed as one logical
line: whatever the hints for its layout are, the scanner sees no line end before
the last word (`File.logicalLine_formatWith`). Where a line is broken, a bracket
is open or a backslash stands in front of the line end.

This does not hold of all tuples without brackets. The printer counts such a
tuple as an open bracket, so a line that is broken inside one of its items ends
without a backslash. Between brackets this does no harm. Outside brackets such a
tuple is the whole statement or a side of an assignment, and its items must break
no line outside their own brackets (`Node.isStraight`).

Two more kinds of trees are left out (`Node.IsClear`), though their lines end
nowhere else either: an attribute of a number and the name `load` are not always
cut into the words that were written.
-/

set_option autoImplicit false

namespace Starlark

/-! ## Clear trees -/

namespace Node

/-- A tree that the scanner reads as it was written: it has no comments, no number in it has an
attribute, and no name is `load`. -/
structure IsClear (v : Node) : Prop where
  quiet : v.remarks = []
  sharp : v.everywhere isSharp = true
  named : v.everywhere isNamed = true

theorem IsClear.child {v c : Node} (clear : v.IsClear) (member : c ∈ v.children) : c.IsClear := by
  obtain ⟨comments, f⟩ := v
  have quiet := clear.quiet
  rw [remarks_mk, List.append_eq_nil_iff, Form.remarks, List.append_eq_nil_iff] at quiet
  exact ⟨List.flatMap_eq_nil_iff.mp quiet.2.2 c member, (everywhere_iff.mp clear.sharp).2 c member,
    (everywhere_iff.mp clear.named).2 c member⟩

theorem IsClear.comments {v : Node} (clear : v.IsClear) : v.comments = .none := by
  obtain ⟨comments, f⟩ := v
  have quiet := clear.quiet
  rw [remarks_mk, List.append_eq_nil_iff] at quiet
  exact Comments.eq_none quiet.1

/-- The sides of an assignment are parts of it. -/
theorem IsClear.sides {comments : Comments} {x y : Node} {p : Position} {op : String}
    {breaks : Bool} (clear : (Node.mk comments (.binary true x p op breaks y)).IsClear) :
    x.IsClear ∧ y.IsClear :=
  ⟨clear.child (List.mem_cons_self ..),
    clear.child (List.mem_cons_of_mem _ (List.mem_cons_self ..))⟩

end Node

/-! ## Expressions outside brackets -/

namespace Script

/-- Without brackets and comments, parts stand on one line. -/
theorem fits_none {parts : List Part} {layout : Layout} (plain : ∀ x ∈ parts, x.commented = false) :
    fits .none parts [] layout = true := by
  have none : (parts.map Part.item).any Item.commented = false := by
    rw [List.any_map, List.any_eq_false]
    intro x member
    exact ne_true_of_eq_false (plain x member)
  rw [fits, fitsOneLine, none]
  rfl

/-- The items of a tuple without brackets may stand everywhere if they break no line. -/
theorem Even.bareTuple {parts : List Part} {layout : Layout}
    (plain : ∀ x ∈ parts, x.commented = false) (each : ∀ x ∈ parts, x.script.Even true) :
    (Script.sequence .none parts [] layout).Even false := by
  have line : (Script.inside .none parts [] layout).Even true := by
    rw [Script.inside, fits_none plain, if_pos rfl]
    exact (Even.onOneLine each).append (.onlyIf .comma)
  intro inside d _
  exact ((Nests.ofSilent rfl).seq (line true d (.inl rfl)).enclosed).seq (.ofSilent rfl)

variable {x y : Script} {w : Word}

theorem head?_of_front (first : x.head? = some w) : (x ++ y).head? = some w := by
  rw [head?_append, if_neg (by simp [isSilent_of_head? first]), first]

theorem head?_of_isSilent (silent : x.isSilent = true) (first : y.head? = some w) :
    (x ++ y).head? = some w := by
  rw [head?_append, if_pos silent, first]

theorem head?_framed {isBlock : Bool} (first : x.head? = some w) :
    (framed .none false isBlock x).head? = some w :=
  head?_of_front (head?_of_isSilent rfl first)

end Script

/-- Nodes without comments are printed as parts without comments. -/
theorem plain_scriptList {vs : List Node} (quiet : ∀ v ∈ vs, v.remarks = []) :
    ∀ x ∈ (scriptList vs).map Script.Line.part, x.commented = false := by
  induction vs with
  | nil => exact List.forall_mem_nil _
  | cons v vs ih =>
      obtain ⟨here, later⟩ := List.forall_mem_cons.mp quiet
      refine List.forall_mem_cons.mpr ⟨?_, ih later⟩
      obtain ⟨c, f⟩ := v
      rw [Node.remarks_mk, List.append_eq_nil_iff] at here
      obtain rfl : c = .none := Comments.eq_none here.1
      rfl

/-- Whether the items of a tuple without brackets break no line outside their own brackets. -/
def Node.isStraight : Node → Bool
  | .mk _ (.collection .bareTuple _ items _ _) => unbrokenList items
  | _ => true

/-- Whether a statement is an expression or an assignment, in which no tuple outside brackets
breaks a line outside the brackets of its items. -/
def Form.isStraightLine : Form → Bool
  | .binary true x _ _ _ y => x.isStraight && y.isStraight
  | .collection .bareTuple _ items _ _ => unbrokenList items
  | .commentBlock .. | .returnStmt .. | .branch .. | .load .. | .defStmt .. | .forStmt ..
  | .ifStmt .. => false
  | _ => true

namespace Node

/-- A clear expression that can stand outside brackets. -/
structure StandsFree (v : Node) : Prop extends v.IsClear where
  plays : v.Plays .expression
  straight : v.isStraight = true

/-- An expression is a test or a tuple without brackets. -/
theorem Plays.expression_cases {v : Node} (plays : v.Plays .expression) :
    v.Plays .test ∨ ∃ p x xs close layout,
      v.form = .collection .bareTuple p (x :: xs) close layout ∧
        ∀ y ∈ x :: xs, y.Plays .test := by
  obtain ⟨c, f⟩ := v
  cases f with
  | collection kind p items close layout =>
      cases kind with
      | bareTuple =>
          obtain ⟨some, all⟩ := plays
          obtain ⟨x, xs, rfl⟩ := List.exists_cons_of_ne_nil some
          exact .inr ⟨p, x, xs, close, layout, rfl, playAll_iff.mp all⟩
      | list | set | dict | tuple => exact .inl plays
  | _ => exact .inl plays

/-- A tuple without brackets is printed without parentheses. -/
theorem script_bareTuple {v : Node} {p : Position} {items : List Node} {close : Close}
    {layout : Layout} (form : v.form = .collection .bareTuple p items close layout)
    (quiet : v.remarks = []) (outer : Strength) :
    v.script outer = .framed .none false false
      (.sequence .none ((scriptList items).map Script.Line.part) [] layout) := by
  obtain ⟨c, f⟩ := v
  obtain rfl : f = _ := form
  simp only [remarks_mk, Form.remarks, Form.held, List.append_eq_nil_iff] at quiet
  obtain ⟨own, held, _⟩ := quiet
  rw [Node.script, Form.script, Comments.eq_none own, Comments.eq_none held]
  rfl

namespace StandsFree

variable {v : Node}

theorem item (free : v.StandsFree) {p : Position} {items : List Node} {close : Close}
    {layout : Layout} (form : v.form = .collection .bareTuple p items close layout) {x : Node}
    (member : x ∈ items) : x.IsClear := by
  obtain ⟨c, f⟩ := v
  obtain rfl : f = _ := form
  exact free.child member

/-- An expression that can stand outside brackets leaves the brackets as they are. -/
theorem even (free : v.StandsFree) (outer : Strength) : (v.script outer).Even false := by
  obtain test | ⟨p, x, xs, close, layout, form, each⟩ := free.plays.expression_cases
  · exact v.even_of_isTest test free.quiet free.named outer
  · have straight := free.straight
    have clear (y : Node) (member : y ∈ x :: xs) := free.item form member
    rw [script_bareTuple form free.quiet]
    obtain ⟨c, f⟩ := v
    obtain rfl : f = _ := form
    have whole := unbrokenList_iff.mp straight
    refine (Script.Even.bareTuple ?_ ?_).framed
    · exact plain_scriptList fun y member => (clear y member).quiet
    · exact forall_scriptList fun y member => y.evenAs .test rfl (each y member)
        (clear y member).quiet (clear y member).named true (fun _ => whole y member) .low

/-- An expression begins with a word. -/
theorem begins (free : v.StandsFree) (outer : Strength) : ∃ w, (v.script outer).head? = some w := by
  obtain test | ⟨p, x, xs, close, layout, form, each⟩ := free.plays.expression_cases
  · obtain ⟨w, first, _⟩ := v.leads test free.quiet outer
    exact ⟨w, first⟩
  · have clear (y : Node) (member : y ∈ x :: xs) := free.item form member
    obtain ⟨w, first, _⟩ := x.leads (each x (.head _)) (clear x (.head _)).quiet .low
    have plain := plain_scriptList fun y member => (clear y member).quiet
    refine ⟨w, ?_⟩
    rw [script_bareTuple form free.quiet]
    have front : (Script.onOneLine ((scriptList (x :: xs)).map Script.Line.part)).head? =
        some w := by
      cases xs with
      | nil => exact first
      | cons y xs => exact Script.head?_of_front (Script.head?_of_front first)
    have inside : (Script.inside .none ((scriptList (x :: xs)).map Script.Line.part) []
        layout).head? = some w := by
      rw [Script.inside, Script.fits_none plain, if_pos rfl]
      exact Script.head?_of_front front
    exact Script.head?_framed (Script.head?_of_front (Script.head?_of_isSilent rfl inside))

theorem fits (free : v.StandsFree) (outer : Strength) :
    Fits false (.begins (opens false)) (v.script outer) (.takes (closes false)) :=
  (v.fits .expression rfl free.plays (.inr free.sharp)).closed outer

end StandsFree

/-! ## Lines -/

/-- A clear statement that is an expression or an assignment. -/
inductive IsClearLine : Node → Prop
  | value {v : Node} (free : v.StandsFree) : IsClearLine v
  | assign {x y : Node} {p : Position} {op : String} {breaks : Bool} (known : op ∈ assignments)
      (left : x.StandsFree) (right : y.StandsFree) :
      IsClearLine (.bare (.binary true x p op breaks y))

variable {v : Node}

/-- A clear expression that breaks no line outside brackets can stand outside them. -/
theorem StandsFree.ofStraightLine (plays : v.Plays .expression) (clear : v.IsClear)
    (straight : v.form.isStraightLine = true) : v.StandsFree := by
  refine ⟨clear, plays, ?_⟩
  obtain ⟨c, f⟩ := v
  cases f with
  | collection kind =>
      cases kind with
      | bareTuple => exact straight
      | list | set | dict | tuple => rfl
  | _ => rfl

/-- Clear statements that are straight lines are lines. -/
theorem IsClear.line {types : Bool} (clear : v.IsClear) (plays : v.Plays (.line types))
    (straight : v.form.isStraightLine = true) : v.IsClearLine := by
  have value (plays : v.Plays .expression) : v.IsClearLine :=
    .value (.ofStraightLine plays clear straight)
  obtain ⟨c, f⟩ := v
  cases f with
  | binary assigns =>
      cases assigns with
      | false => exact value plays
      | true =>
          obtain ⟨known, left, right⟩ := plays
          obtain rfl : c = .none := clear.comments
          obtain ⟨first, second⟩ := clear.sides
          obtain ⟨flat, flat'⟩ := Bool.and_eq_true_iff.mp straight
          exact .assign known ⟨first, left, flat⟩ ⟨second, right, flat'⟩
  | collection kind =>
      cases kind with
      | bareTuple | list | set | dict | tuple => exact value plays
  | commentBlock | returnStmt | branch | load | defStmt | forStmt | ifStmt => cases straight
  | _ => exact value plays

namespace IsClearLine

/-- The lines of the text of a line end only inside brackets or behind a backslash. -/
theorem even (line : v.IsClearLine) : (v.script .low).Even false := by
  cases line with
  | value free => exact free.even .low
  | @assign x y p op breaks known left right =>
      have body : (Form.script (.binary true x p op breaks y) []).Even false :=
        .operation (List.mem_append_left _ known) (by simp) (left.even .assign) (right.even .comma)
      exact body.framed

/-- A line is written tidily. -/
theorem tidy (line : v.IsClearLine) (spacing : Spacing) :
    ((v.script .low).write (.blank spacing)).Tidy false := by
  have empty : (Sheet.blank spacing).Tidy false := ⟨.nil, nofun⟩
  have begins (p : Char → Bool) : Edge.Holds false (.begins p) (.blank spacing) :=
    .inr ⟨rfl, nofun⟩
  have signs : ∀ op ∈ assignments, Word.isSign op = true := by decide
  cases line with
  | value free => exact (free.fits .low _ empty (begins _)).1
  | @assign x y p op breaks known left right =>
      have body : Fits false (.takes everyChar) (Form.script (.binary true x p op breaks y) [])
          (.takes (closes false)) :=
        Fits.operation (.inr (.inr (signs op known))) (left.fits .assign).anywhere
          (right.fits .comma)
      exact (body.bare (fun _ => ⟨_, rfl⟩) _ empty (begins _)).1

/-- A line begins with a word. -/
theorem begins (line : v.IsClearLine) : ∃ w, (v.script .low).head? = some w := by
  cases line with
  | value free => exact free.begins .low
  | assign known left right =>
      obtain ⟨w, first⟩ := left.begins .assign
      exact ⟨w, Script.head?_framed (Script.head?_of_front (Script.head?_of_front
        (Script.head?_of_front (Script.head?_of_front first))))⟩

theorem comments (line : v.IsClearLine) : v.comments = .none := by
  cases line with
  | value free => exact free.toIsClear.comments
  | assign => rfl

end IsClearLine

end Node

/-! ## Statements -/

/-- A line is printed like every expression. -/
theorem Node.IsClearLine.statement {v : Node} (line : v.IsClearLine) (script : Script) :
    Script.Line.statement ⟨v, script⟩ = script ++ .softBreak := by
  cases line with
  | assign => rfl
  | value free =>
      have plays := free.plays
      obtain ⟨comments, f⟩ := v
      cases f <;> first | rfl | cases plays

/-- The text of a small statement by itself is that of its sheet, with a line end. -/
theorem File.toList_formatWith_of_calm {f : File} {v : Node} {spacing : Spacing}
    (only : f.statements = [v]) (none : f.comments = .none)
    (small : Script.Line.statement ⟨v, v.script .low⟩ = v.script .low ++ .softBreak)
    (comments : v.comments = .none) (quiet : (v.script .low).comments = [])
    (tidy : ((v.script .low).write (.blank spacing)).Tidy false)
    (calm : ((v.script .low).write (.blank spacing)).Calm) :
    (f.formatWith spacing).toList =
      Scrap.textOf ((v.script .low).write (.blank spacing)).scraps ++ ['\n'] := by
  have line : Script.Line.whole ⟨v, v.script .low⟩ = v.script .low ++ .softBreak ++ .under [] := by
    rw [Script.Line.whole, small, comments]
    rfl
  have whole : f.script = .remarks [] ++ (v.script .low ++ .softBreak ++ .under []) ++
      .remarks [] ++ .breakIfDue := by
    rw [← line, script, only, none]
    rfl
  have firm : ∀ w ∈ (v.script .low).words, Firm w.text := fun w member =>
    (Script.sound_of_tidy tidy w member).firm
  have shows := (Shows.blank spacing).run firm (by simp [quiet])
  have margin : ((v.script .low).write (.blank spacing)).margin = 0 :=
    shows.margin.symm.trans (Script.sameFrame_run _ _).margin
  have written : f.sheet spacing = ((v.script .low).write (.blank spacing)).newline := by
    rw [sheet, whole]
    rfl
  rw [toList_formatWith (by simpa [whole, Script.words] using firm)
    (by simp [whole, Script.comments, quiet]), written, Nests.write_newline calm, margin]
  simp [Sheet.text, Scrap.text, Mark.text]

/-- The text of a line by itself is cut into its words and a line end. -/
theorem File.scan_formatWith_of_line {f : File} {v : Node} (only : f.statements = [v])
    (none : f.comments = .none) (line : v.IsClearLine) (spacing : Spacing) :
    ∃ (ts : List Token) (newline stop : Token),
      TokenStream.ofChars (f.formatWith spacing).toList = .ok ⟨ts ++ [newline, stop], [], []⟩ ∧
      ts.map Token.word = (v.script .low).words ∧ (ts.headD .ended).kind ≠ .keyword .load ∧
      newline.kind = .newline ∧ stop.kind = .eof := by
  have nests := line.even.outside
  have tidy := line.tidy spacing
  have calm := (nests.writes (.blank spacing) ⟨rfl, rfl⟩ nofun).1
  obtain ⟨w, first⟩ := line.begins
  obtain ⟨ts, newline, stop, words, other, isLine, isStop, scanned⟩ :=
    Script.scan_write nests tidy first 0
  refine ⟨ts, newline, stop, ?_, words, other, isLine, isStop⟩
  rw [toList_formatWith_of_calm only none (line.statement _) line.comments nests.quiet tidy calm,
    TokenStream.ofChars]
  show TokenStream.ofLexemes <$> Lexeme.scan (_ ++ (List.replicate 0 ' ' ++ ['\n'])) = _
  rw [scanned]
  exact congrArg Except.ok (TokenStream.ofLexemes_tokens _)

/-- No word is a line end. -/
theorem Word.Sound.kind_ne_newline {w : Word} (sound : w.Sound) : w.kind ≠ .newline := by
  intro line
  obtain ⟨_, _, _, _, rest, kind⟩ := sound
  rw [line, piece, line] at kind
  have kind : Lexeme.Margin.operatorKind w.text = .newline := kind
  unfold Lexeme.Margin.operatorKind Token.Kind.ofOperator? at kind
  split at kind
  · cases kind
  · split at kind <;> cases kind

/-- An expression or an assignment by itself is printed as one logical line, whatever the hints for
its layout are: the scanner cuts its text into the words of the tree, and the only line end that it
sees stands behind them. -/
theorem File.logicalLine_formatWith {f : File} {v : Node} (only : f.statements = [v])
    (none : f.comments = .none) (line : v.IsClearLine) (spacing : Spacing) :
    ∃ (ts : List Token) (newline stop : Token),
      TokenStream.ofChars (f.formatWith spacing).toList = .ok ⟨ts ++ [newline, stop], [], []⟩ ∧
      ts.map Token.word = (v.script .low).words ∧ (∀ t ∈ ts, t.kind ≠ .newline) ∧
      newline.kind = .newline ∧ stop.kind = .eof := by
  obtain ⟨ts, newline, stop, scanned, words, _, isLine, isStop⟩ :=
    scan_formatWith_of_line only none line spacing
  refine ⟨ts, newline, stop, scanned, words, fun t member => ?_, isLine, isStop⟩
  have spelled : t.word ∈ (v.script .low).words := words ▸ List.mem_map_of_mem member
  exact (Script.sound_of_tidy (line.tidy spacing) t.word spelled).kind_ne_newline

/-- The tree of `x = f(a + b), c`, with a line break behind the first sign and the second. -/
def Node.brokenPair : Node :=
  .bare (.binary true (.ident "x") .nowhere "=" true
    (.bare (.collection .bareTuple .nowhere
      [.bare (.call (.ident "f") .nowhere
        [.bare (.binary false (.ident "a") .nowhere "+" true (.ident "b"))]
        (.at .nowhere) ⟨false, false⟩), .ident "c"] (.at .nowhere) ⟨false, false⟩)))

/-- A tuple may stand outside brackets if its lines break only inside those of its items; the lines
of the assignment are joined by a backslash. -/
theorem File.logicalLine_formatWith_of_brokenPair :
    formatWith .grouped ⟨"a.bzl", .bzl, [.brokenPair], .none⟩ = "x = \\\n    f(a +\n      b), c\n" ∧
    ∃ (ts : List Token) (newline stop : Token),
      TokenStream.ofChars (formatWith .grouped ⟨"a.bzl", .bzl, [.brokenPair], .none⟩).toList =
        .ok ⟨ts ++ [newline, stop], [], []⟩ ∧
      ts.map Token.word = (Node.brokenPair.script .low).words ∧ (∀ t ∈ ts, t.kind ≠ .newline) ∧
      newline.kind = .newline ∧ stop.kind = .eof := by
  have names : ∀ text ∈ ["x", "f", "a", "b", "c"], (Word.name text).Sound := fun text member =>
    Word.sound_name (by fin_cases member <;> decide)
  have shaped : Node.brokenPair.Plays (.line false) :=
    ⟨by decide, names "x" (by simp), List.cons_ne_nil _ _,
      ⟨names "f" (by simp), ⟨rfl, by decide, names "a" (by simp), names "b" (by simp)⟩, trivial⟩,
      names "c" (by simp), trivial⟩
  have clear : Node.brokenPair.IsClear := ⟨Node.remarks_eq_nil _ (by cbv), by cbv, by cbv⟩
  exact ⟨by cbv, logicalLine_formatWith rfl rfl (clear.line shaped rfl) .grouped⟩

end Starlark
