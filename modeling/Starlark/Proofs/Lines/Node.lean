import Starlark.Proofs.Lines
import Starlark.Proofs.Spacing
import Starlark.Proofs.Span
import Starlark.Proofs.Throughout

/-!
# The lines of trees

Printing a tree gives clean lines when every node of it is neat: what it writes
itself is on one line, its bodies are not empty, and where it needs an expression
it has no comment block (`Node.Neat`). Comments may stand everywhere else, apart
from the parts of tuples without brackets, which have no place for them.

Each node keeps the triples of its parts (`Node.flows`), and a file begins and
ends with them (`File.clean_of_neat`).
-/

set_option autoImplicit false

namespace Starlark

/-! ## Neat nodes -/

/-- The texts that a symbol of a `load` writes. -/
def Binding.spellings (b : Binding) : List (List Char) :=
  (StringLit.ofValue b.symbol.text).spelling ::
    if b.bound.text = b.symbol.text then [] else [b.bound.text.toList]

namespace Form

/-- The texts that a form writes itself, apart from the keywords and signs that
every form of its kind writes. -/
def texts : Form → List (List Char)
  | .ident _ text | .literal _ text | .dot _ _ _ text | .unary _ text _
  | .binary _ _ _ text _ _ | .branch text _ | .verbatim _ text
  | .defStmt _ text _ _ _ _ _ _ => [text.toList]
  | .string lit => [lit.spelling]
  | .load _ label _ bindings _ _ => label.spelling :: bindings.flatMap Binding.spellings
  | .typed name _ _ => [name.text.toList]
  | _ => []

/-- The nodes below a form that are in none of its bodies. -/
def parts : Form → List Node
  | .defStmt _ _ _ params _ _ _ _ => params
  | .forStmt _ vars x _ => [vars, x]
  | .ifStmt _ cond _ _ _ => [cond]
  | f => f.children

/-- The bodies that a form cannot do without. -/
def mainBodies : Form → List (List Node)
  | .defStmt _ _ _ _ _ _ body _ | .forStmt _ _ _ body | .ifStmt _ _ body _ _ => [body]
  | _ => []

/-- A tuple without brackets has parts, and none of them has a comment above it. -/
def FitsBare : Form → Prop
  | .collection .bareTuple _ items close _ =>
    items ≠ [] ∧ close.comments.before = [] ∧ ∀ v ∈ items, v.comments.before = []
  | _ => True

theorem parts_subset (f : Form) : f.parts ⊆ f.children := by
  intro v member
  cases f with
  | defStmt | forStmt | ifStmt => exact List.mem_append_left _ member
  | _ => exact member

end Form

/-- A node that is printed as clean lines when its parts are. -/
structure Node.Neat (v : Node) : Prop where
  remarks : ∀ c ∈ v.comments.toList ++ v.form.held, c.OneLine
  texts : ∀ text ∈ v.form.texts, OneLine text
  bare : v.form.FitsBare
  parts : ∀ c ∈ v.form.parts, c.isCommentBlock = false
  bodies : ∀ body ∈ v.form.mainBodies, body ≠ []
  block : v.isCommentBlock = true → v.comments.after ≠ []

/-! ## Parts -/

open Script (Line)

theorem scriptList_eq_map (vs : List Node) : scriptList vs = vs.map Node.asLine := by
  induction vs with
  | nil => rfl
  | cons v vs ih => rw [scriptList, ih, List.map_cons, Node.asLine]

/-- Parts without comments above them go on one line where no bracket asks for more. -/
theorem fits_scriptList {vs : List Node} {layout : Layout}
    (above : ∀ v ∈ vs, v.comments.before = []) :
    Script.fits .none ((scriptList vs).map Line.part) [] layout = true := by
  have uncommented : ((scriptList vs).map Line.part |>.map Script.Part.item).any Item.commented =
      false := by
    simpa [scriptList_eq_map, Node.asLine, Line.part, Script.Part.item] using above
  rw [Script.fits, fitsOneLine, uncommented]
  rfl

namespace Moves

/-- A node that may be missing. -/
theorem scriptOption {v : Option Node} (outer : Strength)
    (each : ∀ u ∈ v.toList, ∀ outer, Moves .ready (u.script outer) .begun) :
    Moves .ready (Starlark.scriptOption v outer) .ready := by
  cases v with
  | none => exact done
  | some u => exact (each u (by simp) outer).after Stance.begun_ready

theorem literal {lit : StringLit} (line : OneLine lit.spelling) : Moves .ready lit.script .begun :=
  (note.onlyIf (.refl .ready)).seq ((word line).after Stance.shut_begun)

/-- A symbol of a `load` is clean lines if its texts and comments are on one line each. -/
theorem binding {b : Binding} (texts : ∀ text ∈ b.spellings, OneLine text)
    (remarks : ∀ c ∈ b.remarks, c.OneLine) : Moves .ready b.part.script .begun := by
  obtain ⟨symbol, bound⟩ := List.forall_mem_cons.mp texts
  obtain ⟨around, within⟩ := List.forall_mem_append.mp remarks
  unfold Binding.part
  split
  next =>
    refine framed (Comments.forall_mem_toList.mpr ?_) (literal symbol)
    rw [Comments.forall_mem_toList] at around within
    simp only [Comments.append, List.forall_mem_append]
    exact ⟨⟨around.1, within.1⟩, ⟨around.2.1, within.2.1⟩, around.2.2, within.2.2⟩
  next other =>
    rw [if_neg other] at bound
    have name := (word (w := .name b.bound.text) (List.forall_mem_singleton.mp bound)).after
      Stance.shut_begun
    refine framed nofun (operation (framed around name) ?_ (framed within (literal symbol)))
    exact ⟨⟨[], '=', rfl, by decide, by decide⟩, by decide⟩

end Moves

namespace Form

open Moves

/-- An expression or a small statement leaves something on the last line when its parts do. -/
theorem moves {f : Form} {suffix : List Comment} (inner : f.isInner = true)
    (texts : ∀ text ∈ f.texts, OneLine text) (held : ∀ c ∈ f.held, c.OneLine)
    (bare : f.FitsBare) (each : ∀ c ∈ f.children, ∀ outer, Moves .ready (c.script outer) .begun) :
    Moves .ready (f.script suffix) .begun := by
  have own {text : List Char} {kind : Token.Kind} (member : text ∈ f.texts) :
      Moves .ready (.word ⟨kind, text⟩) .begun := (word (texts text member)).after Stance.shut_begun
  have part {c : Node} (outer : Strength) (member : c ∈ f.children) :
      Moves .ready (c.script outer) .begun := each c member outer
  have parts {vs : List Node} (inside : ∀ c ∈ vs, c ∈ f.children) :
      ∀ x ∈ (scriptList vs).map Line.part, Moves .ready x.script .begun :=
    forall_scriptList (P := fun x => Moves .ready x .begun) fun c member =>
      each c (inside c member) .low
  have option {v : Option Node} (outer : Strength) (inside : ∀ u ∈ v.toList, u ∈ f.children) :
      Moves .ready (scriptOption v outer) .ready :=
    Moves.scriptOption outer fun u member => each u (inside u member)
  have opened (s : Symbol) : Moves .begun (.mark s) .ready := (sign s).after Stance.begun_ready
  cases f with
  | ident | literal | branch | verbatim => exact own (List.mem_singleton_self _)
  | string lit => exact Moves.literal (texts _ (List.mem_singleton_self _))
  | dot =>
      exact ((part _ (by simp [children])).seq (opened .dot)).seq (own (List.mem_singleton_self _))
  | index =>
      exact (((part _ (by simp [children])).seq (opened .lbrack)).seq
        (part _ (by simp [children]))).seq (sign .rbrack)
  | slice x p lower q upper second step r =>
      have colon : Moves .ready (.mark .colon) .ready := (mark .colon).after Stance.shut_ready
      have stride : Moves .ready
          (if second.isSome then .mark .colon ++ scriptOption step .low else .done) .ready := by
        split
        · exact colon.seq (option _ (by simp +contextual [children]))
        · exact done
      exact ((((((part _ (by simp [children])).seq (opened .lbrack)).seq
        (option _ (by simp +contextual [children]))).seq colon).seq
        (option _ (by simp +contextual [children]))).seq
        stride).seq ((mark .rbrack).after Stance.shut_begun)
  | unary p op x =>
      have operand : Moves .begun (scriptOption x .unary) .begun := by
        cases x with
        | none => exact done
        | some x => exact (part _ (by simp [children])).before Stance.begun_ready
      exact ((own (List.mem_singleton_self _)).seq (blank.onlyIf (.refl .begun))).seq operand
  | binary assigns =>
      have line := texts _ (List.mem_singleton_self _)
      cases assigns with
      | false => exact operation (part _ (by simp [children])) line (part _ (by simp [children]))
      | true => exact operation (part _ (by simp [children])) line (part _ (by simp [children]))
  | conditional =>
      exact ((((part _ (by simp [children])).seq (blankKeyBlank .if)).seq
        (part _ (by simp [children]))).seq (blankKeyBlank .else)).seq (part _ (by simp [children]))
  | lambda =>
      exact ((((key .lambda).after Stance.shut_begun).seq
        (lambdaParams (parts (by simp +contextual [children])))).seq colonBlank).seq
        (part _ (by simp [children]))
  | call =>
      exact (part _ (by simp [children])).seq ((Moves.sequence (by decide)
        (parts (by simp +contextual [children]))
        (Comments.forall_mem_toList.mp held).1).before Stance.begun_ready)
  | collection kind p items close layout =>
      have lines := (Comments.forall_mem_toList.mp held).1
      cases kind with
      | bareTuple =>
          obtain ⟨some, close, above⟩ := bare
          refine tuple (parts fun _ member => member) (by simpa [scriptList_eq_map] using some) ?_
          rw [close]
          exact fits_scriptList above
      | list | set | dict | tuple =>
          exact Moves.sequence (by decide) (parts fun _ member => member) lines
  | keyValue =>
      exact ((part _ (by simp [children])).seq colonBlank).seq (part _ (by simp [children]))
  | comprehension =>
      exact Moves.comprehension (part _ (by simp [children]))
        (parts (by simp +contextual [children])) (Comments.forall_mem_toList.mp held).1
  | forClause =>
      exact (((keyBlank .for).seq (part _ (by simp [children]))).seq (blankKeyBlank .in)).seq
        (part _ (by simp [children]))
  | ifClause => exact (keyBlank .if).seq (part _ (by simp [children]))
  | paren =>
      exact Moves.sequence (by decide)
        (List.forall_mem_singleton.mpr (part _ (by simp [children])))
        (Comments.forall_mem_toList.mp held).1
  | returnStmt p result =>
      cases result with
      | none => exact (key .return).after Stance.shut_begun
      | some x => exact (keyBlank .return).seq (part _ (by simp [children]))
  | load p label comments bindings close compact =>
      obtain ⟨first, symbols⟩ := List.forall_mem_cons.mp texts
      simp only [Form.held, List.forall_mem_append] at held
      refine (key .load).seq ((Moves.sequence (by decide) (List.forall_mem_cons.mpr ⟨?_, ?_⟩)
        (Comments.forall_mem_toList.mp held.2).1).before Stance.shut_ready)
      · exact framed held.1.1 (Moves.literal first)
      · refine List.forall_mem_map.mpr fun b member => ?_
        exact binding (fun text here => symbols text (List.mem_flatMap_of_mem member here))
          fun c here => held.1.2 c (List.mem_flatMap_of_mem member here)
  | typed =>
      exact ((own (List.mem_singleton_self _)).seq colonBlank).seq (part _ (by simp [children]))
  | defStmt | forStmt | ifStmt | commentBlock => cases inner

end Form

/-! ## Nodes -/

/-- What the scripts of a node keep: as a part of something, as a statement, and as what follows a
branch of an `if`. -/
structure Node.Flows (v : Node) : Prop where
  part : v.isCommentBlock = false → ∀ outer, Moves .ready (v.script outer) .begun
  line : Moves .ready v.asLine.whole .ended
  branch : ∀ gap (close : Close), (∀ c ∈ close.comments.toList, c.OneLine) →
    Moves .ended (scriptElse [v] gap close) .ended

namespace Moves

/-- Lines of a body. -/
theorem lines {body : List Node} (flows : ∀ v ∈ body, v.Flows) :
    ∀ l ∈ scriptList body, Moves .ready l.whole .ended := by
  rw [scriptList_eq_map]
  exact List.forall_mem_map.mpr fun v member => (flows v member).line

theorem scriptList_ne_nil {body : List Node} (some : body ≠ []) : scriptList body ≠ [] := by
  rw [scriptList_eq_map]
  simpa using some

/-- An `else` with its body. -/
theorem elseBlock {body : List Node} {gap : Bool} {close : Close} (some : body ≠ [])
    (flows : ∀ l ∈ scriptList body, Moves .ready l.whole .ended)
    (remarks : ∀ c ∈ close.comments.toList, c.OneLine) :
    Moves .ended (.elseLine gap close.comments.before ++ (.key .else ++ .mark .colon) ++
      .queue close.comments.suffix ++ .block (scriptList body)) .ended := by
  obtain ⟨before, suffix, _⟩ := Comments.forall_mem_toList.mp remarks
  have header : Moves .ready (.key .else ++ .mark .colon) .begun :=
    ((key .else).after Stance.shut_begun).seq (sign .colon)
  exact (((elseLine before).seq header).seq (queue suffix)).seq
    (block (scriptList_ne_nil some) flows)

/-- What follows a branch. -/
theorem scriptElse {body : List Node} {gap : Bool} {close : Close}
    (flows : ∀ v ∈ body, v.Flows) (remarks : ∀ c ∈ close.comments.toList, c.OneLine) :
    Moves .ended (Starlark.scriptElse body gap close) .ended := by
  match body with
  | [] => exact done
  | [v] => exact (flows v (List.mem_singleton_self v)).branch gap close remarks
  | v :: w :: rest =>
      rw [Starlark.scriptElse]
      · exact elseBlock (List.cons_ne_nil _ _) (lines flows) remarks
      · nofun

end Moves

open Moves in
/-- A statement with a body ends with the end of its body. -/
theorem Form.moves_block {comments : Comments} {f : Form} (isBlock : f.isBlock = true)
    (neat : (Node.mk comments f).Neat) (flows : ∀ c ∈ f.children, c.Flows) :
    Moves .ready (f.script comments.suffix) .ended := by
  have part {c : Node} (outer : Strength) (member : c ∈ f.parts) :
      Moves .ready (c.script outer) .begun :=
    (flows c (f.parts_subset member)).part (neat.parts c member) outer
  have suffix := (Comments.forall_mem_toList.mp (List.forall_mem_append.mp neat.remarks).1).2.1
  have body {vs : List Node} (main : vs ∈ f.mainBodies) : scriptList vs ≠ [] :=
    scriptList_ne_nil (neat.bodies vs main)
  cases f with
  | defStmt p name q params r s vs layout =>
      obtain ⟨params', vs'⟩ := List.forall_mem_append.mp flows
      have name' := (word (w := .name name) (neat.texts _ (List.mem_singleton_self _))).after
        Stance.shut_ready
      refine (((keyBlank .define).seq name').seq ((Moves.sequence (by decide) ?_
        (List.forall_mem_nil _)).after Stance.begun_ready)).seq
        (headed suffix (body (List.mem_singleton_self _)) (lines vs'))
      exact forall_scriptList (P := fun x => Moves .ready x .begun) fun c member => part _ member
  | forStmt p vars x vs =>
      simp only [children, List.forall_mem_cons] at flows
      exact ((((keyBlank .for).seq (part _ (by simp [parts]))).seq (blankKeyBlank .in)).seq
        ((part _ (by simp [parts])).after Stance.begun_ready)).seq
        (headed suffix (body (List.mem_singleton_self _)) (lines flows.2.2))
  | ifStmt p cond yes close no =>
      simp only [children, List.forall_mem_cons, List.forall_mem_append] at flows
      exact (Moves.branch (part _ (by simp [parts])) suffix (body (List.mem_singleton_self _))
        (lines flows.2.1)).seq
        (Moves.scriptElse flows.2.2 (List.forall_mem_append.mp neat.remarks).2)
  | _ => cases isBlock

namespace Node

open Moves

variable {v : Node} (neat : v.Neat)
include neat

/-- A neat node is clean lines as a part, by cases of its form. -/
theorem Neat.moves_script (flows : ∀ c ∈ v.children, c.Flows)
    (statement : v.isCommentBlock = false) (outer : Strength) :
    Moves .ready (v.script outer) .begun := by
  obtain ⟨comments, f⟩ := v
  obtain ⟨remarks, held⟩ := List.forall_mem_append.mp neat.remarks
  have body : Moves .ready (f.script comments.suffix) .begun := by
    cases isBlock : f.isBlock with
    | true => exact (f.moves_block isBlock neat flows).after Stance.ended_begun
    | false =>
        have inner : f.isInner = true := by
          rw [Form.isInner, isBlock, Bool.not_false, Bool.true_and, Bool.not_eq_true']
          exact statement
        have parts : f.parts = f.children := by
          cases f <;> first | rfl | cases isBlock
        refine f.moves inner neat.texts held neat.bare fun c member => (flows c member).part ?_
        exact neat.parts c (parts ▸ member)
  exact framed remarks body

/-- As a statement it leaves a line break due. -/
theorem Neat.moves_whole (part : v.isCommentBlock = false → Moves .ready (v.script .low) .begun) :
    Moves .ready v.asLine.whole .ended := by
  obtain ⟨comments, f⟩ := v
  obtain ⟨before, _, after⟩ :=
    Comments.forall_mem_toList.mp (List.forall_mem_append.mp neat.remarks).1
  cases f with
  | commentBlock p => exact done.seq (under_of_ne_nil (neat.block rfl) after)
  | verbatim p token =>
      have token' := (word (w := ⟨.ident, token.toList⟩)
        (neat.texts _ (List.mem_singleton_self _))).after Stance.shut_begun
      exact (((Moves.remarks before (.refl .ready) Stance.fresh_ready).seq token').seq
        softBreak).seq (under after)
  | _ => exact ((part rfl).seq softBreak).seq (under after)

/-- So it does behind `else` or `elif`. -/
theorem Neat.moves_branch (flows : ∀ c ∈ v.children, c.Flows)
    (whole : Moves .ready v.asLine.whole .ended) {gap : Bool} {close : Close}
    (remarks : ∀ c ∈ close.comments.toList, c.OneLine) :
    Moves .ended (scriptElse [v] gap close) .ended := by
  have alone := @elseBlock [v] gap close (List.cons_ne_nil v [])
    (List.forall_mem_singleton.mpr whole) remarks
  obtain ⟨comments, f⟩ := v
  cases f with
  | ifStmt p cond yes elsePos no =>
      obtain ⟨own, held⟩ := List.forall_mem_append.mp neat.remarks
      obtain ⟨before, suffix, _⟩ := Comments.forall_mem_toList.mp remarks
      simp only [children, form_mk, Form.children, List.forall_mem_cons, List.forall_mem_append]
        at flows
      have test := flows.1.part (neat.parts cond (List.mem_singleton_self cond)) .low
      have body := scriptList_ne_nil (neat.bodies yes (List.mem_singleton_self yes))
      have arm := Moves.branch (k := .elif) test (Comments.forall_mem_toList.mp own).2.1 body
        (Moves.lines flows.2.1)
      exact (((elseLine before).seq (queue suffix)).seq arm).seq (Moves.scriptElse flows.2.2 held)
  | _ => exact alone

end Node

/-- What is neat throughout keeps the triples. -/
theorem Node.flows {v : Node} (neat : v.Throughout Neat) : v.Flows := by
  induction v using inductionOnChildren with
  | step v ih =>
      obtain ⟨own, parts⟩ := throughout_iff.mp neat
      have flows := fun c member => ih c member (parts c member)
      have script := own.moves_script flows
      have whole := own.moves_whole fun statement => script statement .low
      exact ⟨script, whole, fun _ _ remarks => own.moves_branch flows whole remarks⟩

/-! ## Files -/

/-- Clean lines that are all ended, the last one not being empty. -/
structure CleanText (text : List Char) : Prop extends CleanLines text where
  ends : text = [] ∨ ∃ front c, text = front ++ [c, '\n'] ∧ c ≠ '\n'

namespace File

variable {f : File} (neat : ∀ v ∈ f.statements, v.Throughout Node.Neat)
  (remarks : ∀ c ∈ f.comments.toList, c.OneLine)
include neat remarks

open Moves

/-- A file is clean lines that are all ended, or nothing. -/
theorem moves_script : Moves .settled f.script .settled := by
  obtain ⟨before, _, after⟩ := Comments.forall_mem_toList.mp remarks
  have start := Moves.remarks before Stance.settled_ready Stance.fresh_settled
  by_cases none : f.statements = []
  · rw [script, none]
    exact ((start.seq done).seq
      (Moves.remarks after Stance.settled_ready Stance.fresh_settled)).seq breakIfDue_settled
  have flows := fun v member => Node.flows (neat v member)
  have body := (start.after Stance.settled_ready).seq
    (Moves.statements (scriptList_ne_nil none) (Moves.lines flows))
  rw [script]
  cases last : f.comments.after with
  | nil => exact (body.seq remarks_nil).seq (breakIfDue_ended.after Stance.fresh_settled)
  | cons c cs =>
      rw [last] at after
      have rest := (remarks_cons after).after Stance.fresh_settled
      exact (body.seq (rest.before fun s stands => Stance.begun_ready s stands.1)).seq
        breakIfDue_settled

/-- The text of a file whose statements are neat throughout is clean. -/
theorem clean_of_neat (spacing : Spacing) : CleanText (f.formatWith spacing).toList := by
  have moves := moves_script neat remarks
  have firm : ∀ w ∈ f.script.words, Firm w.text := fun w member => (moves.words w member).firm
  have firm' : ∀ c ∈ f.script.comments, c.Firm := fun c member => (moves.comments c member).firm
  have filled : Stance.settled.Holds (f.sheet spacing) :=
    moves.holds (.blank spacing) ⟨⟨.inl rfl, rfl, rfl⟩, nofun⟩
  obtain ⟨above, _, gap⟩ := filled.stands
  have margin : (f.sheet spacing).margin = 0 :=
    ((Shows.blank spacing).run firm firm').margin.symm.trans (Script.sameFrame_run _ _).margin
  have text : (f.formatWith spacing).toList = Scrap.textOf (f.sheet spacing).scraps := by
    rw [toList_formatWith firm firm', Sheet.text, gap.trans margin]
    simp
  rw [text]
  obtain nothing | lined := above
  · rw [nothing]
    exact ⟨.nil, .inl rfl⟩
  · obtain ⟨clean, ⟨_, two⟩ | ⟨front, c, same, _, seen⟩⟩ := lined.clean
    · cases two
    · exact ⟨clean, .inr ⟨front, c, same, seen⟩⟩

end File

end Starlark
