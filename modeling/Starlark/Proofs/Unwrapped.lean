import Starlark.Proofs.Edit
import Starlark.Proofs.LogicalLine
import Starlark.Proofs.Parens
import Starlark.Proofs.WellFormed

/-!
# Parentheses are restored

An edit may take the parentheses off a tree that was read (`Node.unwrapping`). The
printer puts back those that are needed: the text of the edited tree, if it is
an expression or an assignment by itself, is read as a tree that says what the
tree said before the edit (`File.ofChars_formatWith_unwrapping`).

Parentheses are decided on by comparing strengths, which does not see everything
that they keep apart. So the edited tree has to be legible (`Node.isLegible`) and
clear (`Node.IsClear`), and a tuple outside brackets must not break a line
outside the brackets of its items (`Form.isStraightLine`).
-/

set_option autoImplicit false

namespace Starlark

/-! ## Lines are read back -/

/-- Tokens with the words of a legible line make a statement that says what the line says. -/
theorem Node.IsClearLine.smallStmt {v : Node} (line : v.IsClearLine)
    (legible : v.everywhere isLegible = true) {ts : List Token}
    (words : ts.map Token.word = (v.script .low).words)
    (other : (ts.headD .ended).kind ≠ .keyword .load) :
    ∃ x, SmallStmt ts x ∧ x.skeleton = v.skeleton := by
  cases line with
  | value free =>
      obtain ⟨x, spells, same⟩ :=
        ((v.said .expression free.plays free.quiet legible).1 .low).one words
      exact ⟨x, .value spells other, same⟩
  | @assign x y p op breaks known left right =>
      have kinds : ∀ op ∈ assignments, (Script.operator op).words = [.sign op] ∧
          ((Word.sign op).kind = .symbol .eq ∨ (Word.sign op).kind = .augmented) := by decide
      obtain ⟨single, kind⟩ := kinds op known
      have below := (everywhere_iff.mp legible).2
      have first := (x.said .expression left.plays left.quiet (below x (List.mem_cons_self ..))).1
      have second := (y.said .expression right.plays right.quiet
        (below y (List.mem_cons_of_mem _ (List.mem_cons_self ..)))).1
      rw [words_script_bare, if_neg (by simp), Form.script, Script.words_operation, single,
        List.append_assoc, List.singleton_append] at words
      obtain ⟨as, rest, rfl, before, words⟩ := List.map_eq_append_iff.mp words
      obtain ⟨e, bs, rfl, sign, after⟩ := List.map_eq_cons_iff.mp words
      obtain ⟨x', one, same⟩ := (first .assign).one before
      obtain ⟨y', two, same'⟩ := (second .comma).one after
      have begins : (as.headD .ended).kind ≠ .keyword .load := by
        cases as with
        | nil => exact absurd rfl (one.ne_nil rfl)
        | cons a as => exact other
      refine ⟨_, .assign one (kind.imp (Token.kind_of_word sign).trans
        (Token.kind_of_word sign).trans) two begins, ?_⟩
      show Node.bare (.binary true x'.skeleton .nowhere e.text false y'.skeleton) = _
      rw [same, same', Token.text_of_word sign]
      rfl

/-- The text of a legible line by itself is a file of one statement, which says what the line
says. -/
theorem File.ofChars_formatWith_of_line {f : File} {v : Node} (only : f.statements = [v])
    (none : f.comments = .none) (line : v.IsClearLine)
    (legible : v.everywhere Node.isLegible = true) (spacing : Spacing) (path : String)
    (options : Options) :
    ∃ x, File.ofChars path options (f.formatWith spacing).toList =
        .ok ⟨path, options.dialect, [x], .none⟩ ∧ x.skeleton = v.skeleton := by
  obtain ⟨ts, newline, stop, scanned, words, other, isLine, isStop⟩ :=
    scan_formatWith_of_line only none line spacing
  obtain ⟨x, small, same⟩ := line.smallStmt legible words other
  refine ⟨x, ?_, same⟩
  rw [File.ofChars, scanned]
  exact File.ofStream_smallStmt small isLine isStop

/-! ## Taking parentheses off -/

namespace Node

/-- Whether a node is something in parentheses. -/
def isWrapped : Node → Bool
  | .mk _ (.paren ..) => true
  | _ => false

/-- The first node inside some parentheses that is not in parentheses itself. -/
def innermost : Node → Node
  | .mk _ (.paren _ x _ _) => x.innermost
  | v => v

/-- The visitor that takes parentheses off. -/
def unwrapping : Visitor Unit := fun v _ s =>
  (if v.isWrapped then some v.innermost else none, s)

end Node

mutual

/-- The node without parentheses, inside and around it. -/
def Node.unwrapped : Node → Node
  | .mk _ (.paren _ x _ _) => x.unwrapped
  | .mk c f => .mk c f.unwrapped

/-- The form without parentheses around its parts and inside them. -/
def Form.unwrapped : Form → Form
  | .dot x p q name => .dot x.unwrapped p q name
  | .index x p y q => .index x.unwrapped p y.unwrapped q
  | .slice x p lower q upper second step s =>
    .slice x.unwrapped p (unwrappedOption lower) q (unwrappedOption upper) second
      (unwrappedOption step) s
  | .unary p op x => .unary p op (unwrappedOption x)
  | .binary assigns x p op breaks y => .binary assigns x.unwrapped p op breaks y.unwrapped
  | .conditional yes p test q no => .conditional yes.unwrapped p test.unwrapped q no.unwrapped
  | .lambda p params q body => .lambda p (unwrappedList params) q body.unwrapped
  | .call callee p args close layout => .call callee.unwrapped p (unwrappedList args) close layout
  | .collection kind p items close layout => .collection kind p (unwrappedList items) close layout
  | .keyValue key p value => .keyValue key.unwrapped p value.unwrapped
  | .comprehension curly p body clauses close multiLine =>
    .comprehension curly p body.unwrapped (unwrappedList clauses) close multiLine
  | .forClause p vars q x => .forClause p vars.unwrapped q x.unwrapped
  | .ifClause p cond => .ifClause p cond.unwrapped
  | .paren p x close multiLine => .paren p x.unwrapped close multiLine
  | .defStmt p name q params r s body layout =>
    .defStmt p name q (unwrappedList params) r s (unwrappedList body) layout
  | .forStmt p vars x body => .forStmt p vars.unwrapped x.unwrapped (unwrappedList body)
  | .ifStmt p cond yesBody close noBody =>
    .ifStmt p cond.unwrapped (unwrappedList yesBody) close (unwrappedList noBody)
  | .returnStmt p result => .returnStmt p (unwrappedOption result)
  | .typed name p type => .typed name p type.unwrapped
  | f => f

/-- Some nodes without parentheses. -/
def unwrappedList : List Node → List Node
  | [] => []
  | x :: rest => x.unwrapped :: unwrappedList rest

/-- A node without parentheses that may be missing. -/
def unwrappedOption : Option Node → Option Node
  | none => none
  | some x => some x.unwrapped

end

theorem unwrappedList_eq_map (vs : List Node) : unwrappedList vs = vs.map Node.unwrapped := by
  induction vs with
  | nil => rfl
  | cons v vs ih => rw [unwrappedList, ih, List.map_cons]

namespace Form

theorem children_unwrapped (f : Form) : f.unwrapped.children = f.children.map Node.unwrapped := by
  cases f with
  | unary _ _ x | returnStmt _ x => cases x <;> rfl
  | slice _ _ lower _ upper _ step => cases lower <;> cases upper <;> cases step <;> rfl
  | _ => simp [unwrapped, children, unwrappedList_eq_map]

theorem cleared_unwrapped (f : Form) : f.unwrapped.cleared = f.cleared := by
  cases f with
  | unary _ _ x | returnStmt _ x => cases x <;> rfl
  | slice _ _ lower _ upper _ step => cases lower <;> cases upper <;> cases step <;> rfl
  | _ => simp [unwrapped, cleared, unwrappedList_eq_map, Function.comp_def]

theorem held_unwrapped (f : Form) : f.unwrapped.held = f.held := by cases f <;> rfl

end Form

namespace Node

theorem innermost_of_isWrapped {v : Node} (plain : v.isWrapped = false) : v.innermost = v := by
  obtain ⟨c, f⟩ := v
  cases f with
  | paren => cases plain
  | _ => rfl

/-- Around the innermost node there are parentheses only. -/
theorem unwrapped_eq (v : Node) :
    v.unwrapped = .mk v.innermost.comments v.innermost.form.unwrapped := by
  induction v using inductionOnChildren with
  | step v ih =>
      obtain ⟨c, f⟩ := v
      cases f with
      | paren p x close multiLine => exact ih x (List.mem_singleton_self x)
      | _ => rfl

theorem depth_innermost_le (v : Node) : v.innermost.depth ≤ v.depth := by
  induction v using inductionOnChildren with
  | step v ih =>
      obtain ⟨c, f⟩ := v
      cases f with
      | paren p x close multiLine =>
          have inner : x ∈ (Node.mk c (.paren p x close multiLine)).children :=
            List.mem_singleton_self x
          exact (ih x inner).trans (Nat.le_of_lt (depth_lt inner))
      | _ => exact Nat.le_refl _

/-- An edit that is given enough levels takes all parentheses off. -/
theorem editWithin_unwrapping {levels : Nat} {v : Node} (enough : v.depth ≤ levels)
    (above : List Node) : (editWithin unwrapping levels above v ()).1 = v.unwrapped := by
  induction levels generalizing v above with
  | zero =>
      rw [v.depth_eq] at enough
      omega
  | succ levels ih =>
      have answer : (unwrapping v above ()).1.getD v = v.innermost := by
        show (if v.isWrapped then some v.innermost else none).getD v = _
        cases wrapped : v.isWrapped with
        | true => rfl
        | false => exact (innermost_of_isWrapped wrapped).symm
      have within (c : Node) (member : c ∈ v.innermost.children) : c.depth ≤ levels := by
        have less := depth_lt member
        have shallow := v.depth_innermost_le
        omega
      -- the parts in front of an index have been unwrapped, the others are as they were
      have loop := editParts_induction (v := v.innermost) (s := ())
        (f := fun c around s => editWithin unwrapping levels (around :: above) c s)
        (P := fun i u _ => u.cleared = v.innermost.cleared ∧ ∀ j, u.children[j]? =
          if j < i then v.innermost.children[j]?.map unwrapped else v.innermost.children[j]?)
        ⟨rfl, fun j => rfl⟩ fun i u s c turned part => by
          obtain ⟨kept, same⟩ := turned
          have here : v.innermost.children[i]? = some c := by
            rw [← part, same i, if_neg (Nat.lt_irrefl i)]
          obtain ⟨bound, _⟩ := List.getElem?_eq_some_iff.mp part
          refine ⟨by rw [cleared_setChild, kept], fun j => ?_⟩
          rw [children_setChild, List.getElem?_set, ih (within c (List.mem_of_getElem? here))]
          by_cases at' : i = j
          · subst at'
            rw [if_pos rfl, if_pos bound, if_pos (Nat.lt_succ_self i), here]
            rfl
          · rw [if_neg at', same j]
            by_cases less : j < i
            · rw [if_pos less, if_pos (Nat.lt_succ_of_lt less)]
            · rw [if_neg less, if_neg (by omega)]
      rw [editWithin]
      dsimp only
      rw [answer, v.unwrapped_eq]
      obtain ⟨kept, same⟩ := loop
      refine eq_of_cleared (kept.trans ?_) (List.ext_getElem? fun j => ?_)
      · exact congrArg (Node.mk v.innermost.comments) (v.innermost.form.cleared_unwrapped).symm
      · have parts : (Node.mk v.innermost.comments v.innermost.form.unwrapped).children =
            v.innermost.children.map unwrapped := v.innermost.form.children_unwrapped
        rw [same j, parts, List.getElem?_map]
        split
        · rfl
        · next past => rw [List.getElem?_eq_none (Nat.le_of_not_lt past)]; rfl

end Node

/-- An edit that takes parentheses off takes off all of them. -/
theorem File.statements_unwrapping (f : File) :
    (f.edit Node.unwrapping ()).1.statements = f.statements.map Node.unwrapped := by
  have all (vs : List Node) : (editAll Node.unwrapping vs ()).1 = vs.map Node.unwrapped := by
    induction vs with
    | nil => rfl
    | cons v vs ih =>
        show (v.edit Node.unwrapping ()).1 :: (editAll Node.unwrapping vs ()).1 = _
        rw [ih, Node.edit, Node.editWithin_unwrapping (Nat.le_add_right _ _), List.map_cons]
  exact all f.statements

/-! ## What is kept -/

section Parts

variable {r : Role} {f : Form}

/-- What is known of the parts of a form. -/
def Form.PartsUnwrap (f : Form) : Prop :=
  ∀ c ∈ f.children, ∀ r : Role, c.Plays r → c.unwrapped.Plays r

theorem Form.PartsUnwrap.all {vs : List Node} (parts : f.PartsUnwrap)
    (member : ∀ c ∈ vs, c ∈ f.children) (plays : PlayAll r vs) : PlayAll r (unwrappedList vs) := by
  rw [unwrappedList_eq_map]
  refine playAll_iff.mpr (List.forall_mem_map.mpr fun c inside => ?_)
  exact parts c (member c inside) r (playAll_iff.mp plays c inside)

theorem Form.PartsUnwrap.maybe {part : Option Node} (parts : f.PartsUnwrap)
    (member : ∀ c ∈ part, c ∈ f.children) (plays : PlaysMaybe r part) :
    PlaysMaybe r (unwrappedOption part) := by
  cases part with
  | none => trivial
  | some c => exact parts c (member c rfl) r plays

theorem unwrappedList_ne_nil {vs : List Node} (some : vs ≠ []) : unwrappedList vs ≠ [] := by
  rw [unwrappedList_eq_map]
  exact mt List.map_eq_nil_iff.mp some

theorem startsWithLoop_unwrapped {vs : List Node} (loops : startsWithLoop vs = true) :
    startsWithLoop (unwrappedList vs) = true := by
  cases vs with
  | nil => cases loops
  | cons v vs =>
      obtain ⟨c, f⟩ := v
      cases f with
      | forClause => rfl
      | _ => cases loops

/-- A test stays one without its parentheses, by cases of its form. -/
theorem Form.IsTest.unwrapped (test : f.IsTest) (parts : f.PartsUnwrap) : f.unwrapped.IsTest := by
  have inner (x : Node) (member : x ∈ f.children) (plays : x.Plays .test) :
      x.unwrapped.Plays .test := parts x member .test plays
  cases f with
  | ident | literal | string => exact test
  | dot x => exact ⟨inner x (by simp [children]) test.1, test.2⟩
  | index x p y =>
      exact ⟨inner x (by simp [children]) test.1,
        parts y (by simp [children]) .expression test.2⟩
  | slice x =>
      obtain ⟨operand, start, stop, stride, colons⟩ := test
      exact ⟨inner x (by simp [children]) operand,
        parts.maybe (by simp +contextual [children]) start,
        parts.maybe (by simp +contextual [children]) stop,
        parts.maybe (by simp +contextual [children]) stride,
        fun none => by rw [colons none]; rfl⟩
  | unary p op x =>
      obtain ⟨sign, present, plays⟩ := test
      obtain ⟨x, rfl⟩ := Option.isSome_iff_exists.mp present
      exact ⟨sign, rfl, inner x (by simp [children]) plays⟩
  | binary assigns x p op breaks y =>
      obtain ⟨rfl, operator, left, right⟩ := test
      exact ⟨rfl, operator, inner x (by simp [children]) left, inner y (by simp [children]) right⟩
  | conditional x p y q z =>
      obtain ⟨yes, cond, no⟩ := test
      exact ⟨inner x (by simp [children]) yes, inner y (by simp [children]) cond,
        inner z (by simp [children]) no⟩
  | lambda p params q body =>
      exact ⟨parts.all (by simp +contextual [children]) test.1,
        inner body (by simp [children]) test.2⟩
  | call callee =>
      exact ⟨inner callee (by simp [children]) test.1,
        parts.all (by simp +contextual [children]) test.2⟩
  | collection kind =>
      obtain ⟨other, some, all⟩ := test
      exact ⟨other, fun set => unwrappedList_ne_nil (some set),
        parts.all (fun _ member => member) all⟩
  | comprehension curly p body =>
      obtain ⟨plays, loops, all⟩ := test
      exact ⟨parts body (by simp [children]) (.element curly) plays,
        startsWithLoop_unwrapped loops, parts.all (by simp +contextual [children]) all⟩
  | paren p x => exact inner x (by simp [children]) test
  | _ => cases test

end Parts

/-- Where a node plays a part, it does so without its parentheses. -/
theorem Node.plays_unwrapped (v : Node) : ∀ r : Role, v.Plays r → v.unwrapped.Plays r := by
  induction v using inductionOnChildren with
  | step v ih =>
      obtain ⟨c, f⟩ := v
      intro r plays
      have parts : f.PartsUnwrap := ih
      have inner (x : Node) (member : x ∈ f.children) (plays : x.Plays .test) :
          x.unwrapped.Plays .test := parts x member .test plays
      have test (test : f.IsTest) : (Node.mk c f).unwrapped.Plays .test := by
        cases f with
        | paren p x => exact inner x (List.mem_singleton_self x) test
        | _ => exact test.unwrapped parts
      cases r with
      | test => exact test plays
      | expression =>
          cases f with
          | collection kind =>
              cases kind with
              | bareTuple =>
                  exact ⟨unwrappedList_ne_nil plays.1,
                    parts.all (fun _ member => member) plays.2⟩
              | list | set | dict | tuple => exact (test plays).expression
          | _ => exact (test plays).expression
      | argument =>
          cases f with
          | unary p op x =>
              cases x with
              | none => exact (test plays).argument
              | some x => exact ⟨plays.1, inner x (by simp [Form.children]) plays.2⟩
          | binary assigns x p op breaks y =>
              cases assigns with
              | false => exact (test plays).argument
              | true =>
                  obtain ⟨eq, left, right⟩ := plays
                  exact ⟨eq, inner x (by simp [Form.children]) left,
                    inner y (by simp [Form.children]) right⟩
          | _ => exact (test plays).argument
      | entry =>
          cases f with
          | keyValue x p y =>
              exact ⟨inner x (by simp [Form.children]) plays.1,
                inner y (by simp [Form.children]) plays.2⟩
          | _ => cases plays
      | element curly =>
          cases f with
          | keyValue x p y =>
              exact ⟨plays.1, inner x (by simp [Form.children]) plays.2.1,
                inner y (by simp [Form.children]) plays.2.2⟩
          | _ => exact (test plays).element curly
      | clause =>
          cases f with
          | forClause p vars q x =>
              exact ⟨parts vars (by simp [Form.children]) .expression plays.1,
                inner x (by simp [Form.children]) plays.2⟩
          | ifClause p cond => exact inner cond (by simp [Form.children]) plays
          | _ => cases plays
      | param types =>
          cases f with
          | ident => exact plays
          | typed name p type =>
              obtain ⟨known, named, plays⟩ := plays
              exact ⟨known, named, inner type (by simp [Form.children]) plays⟩
          | unary p op x =>
              cases x with
              | none => exact plays
              | some x =>
                  obtain ⟨d, g⟩ := x
                  cases g with
                  | ident => exact plays
                  | _ => cases plays
          | binary assigns x p op breaks y =>
              cases assigns with
              | false => cases plays
              | true =>
                  obtain ⟨d, g⟩ := x
                  cases g with
                  | ident =>
                      obtain ⟨eq, named, right⟩ := plays
                      exact ⟨eq, named, inner y (by simp [Form.children]) right⟩
                  | typed name q type =>
                      obtain ⟨eq, known, named, type', right⟩ := plays
                      have left := parts (.mk d (.typed name q type)) (by simp [Form.children])
                        (.param types) ⟨known, named, type'⟩
                      exact ⟨eq, left.1, left.2.1, left.2.2,
                        inner y (by simp [Form.children]) right⟩
                  | _ => cases plays
          | _ => cases plays
      | line types =>
          cases f with
          | commentBlock | branch | load => exact plays
          | returnStmt => exact parts.maybe (by simp +contextual [Form.children]) plays
          | binary assigns x p op breaks y =>
              cases assigns with
              | false => exact (test plays).expression.line types
              | true =>
                  obtain ⟨known, left, right⟩ := plays
                  exact ⟨known, parts x (by simp [Form.children]) .expression left,
                    parts y (by simp [Form.children]) .expression right⟩
          | defStmt =>
              exact ⟨plays.1, parts.all (by simp +contextual [Form.children]) plays.2.1,
                parts.all (by simp +contextual [Form.children]) plays.2.2⟩
          | forStmt p vars x body =>
              exact ⟨parts vars (by simp [Form.children]) .expression plays.1,
                parts x (by simp [Form.children]) .expression plays.2.1,
                parts.all (by simp +contextual [Form.children]) plays.2.2⟩
          | ifStmt p cond =>
              exact ⟨parts cond (by simp [Form.children]) .expression plays.1,
                parts.all (by simp +contextual [Form.children]) plays.2.1,
                parts.all (by simp +contextual [Form.children]) plays.2.2⟩
          | collection kind =>
              cases kind with
              | bareTuple =>
                  exact ⟨unwrappedList_ne_nil plays.1, parts.all (fun _ member => member) plays.2⟩
              | list | set | dict | tuple => exact (test plays).expression.line types
          | _ => exact (test plays).expression.line types

/-- Parentheses around a part of a statement say what stands inside them. Comment blocks, which
say nothing in a body, do not stand in parentheses. -/
structure Node.SaysSame (v : Node) : Prop where
  skeleton : v.unwrapped.skeleton = v.skeleton
  isCommentBlock : v.unwrapped.isCommentBlock = v.isCommentBlock

/-- Nodes that say the same without parentheses do so together. -/
theorem skeletonList_unwrapped {vs : List Node} (same : ∀ v ∈ vs, v.SaysSame) :
    skeletonList (unwrappedList vs) = skeletonList vs ∧
      skeletonBody (unwrappedList vs) = skeletonBody vs := by
  induction vs with
  | nil => exact ⟨rfl, rfl⟩
  | cons v vs ih =>
      obtain ⟨here, later⟩ := List.forall_mem_cons.mp same
      obtain ⟨list, body⟩ := ih later
      simp only [unwrappedList, skeletonList, skeletonBody, here.skeleton, here.isCommentBlock,
        list, body, and_self]

theorem skeletonOption_unwrapped {part : Option Node} (same : ∀ v ∈ part.toList, v.SaysSame) :
    skeletonOption (unwrappedOption part) = skeletonOption part := by
  cases part with
  | none => rfl
  | some v => exact congrArg some (same v (List.mem_singleton_self v)).skeleton

theorem Form.skeleton_unwrapped {f : Form} (same : ∀ c ∈ f.children, c.SaysSame) :
    f.unwrapped.skeleton = f.skeleton := by
  cases f <;>
    simp only [children, List.forall_mem_cons, List.forall_mem_append] at same <;>
    simp +contextual [unwrapped, skeleton, same, Node.SaysSame.skeleton, skeletonList_unwrapped,
      skeletonOption_unwrapped]

theorem Node.Plays.test_of_paren {r : Role} {c : Comments} {p : Position} {x : Node} {close : Close}
    {multiLine : Bool} (plays : (Node.mk c (.paren p x close multiLine)).Plays r) :
    x.Plays .test := by
  cases r with
  | test | expression | argument | element | line => exact plays
  | entry | clause | param => cases plays

/-- Without its parentheses a node that plays a part says the same. -/
theorem Node.saysSame (v : Node) : ∀ r : Role, v.Plays r → v.SaysSame := by
  induction v using inductionOnChildren with
  | step v ih =>
      intro r plays
      have parts (x : Node) (member : x ∈ v.children) : x.SaysSame := by
        obtain ⟨s, plays, _⟩ := plays.children_isCast x member
        exact ih x member s plays
      obtain ⟨c, f⟩ := v
      cases f with
      | paren p x =>
          have inner := parts x (List.mem_singleton_self x)
          have test := plays.test_of_paren
          refine ⟨inner.skeleton, inner.isCommentBlock.trans ?_⟩
          obtain ⟨d, g⟩ := x
          cases g with
          | commentBlock => cases test
          | _ => rfl
      | _ => exact ⟨congrArg Node.bare (Form.skeleton_unwrapped parts), rfl⟩

/-- Without parentheses a tree without comments has none. -/
theorem Node.remarks_unwrapped (v : Node) (quiet : v.remarks = []) : v.unwrapped.remarks = [] := by
  induction v using inductionOnChildren with
  | step v ih =>
      obtain ⟨c, f⟩ := v
      rw [remarks_mk, Form.remarks, List.append_eq_nil_iff, List.append_eq_nil_iff] at quiet
      obtain ⟨own, held, inner⟩ := quiet
      have parts (x : Node) (member : x ∈ f.children) : x.unwrapped.remarks = [] :=
        ih x member (List.flatMap_eq_nil_iff.mp inner x member)
      have rest : (Node.mk c f.unwrapped).remarks = [] := by
        rw [remarks_mk, Form.remarks, f.held_unwrapped, f.children_unwrapped,
          List.append_eq_nil_iff, List.append_eq_nil_iff]
        exact ⟨own, held, List.flatMap_eq_nil_iff.mpr (List.forall_mem_map.mpr parts)⟩
      cases f with
      | paren p x => exact parts x (List.mem_singleton_self x)
      | _ => exact rest

/-! ## Statements -/

/-- The printer restores the parentheses that an edit takes off. Where the source is an expression
or an assignment without comments and the edited tree is clear, straight and legible, its text is
read as a statement that says what was read from the source. -/
theorem File.ofChars_formatWith_unwrapping {path : String} {options : Options} {source : List Char}
    {f : File} {v w : Node} (read : File.ofChars path options source = .ok f)
    (only : f.statements = [v]) (quiet : f.remarks = [])
    (edited : (f.edit Node.unwrapping ()).1.statements = [w])
    (straight : w.form.isStraightLine = true) (sharp : w.everywhere Node.isSharp = true)
    (named : w.everywhere Node.isNamed = true) (legible : w.everywhere Node.isLegible = true)
    (spacing : Spacing) :
    ∃ x, File.ofChars path options ((f.edit Node.unwrapping ()).1.formatWith spacing).toList =
        .ok ⟨path, options.dialect, [x], .none⟩ ∧ x.skeleton = v.skeleton := by
  obtain rfl : v.unwrapped = w := by
    rw [statements_unwrapping, only] at edited
    exact List.head_eq_of_cons_eq edited
  rw [File.remarks, only, remarksOf, List.flatMap_singleton, List.append_eq_nil_iff] at quiet
  obtain ⟨none, bare⟩ := quiet
  have plays : v.Plays (.line options.types) := by
    obtain ⟨stream, scanned, built⟩ := Outcome.bind_eq_ok.mp read
    have shaped := File.shaped_of_ofStream (TokenStream.lexical scanned) built
    rw [only] at shaped
    exact shaped.1
  have clear : v.unwrapped.IsClear := ⟨v.remarks_unwrapped bare, sharp, named⟩
  have line := clear.line (v.plays_unwrapped _ plays) straight
  obtain ⟨x, again, kept⟩ := File.ofChars_formatWith_of_line edited
    (Comments.eq_none none : (f.edit Node.unwrapping ()).1.comments = .none) line legible spacing
    path options
  exact ⟨x, again, kept.trans (v.saysSame _ plays).skeleton⟩

/-- The tree of `a + b`, on the second to the sixth column of the first line. -/
def Node.shortSum : Node :=
  .bare (.binary false (.bare (.ident ⟨1, 2, 1⟩ "a")) ⟨1, 4, 3⟩ "+" false
    (.bare (.ident ⟨1, 6, 5⟩ "b")))

/-- The file of a product with the given left side. -/
def File.ofProduct (x : Node) : File :=
  ⟨"a.bzl", .bzl, [.bare (.binary false x ⟨1, 9, 8⟩ "*" false (.bare (.ident ⟨1, 11, 10⟩ "c")))],
    .none⟩

/-- The file of `(a + b) * c`. -/
def File.wrappedProduct : File :=
  .ofProduct (.bare (.paren ⟨1, 1, 0⟩ .shortSum (.at ⟨1, 7, 6⟩) false))

/-- The parentheses of a sum in a product are restored. -/
theorem File.ofChars_formatWith_unwrapping_product :
    File.ofChars "a.bzl" ⟨.bzl, false⟩ "(a + b) * c\n".toList = .ok wrappedProduct ∧
      (wrappedProduct.edit Node.unwrapping ()).1.statements =
        (ofProduct .shortSum).statements ∧
      ∃ x, File.ofChars "a.bzl" ⟨.bzl, false⟩
          ((wrappedProduct.edit Node.unwrapping ()).1.formatWith .grouped).toList =
            .ok ⟨"a.bzl", .bzl, [x], .none⟩ ∧
        [x.skeleton] = wrappedProduct.statements.map Node.skeleton := by
  have read : File.ofChars "a.bzl" ⟨.bzl, false⟩ "(a + b) * c\n".toList = .ok wrappedProduct := by
    cbv
  have quiet : wrappedProduct.remarks = [] := by
    rw [File.remarks, wrappedProduct, ofProduct, remarksOf, List.flatMap_singleton,
      Node.remarks_eq_nil _ (by cbv)]
    rfl
  have edited : (wrappedProduct.edit Node.unwrapping ()).1.statements =
      (ofProduct .shortSum).statements := by
    rw [statements_unwrapping]
    rfl
  obtain ⟨x, again, same⟩ := ofChars_formatWith_unwrapping read rfl quiet edited rfl (by cbv)
    (by cbv) (by cbv) .grouped
  exact ⟨read, edited, x, again, congrArg (fun y => [y]) same⟩

end Starlark
