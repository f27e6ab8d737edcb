import Starlark.Proofs.Nesting
import Starlark.Proofs.Plain
import Starlark.Proofs.Portable
import Starlark.Proofs.Seam.Node

/-!
# Brackets around trees

A tree without comments leaves the brackets as they are where it plays a part
(`Node.evenAs`), and its lines end only inside brackets or behind a backslash.

The printer counts a tuple without brackets as an open bracket. So such a tuple
counts on a bracket around it, and a clause that binds one does so as well,
unless no line breaks outside the brackets of its items (`Node.isUnbroken`).
Every other part may stand everywhere.
-/

set_option autoImplicit false

namespace Starlark

/-! ## Names -/

/-- Whether the names that stand on a node itself are no `load`. -/
def Node.isNamed : Node → Bool
  | .mk _ (.ident _ name) | .mk _ (.dot _ _ _ name) => name != "load"
  | .mk _ (.typed name _ _) => name.text != "load"
  | _ => true

/-- Only `load` is read in more than one way. -/
theorem Word.Sound.stable {name : String} (sound : (Word.name name).Sound) (other : name ≠ "load") :
    (Word.name name).Stable := by
  intro rest
  obtain ⟨_, _, _, _, behind, kind⟩ := sound
  have kind : Lexeme.Margin.wordKind name.toList behind = .ident := kind
  show Lexeme.Margin.wordKind name.toList rest = .ident
  unfold Lexeme.Margin.wordKind at kind ⊢
  cases found : Keyword.ofLetters? name.toList with
  | none => rfl
  | some k =>
      rw [found] at kind
      cases k with
      | load =>
          have same := List.find?_some found
          have letters : Keyword.load.letters = name.toList := beq_iff_eq.mp same
          exact absurd (String.toList_inj.mp letters.symm) other
      | _ => cases kind

theorem Script.Even.name {name : String} (sound : (Word.name name).Sound)
    (other : (name != "load") = true) {flat : Bool} : (Script.word (.name name)).Even flat :=
  .word (sound.stable (bne_iff_ne.mp other)) fun _ => rfl

/-! ## Lines that break outside brackets -/

mutual
/-- Whether no operator of a tree breaks its line outside the brackets of the tree. -/
def Node.isUnbroken : Node → Bool
  | .mk _ f => f.isUnbroken

/-- Whether no operator of a form breaks its line outside the brackets of the form. -/
def Form.isUnbroken : Form → Bool
  | .dot x _ _ _ | .index x _ _ _ | .slice x _ _ _ _ _ _ _ | .call x _ _ _ _
  | .unary _ _ (some x) | .typed _ _ x => x.isUnbroken
  | .binary _ x _ _ breaks y => !breaks && (x.isUnbroken && y.isUnbroken)
  | .keyValue x _ y => x.isUnbroken && y.isUnbroken
  | .conditional yes _ test _ no => yes.isUnbroken && (test.isUnbroken && no.isUnbroken)
  | .lambda _ params _ body => unbrokenList params && body.isUnbroken
  | _ => true

/-- Whether no operator of some trees breaks its line outside the brackets of its tree. -/
def unbrokenList : List Node → Bool
  | [] => true
  | x :: rest => x.isUnbroken && unbrokenList rest
end

theorem unbrokenList_iff {xs : List Node} :
    unbrokenList xs = true ↔ ∀ x ∈ xs, x.isUnbroken = true := by
  induction xs with
  | nil => simp [unbrokenList]
  | cons x rest ih => simp [unbrokenList, ih]

/-! ## Parts -/

namespace Script

/-- A script that leaves the brackets as they are where a node plays a part. A tuple without
brackets, and so a clause that binds one, counts on a bracket around it. -/
def EvenAs (flat : Bool) : Role → Script → Prop
  | .expression | .clause => EvenInside
  | _ => Even flat

variable {flat : Bool} {x body : Script} {r : Role}

theorem Even.evenAs (even : x.Even flat) : x.EvenAs flat r := by
  cases r with
  | expression | clause => exact even.inside
  | _ => exact even

theorem EvenAs.inside (even : x.EvenAs flat r) : x.EvenInside := by
  cases r with
  | expression | clause => exact even
  | _ => exact Even.inside even

/-- A node leaves the brackets as they are if its form does, with parentheses or without. -/
theorem EvenInside.framed {parens isBlock : Bool} (even : body.EvenInside) :
    (Script.framed .none parens isBlock body).EvenInside := by
  have start : (Script.breakIfDue ++ Script.leading []).EvenInside := .ofSilent rfl
  have stop : (Script.onlyIf (!isBlock) (.queue [])).EvenInside := .onlyIf (.ofSilent rfl)
  refine (start.append ?_).append stop
  cases parens with
  | true =>
      have closed : (Script.mark .lparen ++ enclosed body ++ Script.mark .rparen).Even false :=
        .bracket rfl rfl rfl even
      exact closed.inside
  | false => exact even

theorem EvenAs.framed {parens isBlock : Bool} (even : body.EvenAs flat r) :
    (Script.framed .none parens isBlock body).EvenAs flat r := by
  cases r with
  | expression | clause => exact EvenInside.framed even
  | _ => exact Even.framed even

end Script

/-- Wherever it stands, a node that plays a part leaves the brackets as they are. Where it breaks
no line outside its brackets, it does so whatever brackets the printer counts. -/
def Node.EvenAs (r : Role) (v : Node) : Prop :=
  ∀ flat, (flat = true → v.isUnbroken = true) → ∀ outer : Strength, (v.script outer).EvenAs flat r

theorem Node.EvenAs.inside {r : Role} {v : Node} (even : v.EvenAs r) (outer : Strength) :
    (v.script outer).EvenInside :=
  (even false nofun outer).inside

section Forms

open Script (key mark)

variable {flat : Bool} {f : Form}

theorem PlaysMaybe.evenInside {part : Option Node} {r : Role} (plays : PlaysMaybe r part)
    (even : ∀ c ∈ part.toList, c.Plays r → c.EvenAs r) (outer : Strength) :
    (scriptOption part outer).EvenInside := by
  cases part with
  | none => exact .ofSilent rfl
  | some x => exact (even x (by simp) plays).inside outer

theorem Script.Even.sign {op : String} (known : op ∈ signs ++ stars) :
    (Script.word (.sign op)).Even flat := by
  refine .word (fun rest => ?_) fun d => ?_
  all_goals fin_cases known <;> rfl

/-- A test leaves the brackets as they are if its parts do, by cases of its form. -/
theorem Form.IsTest.even (test : f.IsTest) (named : Node.isNamed (.bare f) = true)
    (quiet : f.held = []) (whole : flat = true → f.isUnbroken = true)
    (parts : ∀ c ∈ f.children, ∀ r : Role, r.isLine = false → c.Plays r → c.EvenAs r) :
    (f.script []).Even flat := by
  cases f with
  | ident p name => exact .name test named
  | literal => exact .word (fun _ => rfl) fun _ => rfl
  | string lit =>
      have note : (Script.note lit.token).Even flat := .ofSilent rfl
      exact (Script.Even.onlyIf note).append (.word (fun _ => rfl) fun _ => rfl)
  | dot x p q name =>
      have inner := parts x (by simp [Form.children]) .test rfl test.1 flat whole
      exact ((inner .suffix).append (.mark rfl rfl)).append (.name test.2 named)
  | index x p y q =>
      have inner := parts x (by simp [Form.children]) .test rfl test.1 flat whole
      have place := parts y (by simp [Form.children]) .expression rfl test.2
      exact Script.Even.subscript (inner .suffix) (place.inside .low)
  | slice x p lower q upper second step s =>
      obtain ⟨inner, start, stop, stride, _⟩ := test
      have inner := parts x (by simp [Form.children]) .test rfl inner flat whole
      exact .slice (inner .suffix)
        (start.evenInside (fun c member => parts c (by simp_all [Form.children]) _ rfl) .low)
        (stop.evenInside (fun c member => parts c (by simp_all [Form.children]) _ rfl) .low)
        (stride.evenInside (fun c member => parts c (by simp_all [Form.children]) _ rfl) .low)
  | unary p op x =>
      obtain ⟨sign, isSome, inner⟩ := test
      obtain ⟨x, rfl⟩ := Option.isSome_iff_exists.mp isSome
      have inner := parts x (by simp [Form.children]) .test rfl inner flat whole
      exact ((Script.Even.sign (List.mem_append_left _ sign)).append (.onlyIf .blank)).append
        (inner .unary)
  | binary assigns x p op breaks y =>
      obtain ⟨rfl, known, left, right⟩ := test
      simp only [Form.isUnbroken, Bool.and_eq_true, Bool.not_eq_true', forall_and] at whole
      have left := parts x (by simp [Form.children]) .test rfl left flat whole.2.1
      have right := parts y (by simp [Form.children]) .test rfl right flat whole.2.2
      exact .operation (List.mem_append_right _ known) whole.1 (left _) (right _)
  | conditional yes p cond q no =>
      obtain ⟨one, two, three⟩ := test
      simp only [Form.isUnbroken, Bool.and_eq_true, forall_and] at whole
      have yes' := parts yes (by simp [Form.children]) .test rfl one flat whole.1
      have cond' := parts cond (by simp [Form.children]) .test rfl two flat whole.2.1
      have no' := parts no (by simp [Form.children]) .test rfl three flat whole.2.2
      have first := Script.Even.append (.append (yes' .or) (.between .if (by decide))) (cond' .or)
      exact (first.append (.between .else (by decide))).append (no' .ifElse)
  | lambda p params q body =>
      simp only [Form.isUnbroken, Bool.and_eq_true, forall_and, unbrokenList_iff] at whole
      have each (x : Node) (member : x ∈ params) : (x.script .low).Even flat :=
        parts x (by simp [Form.children, member]) (.param false) rfl
          (playAll_iff.mp test.1 x member) flat (whole.1 · x member) .low
      have inner := parts body (by simp [Form.children]) .test rfl test.2 flat whole.2
      have listed := Script.Even.lambdaParams (forall_scriptList each)
      have head := ((Script.Even.key .lambda (by decide)).append listed).append
        (Script.Even.colon.append .blank)
      exact head.append (inner .low)
  | call callee p args close layout =>
      have each (x : Node) (member : x ∈ args) : (x.script .low).EvenInside :=
        (parts x (by simp [Form.children, member]) .argument rfl
          (playAll_iff.mp test.2 x member)).inside .low
      have inner := parts callee (by simp [Form.children]) .test rfl test.1 flat whole
      have none : close.comments = .none := Comments.eq_none quiet
      rw [Form.script, none]
      exact Script.Even.append (inner .suffix) (.sequence (by decide) (forall_scriptList each))
  | collection kind p items close layout =>
      obtain ⟨bracketed, _, each⟩ := test
      have each (x : Node) (member : x ∈ items) : (x.script .low).EvenInside := by
        have plays := playAll_iff.mp each x member
        split at plays
        · exact (parts x member .entry rfl plays).inside .low
        · exact (parts x member .test rfl plays).inside .low
      have none : close.comments = .none := Comments.eq_none quiet
      rw [Form.script, none]
      refine .sequence ?_ (forall_scriptList each)
      cases kind with
      | bareTuple => exact absurd rfl bracketed
      | list | set | dict | tuple => decide
  | comprehension curly p body clauses close multiLine =>
      obtain ⟨element, _, each⟩ := test
      have each (x : Node) (member : x ∈ clauses) : (x.script .low).EvenInside :=
        (parts x (by simp [Form.children, member]) .clause rfl
          (playAll_iff.mp each x member)).inside .low
      have inner := parts body (by simp [Form.children]) (.element curly) rfl element
      have none : close.comments = .none := Comments.eq_none quiet
      rw [Form.script, none]
      exact .comprehension (inner.inside .low) (forall_scriptList each)
  | paren p x close multiLine =>
      have inner := parts x (by simp [Form.children]) .test rfl test
      have none : close.comments = .none := Comments.eq_none quiet
      rw [Form.script, none]
      exact .sequence (by decide) (List.forall_mem_singleton.mpr (inner.inside .low))
  | _ => cases test

/-- A form without comments leaves the brackets as they are where its node plays its part. -/
theorem Form.evenAs {comments : Comments} {r : Role} (noLine : r.isLine = false)
    (plays : (Node.mk comments f).Plays r) (named : Node.isNamed (.bare f) = true)
    (quiet : f.held = []) (whole : flat = true → f.isUnbroken = true)
    (parts : ∀ c ∈ f.children, ∀ r : Role, r.isLine = false → c.Plays r → c.EvenAs r) :
    (f.script []).EvenAs flat r := by
  have test (test : f.IsTest) : (f.script []).EvenAs flat r :=
    (test.even named quiet whole parts).evenAs
  have starred {x : Node} {p : Position} {op : String} (known : op ∈ signs ++ stars)
      (inner : (x.script .unary).Even flat) : (Form.script (.unary p op (some x)) []).Even flat :=
    ((Script.Even.sign known).append (.onlyIf .blank)).append inner
  have entry {x y : Node} {p : Position} (left : (x.script .low).Even flat)
      (right : (y.script .low).Even flat) : (Form.script (.keyValue x p y) []).Even flat :=
    Script.Even.append (.append left (Script.Even.colon.append .blank)) right
  have assign {x y : Node} {p : Position} {breaks : Bool} (line : flat = true → breaks = false)
      (left : (x.script .assign).Even flat) (right : (y.script .comma).Even flat) :
      (Form.script (.binary true x p "=" breaks y) []).Even flat :=
    .operation (by decide) line left right
  cases r with
  | line => cases noLine
  | test => exact test plays
  | expression =>
      cases f with
      | collection kind p items close layout =>
          cases kind with
          | bareTuple =>
              have each (x : Node) (member : x ∈ items) : (x.script .low).EvenInside :=
                (parts x member .test rfl (playAll_iff.mp plays.2 x member)).inside .low
              have none : close.comments = .none := Comments.eq_none quiet
              rw [Form.script, none]
              intro d open'
              have inner : (Script.inside .none _ [] layout).EvenInside :=
                .inside (forall_scriptList each)
              exact ((Nests.ofSilent rfl).seq (inner d open').enclosed).seq (.ofSilent rfl)
          | list | set | dict | tuple => exact test plays
      | _ => exact test plays
  | argument =>
      cases f with
      | unary p op x =>
          cases x with
          | none => exact test plays
          | some x =>
              exact starred plays.1
                (parts x (by simp [Form.children]) .test rfl plays.2 flat whole .unary)
      | binary assigns x p op breaks y =>
          cases assigns with
          | false => exact test plays
          | true =>
              obtain ⟨rfl, left, right⟩ := plays
              simp only [Form.isUnbroken, Bool.and_eq_true, Bool.not_eq_true', forall_and] at whole
              exact assign whole.1
                (parts x (by simp [Form.children]) .test rfl left flat whole.2.1 .assign)
                (parts y (by simp [Form.children]) .test rfl right flat whole.2.2 .comma)
      | _ => exact test plays
  | entry =>
      cases f with
      | keyValue key p value =>
          simp only [Form.isUnbroken, Bool.and_eq_true, forall_and] at whole
          exact entry (parts key (by simp [Form.children]) .test rfl plays.1 flat whole.1 .low)
            (parts value (by simp [Form.children]) .test rfl plays.2 flat whole.2 .low)
      | _ => cases plays
  | element curly =>
      cases f with
      | keyValue key p value =>
          simp only [Form.isUnbroken, Bool.and_eq_true, forall_and] at whole
          exact entry (parts key (by simp [Form.children]) .test rfl plays.2.1 flat whole.1 .low)
            (parts value (by simp [Form.children]) .test rfl plays.2.2 flat whole.2 .low)
      | _ => exact test plays
  | clause =>
      cases f with
      | forClause p vars q x =>
          have bound := parts vars (by simp [Form.children]) .expression rfl plays.1
          have range := parts x (by simp [Form.children]) .test rfl plays.2
          have word : (key .for ++ Script.blank).Even false :=
            .append (.key .for (by decide)) .blank
          have mid : (Script.blank ++ key .in ++ Script.blank).Even false :=
            .between .in (by decide)
          have head := word.inside.append (bound.inside .low)
          exact (head.append mid.inside).append (range.inside .or)
      | ifClause p cond =>
          have inner := parts cond (by simp [Form.children]) .test rfl plays
          have word : (key .if ++ Script.blank).Even false := .append (.key .if (by decide)) .blank
          exact word.inside.append (inner.inside .or)
      | _ => cases plays
  | param types =>
      cases f with
      | ident => exact test plays
      | typed name p type =>
          obtain ⟨_, sound, plays⟩ := plays
          have inner := parts type (by simp [Form.children]) .test rfl plays flat whole
          exact ((Script.Even.name sound named).append (Script.Even.colon.append .blank)).append
            (inner .low)
      | unary p op x =>
          cases x with
          | none =>
              obtain rfl : op = "*" := plays
              exact ((Script.Even.sign (by decide)).append (.onlyIf .blank)).append (.ofSilent rfl)
          | some x =>
              obtain ⟨c, g⟩ := x
              cases g with
              | ident q name =>
                  exact starred (List.mem_append_right signs plays.1)
                    (parts (.mk c (.ident q name)) (by simp [Form.children]) .test rfl plays.2 flat
                      whole .unary)
              | _ => cases plays
      | binary assigns x p op breaks y =>
          simp only [Form.isUnbroken, Bool.and_eq_true, Bool.not_eq_true', forall_and] at whole
          cases assigns with
          | false => cases plays
          | true =>
              obtain ⟨c, g⟩ := x
              cases g with
              | ident q name =>
                  obtain ⟨rfl, sound, right⟩ := plays
                  exact assign whole.1
                    (parts (.mk c (.ident q name)) (by simp [Form.children]) .test rfl sound flat
                      whole.2.1 .assign)
                    (parts y (by simp [Form.children]) .test rfl right flat whole.2.2 .comma)
              | typed name q type =>
                  obtain ⟨rfl, types, sound, type', right⟩ := plays
                  exact assign whole.1
                    (parts (.mk c (.typed name q type)) (by simp [Form.children]) (.param true) rfl
                      ⟨rfl, sound, type'⟩ flat whole.2.1 .assign)
                    (parts y (by simp [Form.children]) .test rfl right flat whole.2.2 .comma)
              | _ => cases plays
      | _ => cases plays

end Forms

/-- A tree without comments leaves the brackets as they are where it plays a part. -/
theorem Node.evenAs (v : Node) : ∀ r : Role, r.isLine = false → v.Plays r → v.remarks = [] →
    v.everywhere isNamed = true → v.EvenAs r := by
  induction v using Node.inductionOnChildren with
  | step v ih =>
      obtain ⟨comments, f⟩ := v
      intro r noLine plays quiet named flat whole outer
      obtain ⟨here, below⟩ := everywhere_iff.mp named
      simp only [Node.remarks_mk, Form.remarks, List.append_eq_nil_iff] at quiet
      obtain ⟨own, held, inner⟩ := quiet
      have parts : ∀ c ∈ f.children, ∀ r : Role, r.isLine = false → c.Plays r → c.EvenAs r :=
        fun c member r noLine plays =>
          ih c member r noLine plays (List.flatMap_eq_nil_iff.mp inner c member) (below c member)
      obtain rfl : comments = .none := Comments.eq_none own
      rw [Node.script]
      exact (Form.evenAs noLine plays here held whole parts).framed

/-- So a test without comments may stand everywhere. -/
theorem Node.even_of_isTest (v : Node) (test : v.Plays .test) (quiet : v.remarks = [])
    (named : v.everywhere isNamed = true) (outer : Strength) : (v.script outer).Even false :=
  v.evenAs .test rfl test quiet named false nofun outer

/-! ## Portable trees -/

/-- Whether a node has no comments of its own. -/
def Node.isQuiet (v : Node) : Bool := v.comments.toList.isEmpty && v.form.held.isEmpty

/-- A tree that is quiet everywhere has no comments. -/
theorem Node.remarks_eq_nil (v : Node) (quiet : v.everywhere isQuiet = true) : v.remarks = [] := by
  induction v using Node.inductionOnChildren with
  | step v ih =>
      obtain ⟨comments, f⟩ := v
      obtain ⟨here, below⟩ := everywhere_iff.mp quiet
      simp only [isQuiet, Bool.and_eq_true, List.isEmpty_iff] at here
      rw [Node.remarks_mk, Form.remarks, List.append_eq_nil_iff, List.append_eq_nil_iff]
      refine ⟨here.1, here.2, List.flatMap_eq_nil_iff.mpr fun c member => ?_⟩
      exact ih c member (below c member)

namespace Portable

variable {r : Role} {v : Node}

/-- The parts of a portable tree are portable. -/
theorem children (portable : Portable r v) : ∀ c ∈ v.children, ∃ s, Portable s c := by
  have one {s : Role} {x : Node} (part : Portable s x) : ∀ c ∈ [x], ∃ s, Portable s c :=
    List.forall_mem_singleton.mpr ⟨s, part⟩
  have two {s s' : Role} {x y : Node} (left : Portable s x) (right : Portable s' y) :
      ∀ c ∈ [x, y], ∃ s, Portable s c := List.forall_mem_cons.mpr ⟨⟨s, left⟩, one right⟩
  have all {s : Role} {xs : List Node} (parts : ∀ x ∈ xs, Portable s x) :
      ∀ c ∈ xs, ∃ s, Portable s c := fun c member => ⟨s, parts c member⟩
  have maybe {s : Role} {part : Option Node} (there : ∀ x ∈ part, Portable s x) :
      ∀ c ∈ part.toList, ∃ s, Portable s c :=
    fun c member => ⟨s, there c (Option.mem_toList.mp member)⟩
  induction portable with
  | ident | literal | string | plainParam => exact List.forall_mem_nil _
  | dot inner | unary _ inner | starred _ inner | paren inner | ifClause inner => exact one inner
  | index left right | binary _ left right | entry left right => exact two left right
  | keyword known value | forClause known value | defaultParam known value =>
      exact two (.ident known) value
  | slice inner start stop stride =>
      refine List.forall_mem_cons.mpr ⟨⟨_, inner⟩, ?_⟩
      simp only [List.forall_mem_append]
      exact ⟨⟨maybe start, maybe stop⟩, maybe stride⟩
  | conditional yes cond no => exact List.forall_mem_cons.mpr ⟨⟨_, yes⟩, two cond no⟩
  | lambda parts inner => exact List.forall_mem_append.mpr ⟨all parts, one inner⟩
  | call inner parts | comprehension inner _ parts =>
      exact List.forall_mem_cons.mpr ⟨⟨_, inner⟩, all parts⟩
  | collection _ _ parts => exact all parts
  | positional _ ih | plainElement _ ih | entryElement _ ih => exact ih

/-- What holds of every portable node holds everywhere in a portable tree. -/
theorem everywhere {p : Node → Bool} (here : ∀ {r v}, Portable r v → p v = true)
    (portable : Portable r v) : v.everywhere p = true := by
  induction v using Node.inductionOnChildren generalizing r with
  | step v ih =>
      refine Node.everywhere_iff.mpr ⟨here portable, fun c member => ?_⟩
      obtain ⟨s, part⟩ := portable.children c member
      exact ih c member part

/-- In a portable tree no number has an attribute. -/
theorem sharp (portable : Portable r v) : v.everywhere Node.isSharp = true := by
  refine portable.everywhere fun portable => ?_
  induction portable with
  | @dot x _ _ _ _ other =>
      obtain ⟨c, f⟩ := x
      cases f <;> first | rfl | cases other
  | positional _ ih | plainElement _ ih | entryElement _ ih => exact ih
  | _ => rfl

/-- The names of a portable tree are no keywords. -/
theorem named (portable : Portable r v) : v.everywhere Node.isNamed = true := by
  refine portable.everywhere fun portable => ?_
  have other {name : String} (known : isIdentifier name = true) : (name != "load") = true := by
    rw [bne_iff_ne]
    rintro rfl
    exact absurd known (by decide)
  induction portable with
  | ident known | dot _ _ known | plainParam known => exact other known
  | positional _ ih | plainElement _ ih | entryElement _ ih => exact ih
  | _ => rfl

theorem quiet (portable : Portable r v) : v.remarks = [] := by
  refine v.remarks_eq_nil (portable.everywhere fun portable => ?_)
  induction portable with
  | positional _ ih | plainElement _ ih | entryElement _ ih => exact ih
  | _ => rfl

end Portable

end Starlark
