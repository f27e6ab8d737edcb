import Mathlib.Data.List.Basic
import Starlark.Proofs.Children
import Starlark.Rule

/-!
# Rules are outermost calls

The rules of a file are collected by going down from each statement to the
first call on every way. A walk says which calls these are: those that it meets
below no other call (`Visit.IsRule`). The rules are the calls so met, in the
order of the walk, as far as they are of the kind that is asked for
(`File.rules_are_outermost_calls`). The kind of a call is read off the name that
it calls, from its dots (`Node.Dotted`).

Rules are changed on a second way, which builds the tree anew around them. What
it does is told by going through the list of the outermost calls: the changes
are made in this order, and each outcome is found in the place of its call
(`Node.outerCalls_mapOuterCalls`). Calls that do not change leave the tree as it
was (`Node.mapOuterCalls_eq_self`).
-/

set_option autoImplicit false

namespace Starlark

/-! ## Kinds -/

/-- A dotted name, and how it reads. -/
inductive Node.Dotted : Node → String → Prop
  | ident (comments : Comments) (pos : Position) (name : String) :
      Dotted (.mk comments (.ident pos name)) name
  | dot {x : Node} {front : String} (before : Dotted x front) (comments : Comments)
      (dotPos namePos : Position) (name : String) :
      Dotted (.mk comments (.dot x dotPos namePos name)) (front ++ "." ++ name)

namespace Node.Dotted

/-- A dotted name reads in one way. -/
theorem unique {v : Node} {k k' : String} (one : v.Dotted k) (two : v.Dotted k') : k = k' := by
  induction one generalizing k' with
  | ident =>
      cases two
      rfl
  | dot _ _ _ _ _ ih =>
      cases two with
      | dot before => rw [ih before]

theorem exists_names {v : Node} {k : String} (dotted : v.Dotted k) :
    ∃ names, Call.dottedNames? v = some names := by
  induction dotted with
  | ident _ _ name => exact ⟨[name], rfl⟩
  | dot _ _ _ _ name ih =>
      obtain ⟨names, same⟩ := ih
      exact ⟨name :: names, by rw [Call.dottedNames?, same, Option.map_some]⟩

end Node.Dotted

namespace Call

/-- The names of a dotted name, put in order with dots between them, are how it reads. -/
theorem dotted_of_dottedNames? {v : Node} {names : List String}
    (found : dottedNames? v = some names) :
    names ≠ [] ∧ v.Dotted (String.intercalate "." names.reverse) := by
  fun_induction dottedNames? v generalizing names with
  | case1 comments pos name =>
      cases found
      exact ⟨List.cons_ne_nil _ _, by simpa using .ident comments pos name⟩
  | case2 comments x dotPos namePos name ih =>
      obtain ⟨front, before, rfl⟩ := Option.map_eq_some_iff.mp found
      obtain ⟨some', reads⟩ := ih before
      refine ⟨List.cons_ne_nil _ _, ?_⟩
      rw [List.reverse_cons, String.intercalate_append_of_ne_nil (by simpa using some') (by simp),
        String.intercalate_singleton]
      exact reads.dot comments dotPos namePos name
  | case3 => cases found

/-- The kind of a call is how the name that it calls reads. -/
theorem kind?_eq_some_iff {c : Call} {k : String} : c.kind? = some k ↔ c.callee.Dotted k := by
  constructor
  · intro kind
    obtain ⟨names, found, rfl⟩ := Option.map_eq_some_iff.mp kind
    exact (dotted_of_dottedNames? found).2
  · intro reads
    obtain ⟨names, found⟩ := reads.exists_names
    rw [kind?, found]
    exact congrArg some ((dotted_of_dottedNames? found).2.unique reads)

theorem isOfKind_iff {kind : Option String} {c : Call} :
    c.isOfKind kind = true ↔ ∀ k, kind = some k → c.callee.Dotted k := by
  cases kind with
  | none => simp [isOfKind]
  | some k => simp [isOfKind, kind?_eq_some_iff]

end Call

/-! ## Outermost calls -/

namespace Node

/-- A node is a call if it is the node of one. -/
theorem call?_eq_some_iff {v : Node} {c : Call} : v.call? = some c ↔ v = c.toNode := by
  constructor
  · intro same
    obtain ⟨comments, f⟩ := v
    cases f with
    | call =>
        cases same
        rfl
    | _ => cases same
  · rintro rfl
    rfl

theorem isNone_call?_cleared (v : Node) : v.cleared.call?.isNone = v.call?.isNone := by
  obtain ⟨comments, f⟩ := v
  cases f <;> rfl

/-- New parts do not make a call of another node. -/
theorem call?_withChildren {v : Node} (other : v.call? = none) (cs : List Node) :
    (v.withChildren cs).call? = none := by
  rw [← Option.isNone_iff_eq_none, ← isNone_call?_cleared, cleared_withChildren,
    isNone_call?_cleared, other]
  rfl

theorem outerCalls_toNode (c : Call) : c.toNode.outerCalls = [c] := by
  rw [outerCalls_eq]
  rfl

theorem outerCalls_of_none {v : Node} (other : v.call? = none) :
    v.outerCalls = v.children.flatMap outerCalls := by
  rw [outerCalls_eq, other]

end Node

/-! ## Rules on a walk -/

/-- A visit of a rule: of a call that stands in no other call, and that calls the name asked for, if
there is one. -/
structure Visit.IsRule (kind : Option String) (x : Visit) : Prop where
  outermost : ∀ v ∈ x.above, v.call? = none
  isCall : ∃ c, x.node.call? = some c ∧ ∀ k, kind = some k → c.callee.Dotted k

/-- Whether a visit is one of a rule. -/
def Visit.isRule (kind : Option String) (x : Visit) : Bool :=
  x.above.all (·.call?.isNone) && x.node.call?.any (Call.isOfKind kind)

/-- The test finds the visits of rules. -/
theorem Visit.isRule_iff {kind : Option String} {x : Visit} :
    x.isRule kind = true ↔ x.IsRule kind := by
  simp only [isRule, Bool.and_eq_true, List.all_eq_true, Option.isNone_iff_eq_none,
    Option.any_eq_true, Call.isOfKind_iff]
  constructor
  · rintro ⟨outermost, isCall⟩
    exact ⟨outermost, isCall⟩
  · intro rule
    exact ⟨rule.outermost, rule.isCall⟩

instance (kind : Option String) : DecidablePred (Visit.IsRule kind) :=
  fun _ => decidable_of_iff _ Visit.isRule_iff

namespace Node

variable {kind : Option String} {above : List Node}

/-- Whatever a walk meets has the ancestors that the walk began with. -/
theorem mem_above_of_mem_walkBelow {u v : Node} {x : Visit} (around : u ∈ above)
    (met : x ∈ walkBelow above v) : u ∈ x.above := by
  induction v using inductionOnChildren generalizing above with
  | step v ih =>
      rw [walkBelow_eq, List.mem_cons, List.mem_flatMap] at met
      obtain rfl | ⟨c, part, met⟩ := met
      · exact around
      · exact ih c part (List.mem_cons_of_mem v around) met

/-- Nothing that stands in a call is a rule. -/
theorem filter_walkBelow_of_call {u : Node} {c : Call} (call : u.call? = some c)
    (around : u ∈ above) (v : Node) : (walkBelow above v).filter (·.IsRule kind) = [] := by
  rw [List.filter_eq_nil_iff]
  intro x met rule
  have other := (of_decide_eq_true rule).outermost u (mem_above_of_mem_walkBelow around met)
  rw [call] at other
  cases other

/-- Below no call, the rules on a walk are the outermost calls of the tree. -/
theorem filter_walkBelow (outermost : ∀ u ∈ above, u.call? = none) (v : Node) :
    ((walkBelow above v).filter (·.IsRule kind)).map (·.node) =
      (v.outerCalls.filter (Call.isOfKind kind)).map Call.toNode := by
  induction v using inductionOnChildren generalizing above with
  | step v ih =>
      rw [walkBelow_eq, List.filter_cons, List.filter_flatMap]
      cases call : v.call? with
      | some c =>
          have inside : (v.children.flatMap fun u =>
              (walkBelow (v :: above) u).filter (·.IsRule kind)) = [] := by
            rw [List.flatMap_eq_nil_iff]
            intro u _
            exact filter_walkBelow_of_call call List.mem_cons_self u
          obtain rfl := call?_eq_some_iff.mp call
          have rule : (⟨c.toNode, above⟩ : Visit).IsRule kind ↔ c.isOfKind kind = true := by
            rw [Call.isOfKind_iff]
            constructor
            · rintro ⟨_, c', isCall, ofKind⟩
              cases isCall
              exact ofKind
            · intro ofKind
              exact ⟨outermost, c, rfl, ofKind⟩
          rw [inside, outerCalls_toNode]
          by_cases ofKind : c.isOfKind kind = true
          · simp [rule, ofKind]
          · simp [rule, ofKind]
      | none =>
          have noRule : ¬ (⟨v, above⟩ : Visit).IsRule kind := by
            rintro ⟨_, c, isCall, _⟩
            rw [call] at isCall
            cases isCall
          have below : ∀ u ∈ v :: above, u.call? = none :=
            List.forall_mem_cons.mpr ⟨call, outermost⟩
          rw [if_neg (by simpa using noRule), outerCalls_of_none call, List.map_flatMap,
            List.filter_flatMap, List.map_flatMap]
          exact List.flatMap_congr fun u part => ih u part below

end Node

theorem File.filter_walk (kind : Option String) (f : File) :
    (f.walk.filter (·.IsRule kind)).map (·.node) =
      (f.outerCalls.filter (Call.isOfKind kind)).map Call.toNode := by
  rw [walk, outerCalls, List.filter_flatMap, List.map_flatMap, List.filter_flatMap,
    List.map_flatMap]
  exact List.flatMap_congr fun v _ => v.filter_walkBelow (by simp)

theorem File.call_rules (kind : Option String) (f : File) :
    (f.rules kind).map (·.call) = f.outerCalls.filter (Call.isOfKind kind) := by
  rw [rules, List.map_map]
  exact List.map_id _

/-! ## Changing rules -/

namespace Node

variable {σ : Type} {g : Call → StateM σ Call}

theorem mapOuterCalls_toNode (c : Call) : c.toNode.mapOuterCalls g = Call.toNode <$> g c := by
  rw [mapOuterCalls]
  rfl

theorem mapOuterCalls_of_none {v : Node} (other : v.call? = none) :
    v.mapOuterCalls g = v.withChildren <$> v.children.mapM (mapOuterCalls g) := by
  rw [mapOuterCalls, other]
  simp

/-- When the outermost calls of each tree are changed in turn, those of all of them are. -/
theorem flatMap_outerCalls_mapM {vs : List Node}
    (each : ∀ v ∈ vs, outerCalls <$> v.mapOuterCalls g = v.outerCalls.mapM g) :
    List.flatMap outerCalls <$> vs.mapM (mapOuterCalls g) = (vs.flatMap outerCalls).mapM g := by
  induction vs with
  | nil => simp
  | cons v vs ih =>
      obtain ⟨first, others⟩ := List.forall_mem_cons.mp each
      rw [List.flatMap_cons, List.mapM_append, ← first, ← ih others, List.mapM_cons]
      simp

/-- The outermost calls of a tree are changed one after another, and each in its place. -/
theorem outerCalls_mapOuterCalls (v : Node) :
    outerCalls <$> v.mapOuterCalls g = v.outerCalls.mapM g := by
  induction v using inductionOnChildren with
  | step v ih =>
      cases call : v.call? with
      | some c =>
          obtain rfl := call?_eq_some_iff.mp call
          rw [mapOuterCalls_toNode, outerCalls_toNode, List.mapM_cons]
          simp [outerCalls_toNode]
      | none =>
          rw [outerCalls_of_none call, ← flatMap_outerCalls_mapM ih, mapOuterCalls_of_none call]
          funext s
          -- as many parts come out as went in, so they are the parts of the outcome
          have arity := length_mapM (mapOuterCalls g) v.children s
          have parts := outerCalls_of_none
            (call?_withChildren call (v.children.mapM (mapOuterCalls g) s).1)
          rw [children_withChildren arity.symm] at parts
          exact congrArg (·, (v.children.mapM (mapOuterCalls g) s).2) parts

/-- Calls that are put back as they were leave the tree as it was. -/
theorem mapOuterCalls_eq_self (keeps : ∀ c s, (g c s).1 = c) (v : Node) (s : σ) :
    (v.mapOuterCalls g s).1 = v := by
  induction v using inductionOnChildren generalizing s with
  | step v ih =>
      cases call : v.call? with
      | some c =>
          obtain rfl := call?_eq_some_iff.mp call
          rw [mapOuterCalls_toNode]
          exact congrArg Call.toNode (keeps c s)
      | none =>
          rw [mapOuterCalls_of_none call]
          show v.withChildren (v.children.mapM (mapOuterCalls g) s).1 = v
          rw [mapM_eq_self ih, withChildren_children]

end Node

/-- Changes a call if it is of a kind. -/
def Call.changeIf {σ : Type} (kind : Option String) (g : Call → StateM σ Call) (c : Call) :
    StateM σ Call :=
  if c.isOfKind kind then g c else pure c

namespace File

section Changing

variable {σ : Type} (kind : Option String) (g : Call → StateM σ Call)

/-- The outermost calls of a file are met in turn, and those of the kind are changed. -/
theorem outerCalls_mapRules (f : File) :
    outerCalls <$> f.mapRules kind g = f.outerCalls.mapM (Call.changeIf kind g) := by
  rw [outerCalls, ← Node.flatMap_outerCalls_mapM fun v _ => v.outerCalls_mapOuterCalls]
  show outerCalls <$> (do
    let statements ← f.statements.mapM (Node.mapOuterCalls (Call.changeIf kind g))
    return { f with statements := statements }) = _
  simp [outerCalls]

/-- Calls of another kind do not count. -/
theorem mapM_changeIf (cs : List Call) (s : σ) :
    (cs.mapM (Call.changeIf kind g) s).2 = ((cs.filter (Call.isOfKind kind)).mapM g s).2 := by
  induction cs generalizing s with
  | nil => rfl
  | cons c cs ih =>
      rw [mapM_cons_apply, Call.changeIf]
      by_cases ofKind : c.isOfKind kind = true
      · rw [if_pos ofKind, List.filter_cons_of_pos ofKind, mapM_cons_apply]
        exact ih _
      · rw [if_neg ofKind, List.filter_cons_of_neg ofKind]
        exact ih s

/-- Changing no rule changes no file. -/
theorem mapRules_eq_self {g : Call → StateM σ Call} (keeps : ∀ c s, (g c s).1 = c) (f : File)
    (s : σ) : (f.mapRules kind g s).1 = f := by
  have kept (c : Call) (s : σ) : (Call.changeIf kind g c s).1 = c := by
    rw [Call.changeIf]
    split
    · exact keeps c s
    · rfl
  have same : (f.statements.mapM (Node.mapOuterCalls (Call.changeIf kind g)) s).1 = f.statements :=
    mapM_eq_self (fun v _ => Node.mapOuterCalls_eq_self kept v) s
  exact congrArg (fun statements => { f with statements := statements }) same

end Changing

/-- To change one rule is to go through all rules and change the one that the count comes to. -/
theorem onRule_eq {α : Type} (kind : Option String) (i : Nat) (change : Call → Call × α)
    (f : File) :
    f.onRule kind i change =
      (f.mapRules kind (changeAt change i) (0, none)).2.2.map
        (·, (f.mapRules kind (changeAt change i) (0, none)).1) := by
  unfold onRule
  extract_lets step
  have same : step = changeAt change i := by
    funext c ⟨n, result⟩
    rw [changeAt]
    split
    next here => exact congrFun (if_pos here) (n, result)
    next other => exact congrFun (if_neg other) (n, result)
  rw [same, StateT.run]
  rcases f.mapRules kind (changeAt change i) (0, none) with ⟨file, count, _ | a⟩ <;> rfl

/-- The rules of a file are its outermost calls: the calls that a walk meets below no other call,
as far as they call the name asked for, in the order of the walk. A change of the rules meets the
same calls in the same order and puts each outcome in the place of its call. A change of one rule by
its number meets the rule of that number. -/
theorem rules_are_outermost_calls (f : File) (kind : Option String) :
    (f.rules kind).map (·.call.toNode) = (f.walk.filter (·.IsRule kind)).map (·.node) ∧
      f.mapRules kind note [] = (f, (f.rules kind).map (·.call)) ∧
      (∀ {σ : Type} (g : Call → StateM σ Call) (s : σ),
        (f.mapRules kind g s).2 = (((f.rules kind).map (·.call)).mapM g s).2 ∧
          ((f.mapRules kind g s).1.rules none).map (·.call) =
            (((f.rules none).map (·.call)).mapM (Call.changeIf kind g) s).1) ∧
      ∀ {α : Type} (i : Nat) (change : Call → Call × α),
        (f.onRule kind i change).map (·.1) = (f.rules kind)[i]?.map fun r => (change r.call).2 := by
  have changed {σ : Type} (g : Call → StateM σ Call) (s : σ) :=
    congrFun (f.outerCalls_mapRules kind g) s
  have inTurn {σ : Type} (g : Call → StateM σ Call) (s : σ) :
      (f.mapRules kind g s).2 = (((f.rules kind).map (·.call)).mapM g s).2 := by
    rw [call_rules, ← mapM_changeIf]
    exact congrArg Prod.snd (changed g s)
  have all (f : File) : (f.rules none).map (·.call) = f.outerCalls := by
    rw [call_rules]
    exact List.filter_true _
  refine ⟨?_, ?_, ?_, ?_⟩
  · rw [filter_walk, ← call_rules, List.map_map]
    rfl
  · refine Prod.ext (f.mapRules_eq_self kind (fun _ _ => rfl) []) ?_
    rw [inTurn, mapM_note, List.nil_append]
  · intro σ g s
    rw [all, all]
    exact ⟨inTurn g s, congrArg Prod.fst (changed g s)⟩
  · intro α i change
    have met := mapM_changeAt change 0 i ((f.rules kind).map (·.call))
    rw [Nat.zero_add] at met
    rw [onRule_eq, inTurn, met, List.getElem?_map]
    simp [Function.comp_def]

end File

end Starlark
