import Starlark.Proofs.Rule

/-!
# Names taken from the package

A file has a name to give when its package has a directory and exactly one of
its rules lacks a name. Who lacks a name is told in two ways. The rules are
counted by `File.lacksName`: a rule lacks a name when it calls a dotted name
other than `load` and has no string for its `name`. The name is given by
`File.rules` to every rule without the attribute `name`, whatever it calls.

The two ways agree on a file whose rules are plainly named
(`File.PlainlyNamed`). Then the name goes to one rule, the one that was counted
(`File.AloneTakes`). The condition is the right one: a file that has a name to
give and is not plainly named gives it to a rule that was not counted, or to
none (`File.implicitName_goes_to_one_rule`).
-/

set_option autoImplicit false

namespace Starlark

/-- The two ways of lacking a name come to the same for the rules of a file: a rule without the
attribute `name` calls a dotted name other than `load`, and a rule that calls such a name has a
string for its `name`, if it has that attribute. -/
structure File.PlainlyNamed (f : File) : Prop where
  called : ∀ c ∈ f.outerCalls, c.attr? "name" = none → ∃ k, c.callee.Dotted k ∧ k ≠ "load"
  spelled : ∀ c ∈ f.outerCalls, ∀ k, c.callee.Dotted k → k ≠ "load" →
    ∀ v, c.attr? "name" = some v → ∃ comments lit, v = .mk comments (.string lit)

/-- The rule takes the name `d` from the package, and no other rule takes one. It is the rule that
has no attribute `name`, and it is no `load`. -/
structure File.AloneTakes (f : File) (d : String) (r : Rule) : Prop where
  alone : (f.rules none).filter (·.implicitName.isSome) = [r]
  taken : r.implicitName = some d
  missing : (f.rules none).filter (fun r => (r.call.attr? "name").isNone) = [r]
  called : ∃ k, r.call.callee.Dotted k ∧ k ≠ "load"

/-! ## Lacking a name -/

theorem Call.attrString?_eq_none_iff {key : String} {c : Call} :
    c.attrString? key = none ↔ ∀ comments lit, c.attr? key ≠ some (.mk comments (.string lit)) := by
  unfold attrString?
  split
  · simp_all
  · simp_all

namespace File

theorem lacksName_iff {c : Call} :
    lacksName c = true ↔ (∃ k, c.callee.Dotted k ∧ k ≠ "load") ∧
      ∀ comments lit, c.attr? "name" ≠ some (.mk comments (.string lit)) := by
  rw [lacksName, Bool.and_eq_true, Option.isNone_iff_eq_none, Call.attrString?_eq_none_iff,
    Option.any_eq_true]
  simp [Call.kind?_eq_some_iff]

/-- In a plainly named file, to lack a name is to have no attribute `name`. -/
theorem plainlyNamed_iff {f : File} :
    f.PlainlyNamed ↔ ∀ c ∈ f.outerCalls, lacksName c = true ↔ c.attr? "name" = none := by
  constructor
  · intro plain c member
    rw [lacksName_iff]
    constructor
    · rintro ⟨⟨k, reads, other⟩, unspelled⟩
      cases name : c.attr? "name" with
      | none => rfl
      | some v =>
          obtain ⟨comments, lit, rfl⟩ := plain.spelled c member k reads other v name
          exact absurd name (unspelled comments lit)
    · intro name
      refine ⟨plain.called c member name, ?_⟩
      rw [name]
      nofun
  · intro same
    refine ⟨?_, ?_⟩
    · intro c member name
      exact (lacksName_iff.mp ((same c member).mpr name)).1
    · intro c member k reads other v name
      by_contra unspelled
      have lacks : lacksName c = true := by
        rw [lacksName_iff]
        refine ⟨⟨k, reads, other⟩, ?_⟩
        intro comments lit here
        rw [name] at here
        exact unspelled ⟨comments, lit, Option.some.inj here⟩
      rw [(same c member).mp lacks] at name
      cases name

/-- A file with a name to give has one rule that lacks a name. -/
theorem filter_lacksName {f : File} {d : String} (implicit : f.implicitName? = some d) :
    ∃ c, f.outerCalls.filter lacksName = [c] := by
  obtain ⟨directory, _, found⟩ := Option.bind_eq_some_iff.mp implicit
  exact List.length_eq_one_iff.mp (Option.ite_none_right_eq_some.mp found).1

/-! ## Taking a name -/

theorem implicitName_of_mem_rules {f : File} {kind : Option String} {r : Rule}
    (member : r ∈ f.rules kind) :
    r.implicitName = if (r.call.attr? "name").isSome then none else f.implicitName? := by
  obtain ⟨c, _, rfl⟩ := List.mem_map.mp member
  rfl

/-- The rules without a `name` are the calls without one, given the name of the package. -/
theorem filter_missing (f : File) :
    (f.rules none).filter (fun r => (r.call.attr? "name").isNone) =
      (f.outerCalls.filter fun c => (c.attr? "name").isNone).map fun c => ⟨c, f.implicitName?⟩ := by
  rw [rules, List.filter_map, List.filter_filter]
  simp only [Function.comp_def, Call.isOfKind, Bool.and_true]
  apply List.map_congr_left
  intro c member
  have missing := (List.mem_filter.mp member).2
  rw [if_neg (by simpa using missing)]

/-- When a file has a name to give, the rules without the attribute `name` take it. -/
theorem filter_implicitName {f : File} {d : String} (implicit : f.implicitName? = some d) :
    (f.rules none).filter (·.implicitName.isSome) =
      (f.rules none).filter fun r => (r.call.attr? "name").isNone := by
  apply List.filter_congr
  intro r member
  rw [implicitName_of_mem_rules member, implicit]
  cases r.call.attr? "name" <;> rfl

/-- If one rule alone takes the name, it is the one that was counted, so the two ways of lacking a
name agree. -/
theorem AloneTakes.plainlyNamed {f : File} {d : String} (implicit : f.implicitName? = some d)
    {r : Rule} (takes : f.AloneTakes d r) : f.PlainlyNamed := by
  obtain ⟨c, only, rfl⟩ := List.map_eq_singleton_iff.mp (f.filter_missing.symm.trans takes.missing)
  have missing (u : Call) : u ∈ [c] ↔ u ∈ f.outerCalls ∧ u.attr? "name" = none := by
    rw [← only, List.mem_filter, Option.isNone_iff_eq_none]
  obtain ⟨member, name⟩ := (missing c).mp (List.mem_singleton_self c)
  have lacks : lacksName c = true := by
    rw [lacksName_iff, name]
    exact ⟨takes.called, nofun⟩
  obtain ⟨counted, one⟩ := filter_lacksName implicit
  have lacking (u : Call) : u ∈ [counted] ↔ u ∈ f.outerCalls ∧ lacksName u = true := by
    rw [← one, List.mem_filter]
  obtain rfl := List.mem_singleton.mp ((lacking c).mpr ⟨member, lacks⟩)
  rw [plainlyNamed_iff]
  intro u member
  constructor
  · intro lacks
    exact ((missing u).mp ((lacking u).mpr ⟨member, lacks⟩)).2
  · intro name
    exact ((lacking u).mp ((missing u).mpr ⟨member, name⟩)).2

/-- If the two ways of lacking a name agree, the rule that was counted alone takes the name. -/
theorem PlainlyNamed.exists_aloneTakes {f : File} {d : String}
    (implicit : f.implicitName? = some d) (plain : f.PlainlyNamed) : ∃ r, f.AloneTakes d r := by
  have agree : f.outerCalls.filter lacksName =
      f.outerCalls.filter fun c => (c.attr? "name").isNone := by
    apply List.filter_congr
    intro c member
    rw [Bool.eq_iff_iff, plainlyNamed_iff.mp plain c member, Option.isNone_iff_eq_none]
  obtain ⟨c, one⟩ := filter_lacksName implicit
  have missing :
      (f.rules none).filter (fun r => (r.call.attr? "name").isNone) = [⟨c, some d⟩] := by
    rw [filter_missing, ← agree, one, implicit]
    rfl
  have lacks : lacksName c = true := by
    have member := List.mem_singleton_self c
    rw [← one] at member
    exact List.of_mem_filter member
  exact ⟨⟨c, some d⟩, (filter_implicitName implicit).trans missing, rfl, missing,
    (lacksName_iff.mp lacks).1⟩

/-- A rule takes a name from the package only if the file has one to give. When it has one, the
rules without the attribute `name` take it. This is one rule, and no `load`, exactly when the rules
of the file are plainly named. -/
theorem implicitName_goes_to_one_rule (f : File) :
    (f.implicitName? = none → ∀ r ∈ f.rules none, r.implicitName = none) ∧
      ∀ d, f.implicitName? = some d →
        (∀ r ∈ f.rules none, r.implicitName = some d ↔ r.call.attr? "name" = none) ∧
          ((∃ r, f.AloneTakes d r) ↔ f.PlainlyNamed) := by
  constructor
  · intro implicit r member
    rw [implicitName_of_mem_rules member, implicit, ite_self]
  · intro d implicit
    constructor
    · intro r member
      rw [implicitName_of_mem_rules member, implicit]
      cases r.call.attr? "name" <;> simp
    · constructor
      · rintro ⟨r, takes⟩
        exact takes.plainlyNamed implicit
      · intro plain
        exact plain.exists_aloneTakes implicit

end File

/-- A call of a name without arguments. -/
def Call.plain (name : String) : Call :=
  ⟨.none, .ident name, .nowhere, [], .at .nowhere, ⟨true, false⟩⟩

/-- A file of the package `foo` with one call and a variable set to another. -/
def File.inFoo (call value : Call) : File :=
  ⟨"foo/BUILD", .build, [call.toNode, Call.keywordArg "x" value.toNode], .none⟩

theorem File.outerCalls_inFoo (call value : Call) :
    (inFoo call value).outerCalls = [call, value] := by
  have inside : (Call.keywordArg "x" value.toNode).outerCalls = [value] := by
    rw [Node.outerCalls_of_none rfl]
    show (Node.ident "x").outerCalls ++ (value.toNode.outerCalls ++ []) = _
    rw [Node.outerCalls_of_none rfl, Node.outerCalls_toNode]
    rfl
  simp [outerCalls, inFoo, Node.outerCalls_toNode, inside]

/-- In `rule()` and `x = rule(name = "y")` the first call alone takes the name of the package. In
`rule()` and `x = load()` both calls take it, and in `rule()` and `x = rule()` there is none to
take. -/
theorem File.implicitName_goes_to_one_rule_or_two :
    (∃ r, (inFoo (.plain "rule") ((Call.plain "rule").setAttr "name" (.string "y"))).AloneTakes
        "foo" r) ∧
      (inFoo (.plain "rule") (.plain "load")).implicitName? = some "foo" ∧
      (¬ ∃ r, (inFoo (.plain "rule") (.plain "load")).AloneTakes "foo" r) ∧
      ∀ r ∈ (inFoo (.plain "rule") (.plain "rule")).rules none, r.implicitName = none := by
  have implicit (call value : Call) :
      (inFoo call value).implicitName? =
        if ([call, value].filter lacksName).length = 1 then some "foo" else none := by
    have directory : Package.directoryName? "foo/BUILD" = some "foo" := by decide
    rw [implicitName?, outerCalls_inFoo, inFoo, directory]
    rfl
  have two : (inFoo (.plain "rule") (.plain "load")).implicitName? = some "foo" := by
    rw [implicit]
    decide
  refine ⟨?_, two, ?_, ?_⟩
  · refine ((implicitName_goes_to_one_rule _).2 "foo" ?_).2.mpr ?_
    · rw [implicit]
      decide
    · rw [plainlyNamed_iff, outerCalls_inFoo]
      simp only [List.forall_mem_cons]
      decide
  · intro alone
    have plain := ((implicitName_goes_to_one_rule _).2 "foo" two).2.mp alone
    obtain ⟨k, reads, other⟩ := plain.called (.plain "load") (by simp [outerCalls_inFoo]) rfl
    exact other (reads.unique (.ident ..))
  · apply (implicitName_goes_to_one_rule _).1
    rw [implicit]
    decide

end Starlark
