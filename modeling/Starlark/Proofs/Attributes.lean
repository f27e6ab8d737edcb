import Mathlib.Data.List.Basic
import Mathlib.Data.List.Induction
import Mathlib.Data.List.Nodup
import Starlark.Rule

/-!
# Attributes as an ordered map

The attributes of a call are the keys and values of its keyword arguments, in
the order of the arguments (`Call.attributes`). Three functions go through the
arguments on their own to list the keys, to find a value and to delete one. All
three read this one list, and a change of an attribute changes it as an entry of
an ordered map: a value is put in the place of the old one, a new key comes
last, and a deleted one is left out. The arguments that are no attributes are
not touched (`Call.others`).

What one change does carries over to any number of them. The keys stay distinct,
which deleting needs: it removes the first entry of its key, and a second one
would come to light. What a key stands for in the end is what its last change
says (`AttrChange.valueAfter`).
-/

set_option autoImplicit false

namespace Starlark

/-! ## Entries -/

namespace Entries

/-- The entries with another value for a key; a new key comes last. -/
def put (key : String) (value : Node) : List (String × Node) → List (String × Node)
  | [] => [(key, value)]
  | (k, v) :: rest => if k = key then (key, value) :: rest else (k, v) :: put key value rest

variable (key : String) (value : Node)

theorem lookup_cons (k : String) (v : Node) (rest : List (String × Node)) :
    List.lookup key ((k, v) :: rest) = if key = k then some v else rest.lookup key := by
  rw [List.lookup_cons]
  by_cases same : key = k
  · rw [if_pos same, beq_iff_eq.mpr same]
  · rw [if_neg same, beq_false_of_ne same]

/-- Putting an entry changes what is found under its key and nothing else. -/
theorem lookup_put (m : List (String × Node)) (k : String) :
    (put key value m).lookup k = if k = key then some value else m.lookup k := by
  induction m with
  | nil => rw [put, lookup_cons]
  | cons entry rest ih =>
      obtain ⟨first, v⟩ := entry
      rw [put]
      split
      next here =>
        subst here
        rw [lookup_cons, lookup_cons]
        split <;> rfl
      next other =>
        rw [lookup_cons, lookup_cons, ih]
        by_cases same : k = first
        · subst same
          rw [if_pos rfl, if_neg other, if_pos rfl]
        · rw [if_neg same, if_neg same]

/-- A new key goes to the end, and a known one keeps its place. -/
theorem map_fst_put (m : List (String × Node)) :
    (put key value m).map Prod.fst =
      if key ∈ m.map Prod.fst then m.map Prod.fst else m.map Prod.fst ++ [key] := by
  induction m with
  | nil => simp [put]
  | cons entry rest ih =>
      obtain ⟨first, v⟩ := entry
      rw [put]
      split
      next here => simp [here]
      next other =>
        have elsewhere : key ∈ ((first, v) :: rest).map Prod.fst ↔ key ∈ rest.map Prod.fst := by
          rw [List.map_cons, List.mem_cons, or_iff_right (Ne.symm other)]
        rw [List.map_cons, ih]
        simp only [elsewhere]
        split <;> rfl

theorem put_of_absent {m : List (String × Node)}
    (absent : key ∉ m.map Prod.fst) : put key value m = m ++ [(key, value)] := by
  induction m with
  | nil => rfl
  | cons entry rest ih =>
      obtain ⟨first, v⟩ := entry
      rw [List.map_cons, List.mem_cons, not_or] at absent
      obtain ⟨other, absent⟩ := absent
      rw [put, if_neg (Ne.symm other), ih absent, List.cons_append]

/-- Nothing is found under a key that does not occur. -/
theorem lookup_eq_none_iff {m : List (String × Node)} :
    m.lookup key = none ↔ key ∉ m.map Prod.fst := by
  rw [List.lookup_eq_none_iff, List.mem_map]
  constructor
  · rintro differs ⟨entry, member, rfl⟩
    exact absurd rfl (bne_iff_ne.mp (differs entry member))
  · intro absent entry member
    rw [bne_iff_ne]
    rintro rfl
    exact absent ⟨entry, member, rfl⟩

/-- Where no key occurs twice, erasing one leaves the others as they are. -/
theorem lookup_eraseP {m : List (String × Node)} (distinct : (m.map Prod.fst).Nodup) (k : String) :
    (m.eraseP (·.1 == key)).lookup k = if k = key then none else m.lookup k := by
  induction m with
  | nil => simp
  | cons entry rest ih =>
      obtain ⟨first, v⟩ := entry
      obtain ⟨absent, distinct⟩ := List.nodup_cons.mp distinct
      by_cases here : first = key
      · subst here
        rw [List.eraseP_cons_of_pos (by simp), lookup_cons]
        by_cases same : k = first
        · rw [if_pos same, same]
          exact (lookup_eq_none_iff first).mpr absent
        · rw [if_neg same, if_neg same]
      · rw [List.eraseP_cons_of_neg (by simpa using here), lookup_cons, lookup_cons, ih distinct]
        by_cases same : k = first
        · rw [if_pos same, if_pos same, if_neg (same ▸ here)]
        · rw [if_neg same, if_neg same]

theorem map_fst_eraseP (m : List (String × Node)) :
    (m.eraseP (·.1 == key)).map Prod.fst = (m.map Prod.fst).erase key := by
  rw [List.erase_eq_eraseP, List.eraseP_map]
  simp only [Function.comp_def, Bool.beq_comm]

end Entries

/-! ## The attributes of a call -/

namespace Call

/-- The attributes of a call, as keys with their values. -/
def attributes (c : Call) : List (String × Node) := c.args.filterMap keyword?

theorem attrKeys_eq (c : Call) : c.attrKeys = c.attributes.map Prod.fst :=
  List.map_filterMap.symm

/-- Asking a call for an attribute looks it up among the entries. -/
theorem attr?_eq (key : String) (c : Call) : c.attr? key = c.attributes.lookup key := by
  rw [attr?, attributes]
  induction c.args with
  | nil => rfl
  | cons arg args ih =>
      cases word : keyword? arg with
      | none =>
          rw [List.find?_cons_of_neg (by simp [hasKey, word]), List.filterMap_cons_none word, ih]
      | some entry =>
          obtain ⟨k, v⟩ := entry
          rw [List.filterMap_cons_some word, Entries.lookup_cons]
          by_cases same : key = k
          · rw [List.find?_cons_of_pos (by simp [hasKey, word, same]), if_pos same,
              Option.bind_some, word]
            rfl
          · rw [List.find?_cons_of_neg (by simp [hasKey, word, Ne.symm same]), if_neg same, ih]

theorem delAttr_eq (key : String) (c : Call) :
    c.delAttr key = ({ c with args := c.args.eraseP (hasKey key) }, c.attr? key) := by
  rw [delAttr, attr?, List.eraseP_eq_eraseIdx, List.find?_eq_bind_findIdx?_getElem?]
  cases c.args.findIdx? (hasKey key) <;> rfl

/-- The arguments that are no attributes. -/
def others (c : Call) : List Node := c.args.filter fun arg => (keyword? arg).isNone

/-- The arguments under a key are the keyword arguments of that name. -/
theorem hasKey_iff {key : String} {arg : Node} :
    hasKey key arg = true ↔ ∃ value, keyword? arg = some (key, value) := by
  rw [hasKey, Option.any_eq_true]
  constructor
  · rintro ⟨⟨k, v⟩, word, same⟩
    obtain rfl : k = key := beq_iff_eq.mp same
    exact ⟨v, word⟩
  · rintro ⟨v, word⟩
    exact ⟨_, word, beq_self_eq_true key⟩

/-- An argument with another value keeps its name. -/
theorem keyword?_withValue {arg : Node} {entry : String × Node}
    (word : keyword? arg = some entry) (value : Node) :
    keyword? (withValue value arg) = some (entry.1, value) := by
  unfold keyword? at word
  split at word
  · obtain ⟨assigns, same⟩ := Option.ite_none_right_eq_some.mp word
    cases same
    rw [withValue, keyword?, if_pos assigns]
  · cases word

/-- Replacing the value of a known attribute puts it among the entries. -/
theorem filterMap_replaceValue (key : String) (value : Node) {args : List Node}
    (present : key ∈ (args.filterMap keyword?).map Prod.fst) :
    (replaceValue key value args).filterMap keyword? =
      Entries.put key value (args.filterMap keyword?) := by
  induction args with
  | nil => cases present
  | cons arg args ih =>
      rw [replaceValue]
      split
      next here =>
        obtain ⟨v, word⟩ := hasKey_iff.mp here
        rw [List.filterMap_cons_some (keyword?_withValue word value),
          List.filterMap_cons_some word, Entries.put, if_pos rfl]
      next other =>
        cases word : keyword? arg with
        | none =>
            rw [List.filterMap_cons_none word] at present ⊢
            rw [List.filterMap_cons_none word]
            exact ih present
        | some entry =>
            obtain ⟨k, v⟩ := entry
            have differs : k ≠ key := by
              rintro rfl
              exact other (hasKey_iff.mpr ⟨v, word⟩)
            rw [List.filterMap_cons_some word, List.map_cons, List.mem_cons] at present
            rw [List.filterMap_cons_some word, List.filterMap_cons_some word, Entries.put,
              if_neg differs, ih (present.resolve_left (Ne.symm differs))]

theorem isSome_attr?_iff {key : String} {c : Call} :
    (c.attr? key).isSome = true ↔ key ∈ c.attrKeys := by
  rw [attr?_eq, attrKeys_eq, Option.isSome_iff_ne_none, Ne, Entries.lookup_eq_none_iff,
    Classical.not_not]

/-- Setting an attribute puts it among the entries. -/
theorem attributes_setAttr (key : String) (value : Node) (c : Call) :
    (c.setAttr key value).attributes = Entries.put key value c.attributes := by
  rw [setAttr]
  split
  next present =>
    rw [isSome_attr?_iff, attrKeys_eq] at present
    exact filterMap_replaceValue key value present
  next absent =>
    rw [isSome_attr?_iff, attrKeys_eq] at absent
    rw [Entries.put_of_absent key value absent, attributes, List.filterMap_append]
    rfl

/-- Deleting an attribute erases the first entry of its key. -/
theorem attributes_delAttr (key : String) (c : Call) :
    (c.delAttr key).1.attributes = c.attributes.eraseP (·.1 == key) := by
  rw [delAttr_eq]
  show (c.args.eraseP (hasKey key)).filterMap keyword? = (c.args.filterMap keyword?).eraseP _
  induction c.args with
  | nil => rfl
  | cons arg args ih =>
      cases word : keyword? arg with
      | none =>
          rw [List.eraseP_cons_of_neg (by simp [hasKey, word]), List.filterMap_cons_none word, ih,
            List.filterMap_cons_none word]
      | some entry =>
          rw [List.filterMap_cons_some word]
          by_cases here : entry.1 = key
          · rw [List.eraseP_cons_of_pos (by simp [hasKey, word, here]),
              List.eraseP_cons_of_pos (by simp [here])]
          · rw [List.eraseP_cons_of_neg (by simp [hasKey, word, here]),
              List.filterMap_cons_some word, ih, List.eraseP_cons_of_neg (by simp [here])]

/-- Setting an attribute keeps the other arguments. -/
theorem others_setAttr (key : String) (value : Node) (c : Call) :
    (c.setAttr key value).others = c.others := by
  rw [setAttr]
  split
  · show (replaceValue key value c.args).filter _ = c.args.filter _
    induction c.args with
    | nil => rfl
    | cons arg args ih =>
        rw [replaceValue]
        split
        next here =>
          obtain ⟨v, word⟩ := hasKey_iff.mp here
          rw [List.filter_cons_of_neg (by simp [keyword?_withValue word]),
            List.filter_cons_of_neg (by simp [word])]
        next => rw [List.filter_cons, List.filter_cons, ih]
  · rw [others, List.filter_append]
    exact List.append_nil _

/-- So does deleting one. -/
theorem others_delAttr (key : String) (c : Call) : (c.delAttr key).1.others = c.others := by
  rw [delAttr_eq]
  show (c.args.eraseP (hasKey key)).filter _ = c.args.filter _
  induction c.args with
  | nil => rfl
  | cons arg args ih =>
      by_cases here : hasKey key arg = true
      · obtain ⟨v, word⟩ := hasKey_iff.mp here
        rw [List.eraseP_cons_of_pos here, List.filter_cons_of_neg (by simp [word])]
      · rw [List.eraseP_cons_of_neg here, List.filter_cons, List.filter_cons, ih]

/-! ## One change -/

theorem attr?_setAttr (key : String) (value : Node) (c : Call) (k : String) :
    (c.setAttr key value).attr? k = if k = key then some value else c.attr? k := by
  rw [attr?_eq, attributes_setAttr, Entries.lookup_put, attr?_eq]

theorem attrKeys_setAttr (key : String) (value : Node) (c : Call) :
    (c.setAttr key value).attrKeys =
      if key ∈ c.attrKeys then c.attrKeys else c.attrKeys ++ [key] := by
  rw [attrKeys_eq, attributes_setAttr, Entries.map_fst_put, attrKeys_eq]

theorem attr?_delAttr (key : String) {c : Call} (distinct : c.attrKeys.Nodup) (k : String) :
    (c.delAttr key).1.attr? k = if k = key then none else c.attr? k := by
  rw [attrKeys_eq] at distinct
  rw [attr?_eq, attributes_delAttr, Entries.lookup_eraseP key distinct, attr?_eq]

theorem attrKeys_delAttr (key : String) (c : Call) :
    (c.delAttr key).1.attrKeys = c.attrKeys.erase key := by
  rw [attrKeys_eq, attributes_delAttr, Entries.map_fst_eraseP, attrKeys_eq]

end Call

/-! ## Many changes -/

/-- A change of one attribute. -/
inductive AttrChange where
  | set (key : String) (value : Node)
  | del (key : String)

namespace AttrChange

/-- The key that a change is about. -/
def key : AttrChange → String
  | .set key _ | .del key => key

/-- What its key stands for after a change. -/
def value? : AttrChange → Option Node
  | .set _ value => some value
  | .del _ => none

/-- The call after a change, and what a deletion gives back. -/
def run (c : Call) : AttrChange → Call × Option Node
  | .set key value => (c.setAttr key value, none)
  | .del key => c.delAttr key

/-- The keys after a change: a deleted one is left out, and a new one comes last. -/
def keysAfter (keys : List String) : AttrChange → List String
  | .set key _ => if key ∈ keys then keys else keys ++ [key]
  | .del key => keys.erase key

/-- Whether a change deletes a key. -/
def deletes (key : String) : AttrChange → Bool
  | .set .. => false
  | .del k => k == key

/-- The last change of a key. -/
def last? (key : String) (steps : List AttrChange) : Option AttrChange :=
  (steps.filter (·.key == key)).getLast?

/-- What a key stands for after some changes: what the last change of the key says, or what it stood
for before, when there is none. -/
def valueAfter (key : String) (before : Option Node) (steps : List AttrChange) : Option Node :=
  match last? key steps with
  | some step => step.value?
  | none => before

/-- The last step decides about its own key. -/
theorem valueAfter_append (key : String) (before : Option Node) (steps : List AttrChange)
    (step : AttrChange) :
    valueAfter key before (steps ++ [step]) =
      if key = step.key then step.value? else valueAfter key before steps := by
  rw [valueAfter, last?, List.filter_append]
  by_cases same : key = step.key
  · rw [if_pos same, List.filter_cons_of_pos (by simp [same]), List.filter_nil,
      List.getLast?_concat]
  · rw [if_neg same, List.filter_cons_of_neg (by simp [Ne.symm same]), List.filter_nil,
      List.append_nil]
    rfl

variable {c : Call}

/-- A change is about its own key. -/
theorem attr?_run (distinct : c.attrKeys.Nodup) (step : AttrChange) (key : String) :
    (step.run c).1.attr? key = if key = step.key then step.value? else c.attr? key := by
  cases step with
  | set k value => exact c.attr?_setAttr k value key
  | del k => exact c.attr?_delAttr k distinct key

theorem attrKeys_run (step : AttrChange) : (step.run c).1.attrKeys = step.keysAfter c.attrKeys := by
  cases step with
  | set k value => exact c.attrKeys_setAttr k value
  | del k => exact c.attrKeys_delAttr k

/-- No step makes a key occur twice. -/
theorem nodup_keysAfter {keys : List String} (distinct : keys.Nodup) (step : AttrChange) :
    (keysAfter keys step).Nodup := by
  cases step with
  | set key value =>
      rw [keysAfter]
      split
      next => exact distinct
      next absent =>
        refine List.nodup_append.mpr ⟨distinct, List.nodup_singleton key, ?_⟩
        rintro k member k' here rfl
        exact absent (List.mem_singleton.mp here ▸ member)
  | del key => exact distinct.erase key

/-- Keys in front of all others stay there, unless they are deleted. -/
theorem front_keysAfter {front keys : List String} (distinct : keys.Nodup) (first : front <+: keys)
    (step : AttrChange) : front.filter (fun key => !step.deletes key) <+: keysAfter keys step := by
  cases step with
  | set key value =>
      have kept : (front.filter fun _ => !false) = front := List.filter_true front
      simp only [deletes, kept, keysAfter]
      split
      · exact first
      · exact first.trans ⟨[key], rfl⟩
  | del key =>
      have same : (fun k => !(del key).deletes k) = fun k => k != key := by
        funext k
        rw [deletes, bne, Bool.beq_comm]
      rw [keysAfter, distinct.erase_eq_filter, same]
      exact first.filter _

theorem others_run (step : AttrChange) : (step.run c).1.others = c.others := by
  cases step with
  | set k value => exact c.others_setAttr k value
  | del k => exact c.others_delAttr k

end AttrChange

namespace Call

/-- The call after some changes. -/
def after (c : Call) (steps : List AttrChange) : Call :=
  steps.foldl (fun c step => (step.run c).1) c

/-- What the changes give back in turn. -/
def answers (c : Call) : List AttrChange → List (Option Node)
  | [] => []
  | step :: steps => (step.run c).2 :: answers (step.run c).1 steps

theorem after_append (c : Call) (steps : List AttrChange) (step : AttrChange) :
    c.after (steps ++ [step]) = (step.run (c.after steps)).1 := by
  rw [after, List.foldl_append]
  rfl

theorem attrKeys_after (c : Call) (steps : List AttrChange) :
    (c.after steps).attrKeys = steps.foldl AttrChange.keysAfter c.attrKeys := by
  induction steps using List.reverseRecOn with
  | nil => rfl
  | append_singleton steps step ih =>
      rw [after_append, AttrChange.attrKeys_run, ih, List.foldl_concat]

/-- Keys stay distinct. -/
theorem nodup_attrKeys_after {c : Call} (distinct : c.attrKeys.Nodup) (steps : List AttrChange) :
    (c.after steps).attrKeys.Nodup := by
  induction steps using List.reverseRecOn with
  | nil => exact distinct
  | append_singleton steps step ih =>
      rw [after_append, AttrChange.attrKeys_run]
      exact AttrChange.nodup_keysAfter ih step

/-- The keys that were there from the start and have not been deleted come first, in their order. -/
theorem front_attrKeys_after {c : Call} (distinct : c.attrKeys.Nodup) (steps : List AttrChange) :
    c.attrKeys.filter (fun key => !steps.any (·.deletes key)) <+: (c.after steps).attrKeys := by
  induction steps using List.reverseRecOn with
  | nil => exact ⟨[], (List.append_nil _).trans (List.filter_true c.attrKeys)⟩
  | append_singleton steps step ih =>
      have front := step.front_keysAfter (nodup_attrKeys_after distinct steps) ih
      rw [List.filter_filter] at front
      rw [after_append, AttrChange.attrKeys_run]
      simpa [Bool.and_comm] using front

theorem attr?_after {c : Call} (distinct : c.attrKeys.Nodup) (steps : List AttrChange)
    (key : String) :
    (c.after steps).attr? key = AttrChange.valueAfter key (c.attr? key) steps := by
  induction steps using List.reverseRecOn with
  | nil => rfl
  | append_singleton steps step ih =>
      rw [after_append, AttrChange.attr?_run (nodup_attrKeys_after distinct steps), ih,
        AttrChange.valueAfter_append]

theorem others_after (c : Call) (steps : List AttrChange) : (c.after steps).others = c.others := by
  induction steps using List.reverseRecOn with
  | nil => rfl
  | append_singleton steps step ih => rw [after_append, AttrChange.others_run, ih]

/-- A deletion gives back what its key stood for. -/
theorem answers_del (c : Call) (before later : List AttrChange) (key : String) :
    (c.answers (before ++ .del key :: later))[before.length]? =
      some ((c.after before).attr? key) := by
  induction before generalizing c with
  | nil =>
      show some (c.delAttr key).2 = some (c.attr? key)
      rw [delAttr_eq]
  | cons step before ih => exact ih (step.run c).1

/-- The attributes of a call form an ordered map, whatever changes are made to it. A key stands for
the value that it was set to last, or for the one that it had from the start, unless it has been
deleted since. The keys stay distinct; the first ones that are still there come first, in their
order, and each new one comes last when it is set. A deletion gives back the value that it takes
away. The other arguments stay as they were. -/
theorem attributes_form_ordered_map (c : Call) (distinct : c.attrKeys.Nodup)
    (steps : List AttrChange) :
    (∀ key, (c.after steps).attr? key = AttrChange.valueAfter key (c.attr? key) steps) ∧
      (c.after steps).attrKeys = steps.foldl AttrChange.keysAfter c.attrKeys ∧
      c.attrKeys.filter (fun key => !steps.any (·.deletes key)) <+: (c.after steps).attrKeys ∧
      (c.after steps).attrKeys.Nodup ∧
      (∀ before key later, steps = before ++ .del key :: later →
        (c.answers steps)[before.length]? = some ((c.after before).attr? key)) ∧
      (c.after steps).others = c.others := by
  refine ⟨attr?_after distinct steps, c.attrKeys_after steps, front_attrKeys_after distinct steps,
    nodup_attrKeys_after distinct steps, ?_, c.others_after steps⟩
  rintro before key later rfl
  exact c.answers_del before later key

/-- The call `library(name = "x", extra, srcs = files, deps = libraries)`. -/
def library : Call :=
  ⟨.none, .ident "library", .nowhere, [keywordArg "name" (.string "x"), .ident "extra",
    keywordArg "srcs" (.ident "files"), keywordArg "deps" (.ident "libraries")], .at .nowhere,
    ⟨true, false⟩⟩

/-- Changes of a library: another name, headers, and sources deleted twice and set again. -/
def revise : List AttrChange :=
  [.set "name" (.string "y"), .set "hdrs" (.ident "headers"), .del "srcs", .del "srcs",
    .set "srcs" (.ident "more")]

theorem attributes_form_ordered_map_library :
    library.attrKeys.Nodup ∧ (library.after revise).attr? "name" = some (.string "y") ∧
      (library.after revise).attrKeys = ["name", "deps", "hdrs", "srcs"] ∧
      (library.answers revise)[2]? = some (some (.ident "files")) ∧
      (library.answers revise)[3]? = some none ∧
      (library.after revise).others = [.ident "extra"] := by
  have distinct : library.attrKeys.Nodup := by decide
  obtain ⟨values, keys, _, _, returned, others⟩ :=
    library.attributes_form_ordered_map distinct revise
  refine ⟨distinct, (values "name").trans rfl, keys.trans (by decide), ?_, ?_, others.trans rfl⟩
  · exact (returned (revise.take 2) "srcs" (revise.drop 3) rfl).trans rfl
  · exact (returned (revise.take 3) "srcs" (revise.drop 4) rfl).trans rfl

end Call

end Starlark
