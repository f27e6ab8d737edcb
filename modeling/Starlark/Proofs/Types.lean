import Starlark.Proofs.Reader.Complete.Statement
import Starlark.Proofs.Reader.Statement
import Starlark.Proofs.Text.Utf8

/-!
# Types are optional

Whether parameters of a `def` may have types is an option. It adds two rules to
the grammar and takes none away, although a colon may then stand behind a name
where it could not before: what tokens build without types, they build with
types (`Builds.typed`).

The readers do not follow the rules side by side, they decide at each colon. That
they still come to the same tree rests on the two directions in which they are
tied to the grammar: reading without types gives a derivation, and every
derivation with types is read.
-/

set_option autoImplicit false

namespace Starlark

/-- A parameter can be read where types are allowed as well. -/
theorem Spells.typedParam_of_param {types : Bool} {ts : List Token} {vs : List Node}
    (spells : Spells (.param types) ts vs) : Spells (.param true) ts vs := by
  cases spells with
  | starStarParam star named => exact .starStarParam star named
  | starParam star named => exact .starParam star named
  | bareStar star => exact .bareStar star
  | plainParam named => exact .plainParam named
  | defaultParam named eq value => exact .defaultParam named eq value
  | typedParam named colon type => exact .typedParam named colon type
  | typedDefaultParam named colon type eq value =>
      exact .typedDefaultParam named colon type eq value

/-- Parameters can be read where types are allowed as well. -/
theorem Spells.typedParams_of_params {types : Bool} {ts : List Token} {vs : List Node}
    (spells : Spells (.params types) ts vs) : Spells (.params true) ts vs := by
  generalize phrase : Phrase.params types = p at spells
  induction spells with
  | noParam => exact .noParam
  | lastParam inner =>
      cases phrase
      exact .lastParam inner.typedParam_of_param
  | moreParams first comma _ _ ih =>
      cases phrase
      exact .moreParams first.typedParam_of_param comma (ih rfl)
  | _ => cases phrase

/-- What tokens build without types, they build with types. Only the parameters of a `def` are
concerned; those of a `lambda` have no types under either option. -/
theorem Builds.typed {types : Bool} {ts : List Token} {r : Reading} (builds : Builds types ts r) :
    Builds true ts r := by
  induction builds with
  | lineSuite line => exact .lineSuite line
  | blockSuite ends above opening _ closing body =>
      exact .blockSuite ends above opening body closing
  | define key named opening parts closing colon _ body =>
      exact .define key named opening parts.typedParams_of_params closing colon body
  | loop key bound inside range colon _ body => exact .loop key bound inside range colon body
  | choice key test colon _ _ body more => exact .choice key test colon body more
  | choiceElse key test colon _ _ otherwise second _ body more last =>
      exact .choiceElse key test colon body more otherwise second last
  | noArm => exact .noArm
  | arm key test colon _ _ body more => exact .arm key test colon body more
  | noLine => exact .noLine
  | blank ends _ more => exact .blank ends more
  | remark kind ends _ more => exact .remark kind ends more
  | compound _ _ first more => exact .compound first more
  | stmts first _ more => exact .stmts first more

theorem Reader.statements_typed {types : Bool} {tokens : List Token} {vs : List Node}
    (success : statements types tokens = .ok vs) : statements true tokens = .ok vs := by
  obtain ⟨used, rest, entries, rfl, ends, lines, rfl⟩ := statements_eq_ok success
  exact statements_of_builds lines.typed ends

namespace File

variable {path : String} {dialect : Dialect} {f : File}

theorem ofChars_typed {types : Bool} {source : List Char}
    (read : ofChars path ⟨dialect, types⟩ source = .ok f) :
    ofChars path ⟨dialect, true⟩ source = .ok f := by
  obtain ⟨stream, scanned, built⟩ := Outcome.bind_eq_ok.mp read
  obtain ⟨vs, statements, done⟩ := Outcome.bind_eq_ok.mp built
  refine Outcome.bind_eq_ok.mpr ⟨stream, scanned, Outcome.bind_eq_ok.mpr ⟨vs, ?_, done⟩⟩
  exact Reader.statements_typed statements

/-- A source that is read without types is read as the same file when types are allowed. -/
theorem ofBytes_typed {bytes : ByteArray}
    (read : ofBytes path ⟨dialect, false⟩ bytes = .ok f) :
    ofBytes path ⟨dialect, true⟩ bytes = .ok f := by
  unfold ofBytes at read ⊢
  split at read
  next source decoded =>
    cases chars : ofChars path ⟨dialect, false⟩ source with
    | error fault =>
        rw [chars] at read
        cases read
    | ok g =>
        rw [chars] at read
        cases read
        rw [ofChars_typed chars]
        rfl
  next => cases read

/-- Colons behind the parameters of a `lambda` and of a `def`, behind a key, and in a slice. -/
theorem ofBytes_typed_colons :
    ∃ f, ofBytes "a.bzl" ⟨.bzl, false⟩ "def f(a=lambda b: {b: b[:]}): a\n".toUTF8 = .ok f ∧
      ofBytes "a.bzl" ⟨.bzl, true⟩ "def f(a=lambda b: {b: b[:]}): a\n".toUTF8 = .ok f := by
  obtain ⟨f, read⟩ :
      ∃ f, ofText "a.bzl" ⟨.bzl, false⟩ "def f(a=lambda b: {b: b[:]}): a\n" = .ok f :=
    Outcome.exists_eq_ok (by cbv)
  rw [← ofBytes_toUTF8] at read
  exact ⟨f, read, ofBytes_typed read⟩

end File

end Starlark
