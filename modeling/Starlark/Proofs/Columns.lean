import Starlark.Proofs.Hushed
import Starlark.Proofs.Lexeme.Row

/-!
# Columns do not matter

Two sources without comments whose tokens agree in kind, in text and in their
lines may differ in the white space inside their lines. Their trees are then
equal up to a shift, so that both have one or neither has, and they are printed
alike (`File.format_eq_of_agree`).
-/

set_option autoImplicit false

namespace Starlark

/-- Two tokens that differ in their columns at most. -/
structure Token.Agrees (s t : Token) : Prop where
  kind : s.kind = t.kind
  text : s.text = t.text
  line : s.pos.line = t.pos.line

theorem Token.Agrees.symm {s t : Token} (agrees : s.Agrees t) : t.Agrees s :=
  ⟨agrees.kind.symm, agrees.text.symm, agrees.line.symm⟩

/-- What counts of a token. -/
def Token.visible (t : Token) : Token.Kind × String × Nat := (t.kind, t.text, t.pos.line)

/-- Tokens that show the same agree one by one. -/
theorem Token.forall₂_agrees {ts us : List Token} (same : ts.map visible = us.map visible) :
    List.Forall₂ Token.Agrees ts us := by
  have equal : List.Forall₂ (· = ·) (ts.map visible) (us.map visible) := by
    rw [same]
    exact List.forall₂_refl _
  rw [List.forall₂_map_left_iff, List.forall₂_map_right_iff] at equal
  refine equal.imp fun s t same => ?_
  obtain ⟨kind, rest⟩ := Prod.mk.inj same
  exact ⟨kind, (Prod.mk.inj rest).1, (Prod.mk.inj rest).2⟩

theorem Token.Agrees.line_stop {s t : Token} (agrees : s.Agrees t)
    (left : s.stop = s.pos.add s.text)
    (right : t.stop = t.pos.add t.text) : s.stop.line = t.stop.line := by
  rw [left, right, agrees.text]
  exact Position.line_advance agrees.line _

/-! ## Looking up the other token -/

/-- The relabeling that takes tokens to those they are paired with. -/
def Relabeling.ofPairs (pairs : List (Token × Token)) (agrees : ∀ p ∈ pairs, p.1.Agrees p.2)
    (stops : ∀ p ∈ pairs, p.1.stop.line = p.2.stop.line) : Relabeling .toMargin :=
  have found {t u : Token} (found : pairs.lookup t = some u) : (t, u) ∈ pairs := by
    obtain ⟨front, back, rfl, _⟩ := List.lookup_eq_some_iff.mp found
    simp
  { token := fun t => (pairs.lookup t).getD t
    kind := fun t => by
      cases other : pairs.lookup t with
      | none => rfl
      | some u => exact (agrees _ (found other)).kind.symm
    text := fun t => by
      cases other : pairs.lookup t with
      | none => rfl
      | some u => exact (agrees _ (found other)).text.symm
    pos := fun t => by
      cases other : pairs.lookup t with
      | none => rfl
      | some u => exact congrArg (Position.mk · 0 0) (agrees _ (found other)).line.symm
    stop := fun t => by
      cases other : pairs.lookup t with
      | none => rfl
      | some u => exact congrArg (Position.mk · 0 0) (stops _ (found other)).symm }

theorem Relabeling.token_ofPairs {pairs : List (Token × Token)}
    (agrees : ∀ p ∈ pairs, p.1.Agrees p.2) (stops : ∀ p ∈ pairs, p.1.stop.line = p.2.stop.line)
    {t u : Token} (found : pairs.lookup t = some u) : (ofPairs pairs agrees stops).token t = u := by
  show (pairs.lookup t).getD t = u
  rw [found, Option.getD_some]

theorem Token.Row.distinct {ts : List Token} (row : Token.Row ts) :
    ts.Pairwise fun s t => s.kind.isInline = true → s ≠ t := by
  refine row.ordered.imp_of_mem fun left _ apart inline same => ?_
  subst same
  exact absurd (row.solid _ left inline) (by omega)

/-- A token inside a line is found again. -/
theorem lookup_zip {ts us : List Token} {t u : Token}
    (distinct : ts.Pairwise fun s t => s.kind.isInline = true → s ≠ t) (member : (t, u) ∈ ts.zip us)
    (inline : t.kind.isInline = true) : (ts.zip us).lookup t = some u := by
  induction ts generalizing us with
  | nil => cases member
  | cons s ts ih =>
      cases us with
      | nil => cases member
      | cons v us =>
          obtain ⟨first, others⟩ := List.pairwise_cons.mp distinct
          rw [List.zip_cons_cons, List.mem_cons] at member
          rw [List.zip_cons_cons, List.lookup_cons]
          obtain same | later := member
          · cases same
            simp
          · have other : t ≠ s := by
              rintro rfl
              exact first t (List.of_mem_zip later).1 inline rfl
            rw [beq_false_of_ne other]
            exact ih others later

/-! ## Tokens without comments -/

/-- Tokens without comments that agree up to their places are hushed into one another. -/
theorem Hushed.of_forall₂ {φ : Shift} {ρ : Relabeling φ} {ts us : List Token}
    (pairs : List.Forall₂ (fun t u => u.kind = t.kind ∧ (t.kind.isInline = true → ρ.token t = u))
      ts us) (code : ∀ t ∈ ts, t.kind ≠ .comment) : ∀ a, ∃ b, Hushed ρ a ts us b := by
  induction pairs with
  | nil => exact fun a => ⟨a, .done⟩
  | @cons t u ts us here _ ih =>
      intro a
      obtain ⟨first, others⟩ := List.forall_mem_cons.mp code
      by_cases inline : t.kind.isInline = true
      · obtain ⟨b, rest⟩ := ih others false
        rw [← here.2 inline]
        exact ⟨b, .inline inline rest⟩
      · obtain ⟨b, rest⟩ := ih others (t.kind == .newline)
        exact ⟨b, .layout (eq_false_of_ne_true inline) first here.1 rest⟩

theorem ne_comment_of_commentsOf {ts : List Token} (none : commentsOf ts = []) :
    ∀ t ∈ ts, t.kind ≠ .comment := by
  intro t member kind
  have comment := mem_commentsOf.mpr ⟨t, member, kind, rfl⟩
  rw [none] at comment
  cases comment

/-- Statements read from tokens without comments are quiet. -/
theorem Reader.quiet_of_statements {types : Bool} {ts : List Token} {vs : List Node}
    (code : ∀ t ∈ ts, t.kind ≠ .comment) (read : Reader.statements types ts = .ok vs) :
    ∀ v ∈ vs, v.Quiet := by
  obtain ⟨b, hushed⟩ := Hushed.of_forall₂ (ρ := .still)
    (List.forall₂_same.mpr fun t _ => ⟨rfl, fun _ => rfl⟩) code false
  obtain ⟨ws, again, echo⟩ := Reader.statements_of_hushed read hushed
  rw [read] at again
  cases again
  exact echo.quiet

/-! ## Sources without comments -/

/-- Sources whose tokens agree are both read, and formatted to the same text. -/
theorem exists_format_of_agree {path : String} {options : Options} {x y : List Char}
    {s t : TokenStream} {f : File} (left : TokenStream.ofChars x = .ok s)
    (right : TokenStream.ofChars y = .ok t) (none : s.remarks = []) (none' : t.remarks = [])
    (agree : List.Forall₂ Token.Agrees s.tokens t.tokens)
    (read : File.ofChars path options x = .ok f) :
    ∃ g, File.ofChars path options y = .ok g ∧ ∀ spacing, f.format spacing = g.format spacing := by
  obtain ⟨vs, statements, rfl⟩ := (File.ofChars_eq_ok left none).mp read
  have row := TokenStream.row left
  have row' := TokenStream.row right
  have code : ∀ t ∈ s.tokens, t.kind ≠ .comment :=
    ne_comment_of_commentsOf (List.append_eq_nil_iff.mp (List.append_eq_nil_iff.mp none).1).1
  -- each token inside a line is taken to the one at its place in the other row
  have each {a b : Token} (member : (a, b) ∈ s.tokens.zip t.tokens) : a.Agrees b :=
    (List.forall₂_iff_zip.mp agree).2 member
  obtain ⟨b, hushed⟩ := Hushed.of_forall₂
    (ρ := .ofPairs (s.tokens.zip t.tokens) (fun p member => each member) fun p member =>
      (each member).line_stop (row.stops _ (List.of_mem_zip member).1)
        (row'.stops _ (List.of_mem_zip member).2))
    (List.forall₂_iff_zip.mpr ⟨agree.length_eq, fun {a b} member => ⟨(each member).kind.symm,
      fun inline => Relabeling.token_ofPairs _ _ (lookup_zip row.distinct member inline)⟩⟩)
    code false
  obtain ⟨ws, statements', echo⟩ := Reader.statements_of_hushed statements hushed
  refine ⟨_, (File.ofChars_eq_ok right none').mpr ⟨ws, statements', rfl⟩, fun spacing => ?_⟩
  have moved := echo.moved
  rw [prunedList_of_quiet (Reader.quiet_of_statements code statements)] at moved
  rw [File.format, File.format, ← File.formatWith_moved .toMargin, ← moved]
  exact File.formatWith_moved .toMargin _ ⟨path, options.dialect, ws, .none⟩

/-- Whatever white space stands inside the lines of two sources, both are read or neither is, and
they are printed alike. -/
theorem File.format_eq_of_agree {x y : List Char} {s t : TokenStream}
    (left : TokenStream.ofChars x = .ok s) (right : TokenStream.ofChars y = .ok t)
    (none : s.remarks = []) (none' : t.remarks = [])
    (agree : List.Forall₂ Token.Agrees s.tokens t.tokens) (path : String) (options : Options) :
    (∃ fault fault', File.ofChars path options x = .error fault ∧
        File.ofChars path options y = .error fault') ∨
      ∃ f g, File.ofChars path options x = .ok f ∧ File.ofChars path options y = .ok g ∧
        ∀ spacing, f.format spacing = g.format spacing := by
  cases first : File.ofChars path options x with
  | ok f =>
      obtain ⟨g, second, same⟩ := exists_format_of_agree left right none none' agree first
      exact .inr ⟨f, g, rfl, second, same⟩
  | error fault =>
      cases second : File.ofChars path options y with
      | error fault' => exact .inl ⟨fault, fault', rfl, rfl⟩
      | ok g =>
          have flipped : List.Forall₂ Token.Agrees t.tokens s.tokens :=
            agree.flip.imp fun _ _ agrees => agrees.symm
          obtain ⟨f, again, _⟩ := exists_format_of_agree right left none' none flipped second
          rw [first] at again
          cases again

/-- A block of another width, and brackets with blanks in them. -/
theorem File.format_eq_of_blanks :
    ∃ s t, TokenStream.ofChars "if x:\n f(a,\n  b)\n".toList = .ok s ∧
      TokenStream.ofChars "if  x :\n   f( a ,\nb )\n".toList = .ok t ∧
      s.remarks = [] ∧ t.remarks = [] ∧ List.Forall₂ Token.Agrees s.tokens t.tokens ∧
      ∃ f g, File.ofChars "BUILD" ⟨.build, false⟩
          "if x:\n f(a,\n  b)\n".toList = .ok f ∧
        File.ofChars "BUILD" ⟨.build, false⟩
          "if  x :\n   f( a ,\nb )\n".toList = .ok g ∧
        ∀ spacing, f.format spacing = g.format spacing := by
  generalize narrow : "if x:\n f(a,\n  b)\n".toList = x
  generalize wide : "if  x :\n   f( a ,\nb )\n".toList = y
  obtain ⟨s, left⟩ : ∃ s, TokenStream.ofChars x = .ok s :=
    Outcome.exists_eq_ok (by rw [← narrow]; cbv)
  obtain ⟨t, right⟩ : ∃ t, TokenStream.ofChars y = .ok t :=
    Outcome.exists_eq_ok (by rw [← wide]; cbv)
  have tokens : (TokenStream.ofChars x).toOption.map (fun s => s.tokens.map Token.visible) =
      (TokenStream.ofChars y).toOption.map fun t => t.tokens.map Token.visible :=
    eq_of_beq (by rw [← narrow, ← wide]; cbv)
  have first : (TokenStream.ofChars x).toOption.map TokenStream.remarks = some [] :=
    eq_of_beq (by rw [← narrow]; cbv)
  have second : (TokenStream.ofChars y).toOption.map TokenStream.remarks = some [] :=
    eq_of_beq (by rw [← wide]; cbv)
  obtain ⟨f, read⟩ : ∃ f, File.ofChars "BUILD" ⟨.build, false⟩ x = .ok f :=
    Outcome.exists_eq_ok (by rw [← narrow]; cbv)
  rw [left, right] at tokens
  rw [left] at first
  rw [right] at second
  have none := Option.some.inj first
  have none' := Option.some.inj second
  have agree := Token.forall₂_agrees (Option.some.inj tokens)
  refine ⟨s, t, left, right, none, none', agree, ?_⟩
  obtain ⟨_, _, failed, _⟩ | both :=
    File.format_eq_of_agree left right none none' agree "BUILD" ⟨.build, false⟩
  · rw [read] at failed
    cases failed
  · exact both

end Starlark
