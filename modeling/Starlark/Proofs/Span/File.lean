import Starlark.Proofs.Span.Statement

/-!
# Spans nest like the source
-/

set_option autoImplicit false

namespace Starlark

open Token (placesOf)

/-! ## Comments take no place -/

mutual

@[simp] theorem Node.start_plain : ∀ v : Node, v.plain.start = v.start
  | .mk _ f => f.start_plain

theorem Form.start_plain : ∀ f : Form, f.plain.start = f.start
  | .dot x _ _ _ | .index x _ _ _ | .slice x _ _ _ _ _ _ _ | .binary _ x _ _ _ _
  | .conditional x _ _ _ _ | .call x _ _ _ _ | .keyValue x _ _ => x.start_plain
  | .collection .bareTuple p items _ _ => firstStart_plain p items
  | .collection .list .. | .collection .set .. | .collection .dict .. | .collection .tuple ..
  | .ident .. | .literal .. | .string _ | .unary .. | .lambda .. | .comprehension ..
  | .forClause .. | .ifClause .. | .paren .. | .defStmt .. | .forStmt .. | .ifStmt ..
  | .returnStmt .. | .branch .. | .load .. | .commentBlock _ | .verbatim .. | .typed .. => rfl

theorem firstStart_plain (p : Position) : ∀ vs : List Node,
    firstStart p (plainList vs) = firstStart p vs
  | [] => rfl
  | v :: _ => v.start_plain

end

mutual

@[simp] theorem Node.stop_plain : ∀ v : Node, v.plain.stop = v.stop
  | .mk _ f => f.stop_plain

theorem Form.stop_plain : ∀ f : Form, f.plain.stop = f.stop
  | .unary _ _ (some x) | .binary _ _ _ _ _ x | .conditional _ _ _ _ x | .lambda _ _ _ x
  | .keyValue _ _ x | .forClause _ _ _ x | .ifClause _ x | .returnStmt _ (some x)
  | .typed _ _ x => x.stop_plain
  | .ident .. | .dot .. | .literal .. | .branch .. | .verbatim .. | .string _ | .unary _ _ none
  | .returnStmt _ none | .index .. | .slice .. | .collection .list .. | .collection .set ..
  | .collection .dict .. | .collection .tuple .. | .call .. | .comprehension .. | .paren ..
  | .load .. | .commentBlock _ => rfl
  | .collection .bareTuple p items _ _ => by
    simp only [Form.plain, Form.stop, lastStop_plain items]
  | .defStmt _ _ _ _ _ s body _ => by simp only [Form.plain, Form.stop, lastStop_plain body]
  | .forStmt _ _ x body => by simp only [Form.plain, Form.stop, lastStop_plain body, x.stop_plain]
  | .ifStmt _ cond yesBody _ noBody => by
    simp only [Form.plain, Form.stop, lastStop_plain yesBody, lastStop_plain noBody,
      cond.stop_plain]

theorem lastStop_plain : ∀ vs : List Node, lastStop (plainList vs) = lastStop vs
  | [] => rfl
  | [v] => by simp only [plainList, lastStop, v.stop_plain]
  | _ :: v :: vs => lastStop_plain (v :: vs)

end

theorem spansOf_plain (vs : List Node) : spansOf (vs.map Node.plain) = spansOf vs := by
  induction vs with
  | nil => rfl
  | cons v vs ih => simp [ih]

theorem Form.isInner_plain (f : Form) : f.plain.isInner = f.isInner := by cases f <;> rfl

/-- Comments do not move a form from its place. -/
theorem Form.placed_plain {tokens : List Token} {f : Form} :
    f.plain.Placed tokens ↔ f.Placed tokens := by
  constructor
  all_goals
    rintro ⟨nests, ends⟩
    constructor
    · simpa only [children_plain, spansOf_plain, start_plain, stop_plain] using nests
    · simpa only [isInner_plain, start_plain, stop_plain] using ends

/-- Whether a node is placed does not depend on the comments of its tokens. -/
theorem Node.placed_stable (tokens : List Token) : Stable (Placed tokens) := by
  intro u v same after placed
  have forms : u.form.plain = v.form.plain := by
    obtain ⟨_, _⟩ := u
    obtain ⟨_, _⟩ := v
    simpa [Node.plain] using same
  refine ⟨fun p block => ?_, Form.placed_plain.mp (forms ▸ Form.placed_plain.mpr placed.2)⟩
  rw [after]
  refine placed.1 p ?_
  rw [block] at forms
  cases form : v.form with
  | commentBlock q =>
      rw [form] at forms
      exact forms.symm
  | _ =>
      rw [form] at forms
      cases forms

/-! ## What spans say -/

/-- A node that stands before another one, without overlap. -/
def Node.EndsBefore (u v : Node) : Prop := u.stop.offset ≤ v.start.offset

/-- The last body of a statement that holds a line. -/
def Form.lastBody? (f : Form) : Option (List Node) :=
  (f.bodies.filter fun body => !body.isEmpty).getLast?

/-- A node with a span as the text of the source has it. -/
structure Node.WellSpanned (tokens : List Token) (v : Node) : Prop where
  forward : v.start.offset ≤ v.stop.offset
  inside : ∀ c ∈ v.children, v.start.offset ≤ c.start.offset ∧ c.stop.offset ≤ v.stop.offset
  apart : v.children.Pairwise EndsBefore
  ends : v.isBlock = false → v.isCommentBlock = false →
    Token.StartsAt tokens v.start ∧ Token.StopsAt tokens v.stop
  anchor : v.isCommentBlock = true →
    ∃ c rest, v.comments.after = c :: rest ∧ v.span = (c.start, c.start)
  closes : ∀ body, v.form.lastBody? = some body → body.getLast?.map Node.stop = some v.stop

/-- Nodes in a row do not overlap. -/
theorem Ordered.apart {lo hi : Nat} {vs : List Node} (ordered : Ordered lo (spansOf vs) hi) :
    (∀ v ∈ vs, lo ≤ v.start.offset ∧ v.stop.offset ≤ hi) ∧ vs.Pairwise Node.EndsBefore := by
  induction vs generalizing lo with
  | nil => exact ⟨nofun, .nil⟩
  | cons v vs ih =>
      obtain ⟨low, forward, rest⟩ := ordered
      obtain ⟨inside, apart⟩ := ih rest
      refine ⟨List.forall_mem_cons.mpr ⟨⟨low, rest.le⟩, fun u member => ?_⟩, ?_⟩
      · have bounds := inside u member
        exact ⟨by omega, bounds.2⟩
      · exact List.pairwise_cons.mpr ⟨fun u member => (inside u member).1, apart⟩

theorem lastStop_eq_getLast? : ∀ vs : List Node, lastStop vs = vs.getLast?.map Node.stop
  | [] => rfl
  | [_] => rfl
  | _ :: v :: vs => by
    rw [lastStop, lastStop_eq_getLast? (v :: vs), List.getLast?_cons_cons]

/-- A statement ends with the last line in it. -/
theorem Form.stop_of_lastBody? {f : Form} {body : List Node} (last : f.lastBody? = some body) :
    lastStop body = some f.stop := by
  have some' {body : List Node} {d : Position} (line : body ≠ []) :
      lastStop body = some ((lastStop body).getD d) := by
    obtain ⟨x, found⟩ := Option.ne_none_iff_exists'.mp (mt List.getLast?_eq_none_iff.mp line)
    rw [lastStop_eq_getLast?, found]
    rfl
  have member := List.mem_of_getLast? last
  rw [List.mem_filter] at member
  have line : body ≠ [] := by simpa using member.2
  cases f with
  | defStmt | forStmt =>
      obtain rfl := List.mem_singleton.mp member.1
      exact some' line
  | ifStmt p cond yesBody e noBody =>
      by_cases none : noBody = []
      · subst none
        obtain rfl : body = yesBody := by simpa [bodies, line] using member.1
        exact some' line
      · have same : body = noBody := by
          by_cases empty : yesBody = [] <;>
            simp_all [lastBody?, bodies]
        subst same
        exact some' line
  | _ => cases member.1

/-- A node that is placed spans its parts, from the start of a token to the end of one. -/
theorem Node.Placed.wellSpanned {tokens : List Token} {v : Node} (placed : v.Placed tokens) :
    v.WellSpanned tokens := by
  obtain ⟨anchored, nests, ends⟩ := placed
  simp only [start_form, stop_form] at nests ends
  obtain ⟨inside, apart⟩ := nests.apart
  refine ⟨nests.le, inside, apart, fun inner statement => ends ?_, fun block => ?_, ?_⟩
  · rw [Form.isInner, Bool.and_eq_true, Bool.not_eq_true', Bool.not_eq_true']
    exact ⟨inner, statement⟩
  · obtain ⟨⟨before, suffix, after⟩, f⟩ := v
    cases f with
    | commentBlock p =>
        have first := anchored p rfl
        cases after with
        | nil => cases first
        | cons c rest =>
            obtain rfl : c.start = p := Option.some.inj first
            exact ⟨c, rest, rfl, rfl⟩
    | _ => cases block
  · intro body last
    rw [← lastStop_eq_getLast?, Form.stop_of_lastBody? last, stop_form]

/-! ## Files -/

/-- Tokens in a row are in order. -/
theorem Token.Row.ordered_placesOf {ts : List Token} (row : Token.Row ts) :
    ∃ hi, Ordered 0 (placesOf ts) hi := by
  obtain ⟨ordered, stops, -⟩ := row
  have above : ∀ lo, (∀ t ∈ ts, lo ≤ t.pos.offset) → ∃ hi, Ordered lo (placesOf ts) hi := by
    induction ts with
    | nil => exact fun lo _ => ⟨lo, Nat.le_refl lo⟩
    | cons t ts ih =>
        intro lo low
        obtain ⟨first, others⟩ := List.pairwise_cons.mp ordered
        obtain ⟨hi, rest⟩ := ih others (fun s member => stops s (List.mem_cons_of_mem t member))
          t.stop.offset first
        refine ⟨hi, low t List.mem_cons_self, ?_, rest⟩
        rw [stops t List.mem_cons_self, Position.add, Position.offset_advance]
        exact Nat.le_add_right _ _
  exact above 0 fun _ _ => Nat.zero_le _

theorem TokenStream.lexical {source : List Char} {stream : TokenStream}
    (scanned : TokenStream.ofChars source = .ok stream) : LexicalTokens stream.tokens := by
  obtain ⟨ls, success, rfl⟩ := Outcome.map_eq_ok.mp scanned
  exact fun t member => (Lexeme.scans_of_scanFrom success).sound (Lexeme.mem_tokens.mp member)

/-- The statements of a file and the nodes below them are in their places. -/
theorem File.placed_of_ofStream {path : String} {options : Options} {source : List Char}
    {stream : TokenStream} {f : File} (scanned : TokenStream.ofChars source = .ok stream)
    (read : File.ofStream path options stream = .ok f) :
    (∃ hi, Ordered 0 (spansOf f.statements) hi) ∧
      ∀ v ∈ f.statements, v.Throughout (Node.Placed stream.tokens) := by
  have row := TokenStream.row scanned
  obtain ⟨used, rest, entries, tokens, lines, attached⟩ := File.attached_of_ofStream read
  obtain ⟨hi, places⟩ := row.ordered_placesOf
  rw [tokens, Token.placesOf_append, ordered_append] at places
  obtain ⟨mid, front, _⟩ := places
  obtain ⟨ordered, each⟩ := lines.placed row.stops (TokenStream.lexical scanned)
    (by rw [tokens]; exact List.subset_append_left used rest) front
  rw [attached]
  refine ⟨⟨mid, ?_⟩, throughout_attach (Node.placed_stable _) ?_ _ _⟩
  · rw [← spansOf_plain, plain_attach, spansOf_plain]
    exact traces_spansOf _ _ _ (Block.traces_ofEntries _ _ _ ordered)
  · exact keeps_allPlaced.mp
      (Block.keeps_ofEntries Form.allPlaced_commentBlock (keeps_allPlaced.mpr each))

/-- Spans nest like the source. -/
theorem File.wellSpanned_of_ofChars {path : String} {options : Options} {source : List Char}
    {f : File} (read : File.ofChars path options source = .ok f) :
    ∃ stream, TokenStream.ofChars source = .ok stream ∧ f.statements.Pairwise Node.EndsBefore ∧
      ∀ x ∈ f.walk, x.node.WellSpanned stream.tokens := by
  obtain ⟨stream, scanned, built⟩ := Outcome.bind_eq_ok.mp read
  obtain ⟨⟨hi, ordered⟩, each⟩ := File.placed_of_ofStream scanned built
  refine ⟨stream, scanned, ordered.apart.2, fun x member => ?_⟩
  obtain ⟨v, inside, below⟩ := List.mem_flatMap.mp member
  exact (each v inside x below).wellSpanned

/-- Two branches, of which the second has a comment cut off its end, and a comment block. -/
theorem File.wellSpanned_of_branches :
    ∃ f, File.ofChars "a.bzl" ⟨.bzl, true⟩
        "if x: y, z = 1, -a\nelif z:\n  b[1:]\n # if\n\n# top\n\ng()\n".toList = .ok f ∧
      ∃ stream, TokenStream.ofChars
          "if x: y, z = 1, -a\nelif z:\n  b[1:]\n # if\n\n# top\n\ng()\n".toList = .ok stream ∧
        f.statements.Pairwise Node.EndsBefore ∧
          ∀ x ∈ f.walk, x.node.WellSpanned stream.tokens := by
  obtain ⟨f, read⟩ : ∃ f, File.ofChars "a.bzl" ⟨.bzl, true⟩
      "if x: y, z = 1, -a\nelif z:\n  b[1:]\n # if\n\n# top\n\ng()\n".toList = .ok f :=
    Outcome.exists_eq_ok (by cbv)
  exact ⟨f, read, File.wellSpanned_of_ofChars read⟩

end Starlark
