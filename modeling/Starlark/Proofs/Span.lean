import Starlark.Proofs.Lexeme.Row
import Starlark.Proofs.Shape.Statement
import Starlark.Proofs.Throughout

/-!
# Where expressions stand

The tokens of a source stand in order, and so do the nodes that are read from
them: each node reaches over its parts, and no further than its own tokens do.

Order is a matter of offsets. `Ordered lo xs hi` says that the offsets `xs` do
not decrease and lie between two bounds; it splits wherever the row of offsets
does (`ordered_append`). What is read between two bounds stays between them
(`Spells.seated`), and the bounds of its parts are found by splitting the row
of its tokens.
-/

set_option autoImplicit false

namespace Starlark

/-! ## Rows of offsets -/

/-- Offsets that do not decrease, between two bounds. -/
def Ordered : Nat → List Nat → Nat → Prop
  | lo, [], hi => lo ≤ hi
  | lo, x :: xs, hi => lo ≤ x ∧ Ordered x xs hi

section Ordered

variable {lo lo' hi hi' : Nat} {xs ys : List Nat}

@[simp] theorem ordered_nil : Ordered lo [] hi ↔ lo ≤ hi := Iff.rfl

@[simp] theorem ordered_cons {x : Nat} :
    Ordered lo (x :: xs) hi ↔ lo ≤ x ∧ Ordered x xs hi := Iff.rfl

/-- Spans are ordered if they are on either side of some place. -/
theorem ordered_append :
    Ordered lo (xs ++ ys) hi ↔ ∃ mid, Ordered lo xs mid ∧ Ordered mid ys hi := by
  induction xs generalizing lo with
  | nil =>
      refine ⟨fun all => ⟨lo, Nat.le_refl lo, all⟩, ?_⟩
      rintro ⟨mid, low, all⟩
      cases ys with
      | nil => exact Nat.le_trans low all
      | cons y ys => exact ⟨Nat.le_trans low all.1, all.2⟩
  | cons x xs ih => simp only [List.cons_append, ordered_cons, ih, ← exists_and_left, and_assoc]

theorem Ordered.le (ordered : Ordered lo xs hi) : lo ≤ hi := by
  induction xs generalizing lo with
  | nil => exact ordered
  | cons x xs ih => exact Nat.le_trans ordered.1 (ih ordered.2)

/-- A row stands between wider bounds too. -/
theorem Ordered.mono (ordered : Ordered lo xs hi) (low : lo' ≤ lo) (high : hi ≤ hi') :
    Ordered lo' xs hi' := by
  induction xs generalizing lo lo' with
  | nil => exact Nat.le_trans low (Nat.le_trans ordered high)
  | cons x xs ih => exact ⟨Nat.le_trans low ordered.1, ih ordered.2 (Nat.le_refl x)⟩

theorem Ordered.sublist (ordered : Ordered lo ys hi) (fewer : xs.Sublist ys) :
    Ordered lo xs hi := by
  induction fewer generalizing lo with
  | slnil => exact ordered
  | cons y _ ih => exact (ih ordered.2).mono ordered.1 (Nat.le_refl hi)
  | cons_cons y _ ih => exact ⟨ordered.1, ih ordered.2⟩

end Ordered

/-- The offsets at which some tokens start and stop. -/
def Token.placesOf (ts : List Token) : List Nat := ts.flatMap fun t => [t.pos.offset, t.stop.offset]

/-- The offsets at which some nodes start and stop. -/
def spansOf (vs : List Node) : List Nat := vs.flatMap fun v => [v.start.offset, v.stop.offset]

open Token (placesOf)

@[simp] theorem Token.placesOf_nil : placesOf [] = [] := rfl

@[simp] theorem Token.placesOf_cons (t : Token) (ts : List Token) :
    placesOf (t :: ts) = t.pos.offset :: t.stop.offset :: placesOf ts := rfl

@[simp] theorem Token.placesOf_append (ts us : List Token) :
    placesOf (ts ++ us) = placesOf ts ++ placesOf us := List.flatMap_append

@[simp] theorem spansOf_nil : spansOf [] = [] := rfl

@[simp] theorem spansOf_cons (v : Node) (vs : List Node) :
    spansOf (v :: vs) = v.start.offset :: v.stop.offset :: spansOf vs := rfl

@[simp] theorem spansOf_append (vs ws : List Node) :
    spansOf (vs ++ ws) = spansOf vs ++ spansOf ws := List.flatMap_append

/-- Nodes in a row end where the last of them does. -/
theorem Ordered.lastStop {lo hi : Nat} {v : Node} {vs : List Node}
    (ordered : Ordered lo (spansOf (v :: vs)) hi) :
    ∃ last ∈ v :: vs, lastStop (v :: vs) = some last.stop ∧
      Ordered lo (spansOf (v :: vs)) last.stop.offset ∧ last.stop.offset ≤ hi := by
  induction vs generalizing lo v with
  | nil =>
      obtain ⟨low, inner, high⟩ := ordered
      exact ⟨v, by simp, rfl, ⟨low, inner, Nat.le_refl _⟩, high⟩
  | cons u vs ih =>
      obtain ⟨low, inner, rest⟩ := ordered
      obtain ⟨last, member, stop, upTo, high⟩ := ih rest
      exact ⟨last, List.mem_cons_of_mem v member, stop, ⟨low, inner, upTo⟩, high⟩

/-! ## Nodes in their places -/

/-- A place where a token inside a line starts. -/
def Token.StartsAt (tokens : List Token) (p : Position) : Prop :=
  ∃ t ∈ tokens, t.kind.isInline = true ∧ t.pos = p

/-- A place where a token inside a line stops. -/
def Token.StopsAt (tokens : List Token) (p : Position) : Prop :=
  ∃ t ∈ tokens, t.kind.isInline = true ∧ t.stop = p

/-- A form that is neither a statement with a body nor a comment block. -/
def Form.isInner (f : Form) : Bool := !f.isBlock && !f.isCommentBlock

/-- A form as expressions are: it reaches over its parts, which stand in order,
from the start of a token to the end of one. -/
structure Form.Seated (tokens : List Token) (f : Form) : Prop where
  inner : f.isInner = true
  nests : Ordered f.start.offset (spansOf f.children) f.stop.offset
  starts : Token.StartsAt tokens f.start
  stops : Token.StopsAt tokens f.stop

@[simp] theorem Node.start_form (v : Node) : v.form.start = v.start := by
  cases v
  rw [form_mk, Node.start]

@[simp] theorem Node.stop_form (v : Node) : v.form.stop = v.stop := by
  cases v
  rw [form_mk, Node.stop]

theorem Position.add_singleton {p : Position} {text : String} {c : Char}
    (single : text.toList = [c])
    (line : c ≠ '\n') (narrow : c.utf8Size = 1) : p.add text = p.right := by
  simp [add, single, advance, next, line, right, narrow]

/-! ## Nodes where their tokens are -/

/-- Nodes that stand where some of the tokens of a source do: between whatever
bounds the tokens are ordered, the nodes are. -/
def Seats (tokens ts : List Token) (vs : List Node) : Prop :=
  ∀ lo hi : Nat, Ordered lo (placesOf ts) hi →
    Ordered lo (spansOf vs) hi ∧ ∀ v ∈ vs, v.Throughout fun u => u.form.Seated tokens

namespace Seats

variable {tokens ts us : List Token} {vs ws : List Node}

theorem nil : Seats tokens [] [] := fun _ _ row => ⟨row, nofun⟩

theorem append (left : Seats tokens ts vs) (right : Seats tokens us ws) :
    Seats tokens (ts ++ us) (vs ++ ws) := by
  intro lo hi row
  rw [Token.placesOf_append, ordered_append] at row
  obtain ⟨mid, first, second⟩ := row
  obtain ⟨before, each⟩ := left lo mid first
  obtain ⟨behind, others⟩ := right mid hi second
  rw [spansOf_append, ordered_append]
  exact ⟨⟨mid, before, behind⟩, List.forall_mem_append.mpr ⟨each, others⟩⟩

/-- Tokens around those of some nodes do not matter. -/
theorem sublist (seats : Seats tokens ts vs) (more : ts.Sublist us) : Seats tokens us vs :=
  fun lo hi row => seats lo hi (row.sublist (more.flatMap _))

theorem none : Seats tokens ts [] := nil.sublist (List.nil_sublist ts)

theorem skip (t : Token) (seats : Seats tokens ts vs) : Seats tokens (t :: ts) vs :=
  seats.sublist (List.sublist_cons_self t ts)

/-- A node stands where its tokens do when its parts do and it reaches over them. -/
theorem node {f : Form} (inner : f.isInner = true) (parts : Seats tokens ts f.children)
    (reach : ∀ lo hi, Ordered lo (placesOf ts) hi → lo ≤ f.start.offset ∧ f.stop.offset ≤ hi ∧
      Ordered f.start.offset (spansOf f.children) f.stop.offset ∧
      Token.StartsAt tokens f.start ∧ Token.StopsAt tokens f.stop) :
    Seats tokens ts [.bare f] := by
  intro lo hi row
  obtain ⟨low, high, nests, starts, stops⟩ := reach lo hi row
  refine ⟨⟨low, nests.le, high⟩, List.forall_mem_singleton.mpr ?_⟩
  exact Node.throughout_iff.mpr ⟨⟨inner, nests, starts, stops⟩, (parts lo hi row).2⟩

/-- A part of a node that stands where its tokens do. -/
theorem seated {x : Node} (seats : Seats tokens ts [x]) {lo hi : Nat}
    (row : Ordered lo (placesOf ts) hi) :
    (lo ≤ x.start.offset ∧ x.start.offset ≤ x.stop.offset ∧ x.stop.offset ≤ hi) ∧
      Token.StartsAt tokens x.start ∧ Token.StopsAt tokens x.stop := by
  obtain ⟨⟨low, inner, high⟩, each⟩ := seats lo hi row
  obtain ⟨_, _, starts, stops⟩ := (Node.throughout_iff.mp (each x (List.mem_singleton_self x))).1
  rw [Node.start_form] at starts
  rw [Node.stop_form] at stops
  exact ⟨⟨low, inner, high⟩, starts, stops⟩

/-- A node made of one token. -/
theorem leaf {f : Form} {t : Token} (inner : f.isInner = true) (member : t ∈ tokens)
    (inline : t.kind.isInline = true) (start : f.start = t.pos) (stop : f.stop = t.stop)
    (children : f.children = []) :
    Seats tokens [t] [.bare f] := by
  refine node inner (children ▸ none) fun lo hi row => ?_
  obtain ⟨low, width, high⟩ := row
  rw [start, stop, children]
  exact ⟨low, high, width, ⟨t, member, inline, rfl⟩, ⟨t, member, inline, rfl⟩⟩

/-- A node that reaches from one token to another, with its parts between them. -/
theorem bracketed {f : Form} {a b : Token} (inner : f.isInner = true)
    (opens : a ∈ tokens ∧ a.kind.isInline = true)
    (closes : b ∈ tokens ∧ b.kind.isInline = true) (start : f.start = a.pos)
    (stop : f.stop = b.stop) (parts : Seats tokens ts f.children) :
    Seats tokens (a :: (ts ++ [b])) [.bare f] := by
  refine node inner ((parts.sublist (List.sublist_append_left ts [b])).skip a) fun lo hi row => ?_
  simp only [Token.placesOf_cons, Token.placesOf_append, Token.placesOf_nil, ordered_cons,
    ordered_append, ordered_nil] at row
  obtain ⟨low, width, mid, inside, behind, last, high⟩ := row
  have nests := (parts _ _ inside).1.mono width (Nat.le_trans behind last)
  refine ⟨by rwa [start], by rwa [stop], by rwa [start, stop], ?_, ?_⟩
  · exact ⟨a, opens.1, opens.2, start.symm⟩
  · exact ⟨b, closes.1, closes.2, stop.symm⟩

/-- A node that starts with a part and ends with a token. -/
theorem suffixed {f : Form} {b : Token} {x : Node} {xs : List Node} (inner : f.isInner = true)
    (closes : b ∈ tokens ∧ b.kind.isInline = true) (start : f.start = x.start)
    (stop : f.stop = b.stop) (children : f.children = x :: xs) (first : Seats tokens ts [x])
    (others : Seats tokens us xs) : Seats tokens (ts ++ us ++ [b]) [.bare f] := by
  have parts : Seats tokens (ts ++ us) f.children := children ▸ first.append others
  refine node inner (parts.sublist (List.sublist_append_left _ _)) fun lo hi row => ?_
  simp only [Token.placesOf_cons, Token.placesOf_append, Token.placesOf_nil, ordered_cons,
    ordered_append, ordered_nil] at row
  obtain ⟨last, ⟨mid, front, middle⟩, behind, width, high⟩ := row
  obtain ⟨⟨low, span, upTo⟩, starts, _⟩ := first.seated front
  have rest := (others _ _ middle).1.mono upTo (Nat.le_trans behind width)
  refine ⟨by rwa [start], by rwa [stop], ?_, start ▸ starts, ?_⟩
  · rw [start, stop, children]
    exact ⟨Nat.le_refl _, span, rest⟩
  · exact ⟨b, closes.1, closes.2, stop.symm⟩

/-- A node that starts with a token and ends with a part. -/
theorem prefixed {f : Form} {a : Token} {x : Node} {xs : List Node} (inner : f.isInner = true)
    (opens : a ∈ tokens ∧ a.kind.isInline = true) (start : f.start = a.pos)
    (stop : f.stop = x.stop) (children : f.children = xs ++ [x]) (others : Seats tokens ts xs)
    (last : Seats tokens us [x]) : Seats tokens (a :: (ts ++ us)) [.bare f] := by
  have parts : Seats tokens (ts ++ us) f.children := children ▸ others.append last
  refine node inner (parts.skip a) fun lo hi row => ?_
  simp only [Token.placesOf_cons, Token.placesOf_append, ordered_cons, ordered_append] at row
  obtain ⟨low, width, mid, front, back⟩ := row
  obtain ⟨⟨behind, span, high⟩, _, stops⟩ := last.seated back
  have before := (others _ _ front).1.mono width behind
  refine ⟨by rwa [start], by rwa [stop], ?_, ?_, stop ▸ stops⟩
  · rw [start, stop, children, spansOf_append, ordered_append]
    exact ⟨x.start.offset, before, Nat.le_refl _, span, Nat.le_refl _⟩
  · exact ⟨a, opens.1, opens.2, start.symm⟩

/-- A node that starts with a part and ends with a part. -/
theorem between {f : Form} {x y : Node} {xs : List Node} {ms : List Token}
    (inner : f.isInner = true) (start : f.start = x.start) (stop : f.stop = y.stop)
    (children : f.children = x :: (xs ++ [y]))
    (first : Seats tokens ts [x]) (others : Seats tokens ms xs) (last : Seats tokens us [y]) :
    Seats tokens (ts ++ (ms ++ us)) [.bare f] := by
  have parts : Seats tokens (ts ++ (ms ++ us)) f.children :=
    children ▸ first.append (others.append last)
  refine node inner parts fun lo hi row => ?_
  simp only [Token.placesOf_append, ordered_append] at row
  obtain ⟨left, front, right, middle, back⟩ := row
  obtain ⟨⟨low, span, upTo⟩, starts, _⟩ := first.seated front
  obtain ⟨⟨behind, span', high⟩, _, stops⟩ := last.seated back
  have rest := (others _ _ middle).1.mono upTo behind
  refine ⟨by rwa [start], by rwa [stop], ?_, start ▸ starts, stop ▸ stops⟩
  rw [start, stop, children, spansOf_cons, spansOf_append, ordered_cons, ordered_cons,
    ordered_append]
  exact ⟨Nat.le_refl _, span, y.start.offset, rest, Nat.le_refl _, span', Nat.le_refl _⟩

/-- Two parts and the tokens that join them. -/
theorem joined {x y : Node} (first : Seats tokens ts [x]) (last : Seats tokens us [y])
    (ms : List Token) (assigns : Bool) (pos : Position) (op : String) :
    Seats tokens (ts ++ (ms ++ us)) [.joined assigns x pos op y] :=
  between rfl rfl rfl rfl first none last

/-- Parts in a row, from the first to the last. -/
theorem tuple {x : Node} {xs : List Node} (first : Seats tokens ts [x])
    (others : Seats tokens us xs) : Seats tokens (ts ++ us) [.bareTuple (x :: xs)] := by
  have parts : Seats tokens (ts ++ us) (x :: xs) := first.append others
  refine node rfl parts fun lo hi row => ?_
  obtain ⟨ordered, each⟩ := parts lo hi row
  obtain ⟨last, member, stop, upTo, high⟩ := ordered.lastStop
  have ends : Form.stop (.collection .bareTuple .nowhere (x :: xs) (.at .nowhere) ⟨true, false⟩) =
      last.stop := by rw [Form.stop, stop, Option.getD_some]
  obtain ⟨_, _, starts, _⟩ := (Node.throughout_iff.mp (each x (by simp))).1
  obtain ⟨_, _, _, stops⟩ := (Node.throughout_iff.mp (each last member)).1
  rw [Node.start_form] at starts
  rw [Node.stop_form] at stops
  refine ⟨ordered.1, by rwa [ends], ?_, starts, by rwa [ends]⟩
  rw [ends]
  exact ⟨Nat.le_refl _, upTo.2⟩

end Seats

/-- A token that is one plain sign stops one column on. -/
theorem Token.right_eq_stop {t : Token} {s : Symbol} {c : Char} (placed : t.stop = t.pos.add t.text)
    (sound : t.word.Sound) (kind : t.kind = .symbol s) (sign : s.text.toList = [c])
    (line : c ≠ '\n') (narrow : c.utf8Size = 1) : t.pos.right = t.stop := by
  rw [placed, Token.text_of_symbol sound kind, Position.add_singleton sign line narrow]

section Spelled

variable {tokens : List Token}

/-- Adjacent strings stand where their tokens do. -/
theorem Node.seats_ofStrings {ts : List Token} {first : StringLit} {rest : List StringLit}
    (kinds : ∀ t ∈ ts, t.kind = .string)
    (literals : ts.mapM StringLit.ofToken = .ok (first :: rest)) (inside : ts ⊆ tokens) :
    Seats tokens ts [.ofStrings first rest] := by
  have single {t : Token} {lit : StringLit} (kind : t.kind = .string) (member : t ∈ tokens)
      (value : StringLit.ofToken t = .ok lit) : Seats tokens [t] [.bare (.string lit)] := by
    refine .leaf rfl member (by rw [kind]; rfl) ?_ ?_ rfl
    · exact StringLit.start_ofToken value
    · unfold StringLit.ofToken at value
      split at value
      · cases value
        rfl
      · cases value
  -- each further string joins the ones before it
  have folded :
      ∀ (us front : List Token) (x : Node) (lits : List StringLit), Seats tokens front [x] →
      (∀ t ∈ us, t.kind = .string) → us.mapM StringLit.ofToken = .ok lits → us ⊆ tokens →
      Seats tokens (front ++ us) [lits.foldl
        (fun x lit => .joined false x lit.start "+" (.bare (.string lit))) x] := by
    intro us
    induction us with
    | nil =>
        intro front x lits seats _ values _
        cases values
        simpa using seats
    | cons t us ih =>
        intro front x lits seats kinds values inside
        obtain ⟨lit, more, value, others, rfl⟩ := Outcome.mapM_cons_eq_ok.mp values
        obtain ⟨kind, kinds⟩ := List.forall_mem_cons.mp kinds
        obtain ⟨member, inside⟩ := List.cons_subset.mp inside
        have joined := seats.joined (single kind member value) [] false lit.start "+"
        have both := ih (front ++ ([] ++ [t])) _ more joined kinds others inside
        simpa using both
  cases ts with
  | nil => cases literals
  | cons t ts =>
      obtain ⟨lit, more, value, others, same⟩ := Outcome.mapM_cons_eq_ok.mp literals
      obtain ⟨rfl, rfl⟩ := List.cons.inj same
      obtain ⟨kind, kinds⟩ := List.forall_mem_cons.mp kinds
      obtain ⟨member, inside⟩ := List.cons_subset.mp inside
      exact folded ts [t] _ _ (single kind member value) kinds others inside

/-- What is read as an expression stands where its tokens do. -/
theorem Spells.seats {p : Phrase} {ts : List Token} {vs : List Node} (spells : Spells p ts vs)
    (placed : ∀ t ∈ tokens, t.stop = t.pos.add t.text) (lexical : LexicalTokens tokens)
    (inside : ts ⊆ tokens) : Seats tokens ts vs := by
  have closes {t : Token} {s : Symbol} (member : t ∈ tokens) (kind : t.kind = .symbol s)
      (sign : s = .rparen ∨ s = .rbrack ∨ s = .rbrace) :
      (t ∈ tokens ∧ t.kind.isInline = true) ∧ t.pos.right = t.stop := by
    have inline : t.kind.isInline = true := by rw [kind]; rfl
    refine ⟨⟨member, inline⟩, ?_⟩
    rcases sign with rfl | rfl | rfl <;>
      exact Token.right_eq_stop (placed t member) (lexical t member inline) kind rfl (by decide) rfl
  have named {t : Token} (member : t ∈ tokens) (name : Reader.isName t.kind = true) :
      Seats tokens [t] [.ofName t] :=
    .leaf rfl member (Token.Kind.isInline_of_isName name) rfl (placed t member).symm rfl
  have keyed {t : Token} {k : Keyword} (member : t ∈ tokens) (kind : t.kind = .keyword k) :
      t ∈ tokens ∧ t.kind.isInline = true := ⟨member, by rw [kind]; rfl⟩
  have signed {t : Token} {s : Symbol} (member : t ∈ tokens) (kind : t.kind = .symbol s) :
      t ∈ tokens ∧ t.kind.isInline = true := ⟨member, by rw [kind]; rfl⟩
  induction spells with
  | name name => exact named (inside (by simp)) name
  | number kind =>
      exact .leaf rfl (inside (by simp)) (by rw [kind]; rfl) rfl
        (placed _ (inside (by simp))).symm rfl
  | strings kinds literals => exact Node.seats_ofStrings kinds literals inside
  | @unit a b opening closing =>
      simp only [List.cons_subset] at inside
      obtain ⟨last, stop⟩ := closes inside.2.1 closing (by simp)
      have seats : Seats tokens (a :: ([] ++ [b])) [.collected .tuple a [] b] :=
        .bracketed rfl (signed inside.1 opening) last rfl (by exact stop) .nil
      exact seats
  | paren opening closing _ ih | list opening closing _ ih | dict opening closing _ ih =>
      simp only [List.cons_subset, List.append_subset] at inside
      obtain ⟨last, stop⟩ := closes inside.2.2.1 closing (by simp)
      exact .bracketed rfl (signed inside.1 opening) last rfl (by exact stop) (ih inside.2.1)
  | tuple opening closing _ _ _ first more | set opening closing _ _ first more
  | listComprehension opening closing _ _ _ first more
  | braceComprehension opening closing _ _ _ _ first more =>
      simp only [List.cons_subset, List.append_subset] at inside
      obtain ⟨last, stop⟩ := closes inside.2.2.1 closing (by simp)
      exact .bracketed rfl (signed inside.1 opening) last rfl (by exact stop)
        ((first inside.2.1.1).append (more inside.2.1.2))
  | @entry c ts us x y _ _ _ key value =>
      simp only [List.cons_subset, List.append_subset] at inside
      have seats : Seats tokens (ts ++ ([c] ++ us)) [.bare (.keyValue x c.pos y)] :=
        .between rfl rfl rfl rfl (key inside.1) .none (value inside.2.2)
      exact seats
  | noClause | noParam | noMore | noItem | missing | lastComma => exact .none
  | @forClause a b ts us vs x y zs loops _ _ _ _ bound range more =>
      simp only [List.cons_subset, List.append_subset] at inside
      have clause : Seats tokens (a :: (ts ++ [b] ++ us)) [.bare (.forClause a.pos x b.pos y)] :=
        .prefixed rfl (keyed inside.1 loops) rfl rfl rfl
          ((bound inside.2.1).sublist (List.sublist_append_left ts [b])) (range inside.2.2.2.1)
      simpa using clause.append (more inside.2.2.2.2)
  | @ifClause a ts us x zs tests _ _ cond more =>
      simp only [List.cons_subset, List.append_subset] at inside
      have clause : Seats tokens (a :: ([] ++ ts)) [.bare (.ifClause a.pos x)] :=
        .prefixed rfl (keyed inside.1 tests) rfl rfl rfl .nil (cond inside.2.1)
      simpa using clause.append (more inside.2.2)
  | atom _ ih | operand _ ih | tighter _ ih | disjunction _ ih | lastParam _ ih | present _ ih
  | positional _ ih | single _ ih | target _ ih => exact ih inside
  | @dot d t ts x _ _ name ih =>
      simp only [List.cons_subset, List.append_subset] at inside
      have seats : Seats tokens (ts ++ [d] ++ [t]) [.bare (.dot x d.pos t.pos t.text)] :=
        .suffixed rfl ⟨inside.2.2.1, Token.Kind.isInline_of_isName name⟩ rfl
          (placed t inside.2.2.1).symm rfl (ih inside.1) .none
      simpa using seats
  | @call a b ts us x xs _ _ _ closing callee args =>
      simp only [List.cons_subset, List.append_subset] at inside
      obtain ⟨last, stop⟩ := closes inside.2.2.2.1 closing (by simp)
      have seats : Seats tokens (ts ++ (a :: us) ++ [b])
          [.bare (.call x a.pos xs (.at b.pos) (.ofParts a.pos xs b.pos))] :=
        .suffixed rfl last rfl stop rfl (callee inside.1) ((args inside.2.2.1).skip a)
      simpa using seats
  | @index a b ts us x y _ _ _ closing inner place =>
      simp only [List.cons_subset, List.append_subset] at inside
      obtain ⟨last, stop⟩ := closes inside.2.2.2.1 closing (by simp)
      have seats : Seats tokens (ts ++ (a :: us) ++ [b]) [.bare (.index x a.pos y b.pos)] :=
        .suffixed rfl last rfl stop rfl (inner inside.1) ((place inside.2.2.1).skip a)
      simpa using seats
  | @slice a b c ts us vs x lower upper _ _ from' _ upTo closing inner start stop =>
      simp only [List.cons_subset, List.append_subset] at inside
      obtain ⟨last, ends⟩ := closes inside.2.2.2.2.2.1 closing (by simp)
      have parts : Seats tokens (a :: (us ++ c :: vs)) (lower ++ upper) :=
        ((start inside.2.2.1).append ((stop inside.2.2.2.2.1).skip c)).skip a
      have seats : Seats tokens (ts ++ (a :: (us ++ c :: vs)) ++ [b])
          [.bare (.slice x a.pos lower.head? c.pos upper.head? none none b.pos)] := by
        refine .suffixed rfl last rfl ends ?_ (inner inside.1) parts
        simp [Form.children, from'.toList_head?, upTo.toList_head?]
      simpa using seats
  | @stepSlice a b c d ts us vs ws x lower upper step _ _ from' _ upTo _ by' closing inner start
      stop stride =>
      simp only [List.cons_subset, List.append_subset] at inside
      obtain ⟨last, ends⟩ := closes inside.2.2.2.2.2.2.2.1 closing (by simp)
      have parts : Seats tokens (a :: (us ++ c :: (vs ++ d :: ws))) (lower ++ (upper ++ step)) :=
        ((start inside.2.2.1).append (((stop inside.2.2.2.2.1).append
          ((stride inside.2.2.2.2.2.2.1).skip d)).skip c)).skip a
      have seats : Seats tokens (ts ++ (a :: (us ++ c :: (vs ++ d :: ws))) ++ [b])
          [.bare (.slice x a.pos lower.head? c.pos upper.head? (some d.pos) step.head? b.pos)] := by
        refine .suffixed rfl last rfl ends ?_ (inner inside.1) parts
        simp [Form.children, from'.toList_head?, upTo.toList_head?, by'.toList_head?]
      simpa using seats
  | @starred s ts x star _ ih =>
      simp only [List.cons_subset] at inside
      have inline : s.kind.isInline = true := by rcases star with star | star <;> rw [star] <;> rfl
      have seats : Seats tokens (s :: ([] ++ ts)) [.bare (.unary s.pos s.text (some x))] :=
        .prefixed rfl ⟨inside.1, inline⟩ rfl rfl rfl .nil (ih inside.2)
      exact seats
  | @sign s ts x sign _ ih =>
      simp only [List.cons_subset] at inside
      have seats : Seats tokens (s :: ([] ++ ts)) [.bare (.unary s.pos s.text (some x))] :=
        .prefixed rfl ⟨inside.1, Token.Kind.isInline_of_isSign sign⟩ rfl rfl rfl .nil (ih inside.2)
      exact seats
  | @keyword e _ _ _ _ _ _ _ left right =>
      simp only [List.cons_subset, List.append_subset] at inside
      exact (left inside.1).joined (right inside.2.2) [e] true e.pos e.text
  | @binary count ts os us pos op x y _ _ _ left right =>
      simp only [List.append_subset] at inside
      rw [List.append_assoc]
      exact (left inside.1.1).joined (right inside.2) os false pos op
  | @starStarParam _ s t star name | @starParam _ s t star name =>
      simp only [List.cons_subset] at inside
      have seats :
          Seats tokens (s :: ([] ++ [t])) [.bare (.unary s.pos s.text (some (.ofName t)))] :=
        .prefixed rfl (signed inside.1 star) rfl rfl rfl .nil (named inside.2.1 name)
      exact seats
  | @bareStar _ s star =>
      have member : s ∈ tokens := inside (by simp)
      exact .leaf rfl member (signed member star).2 rfl (placed s member).symm rfl
  | plainParam name => exact named (inside (by simp)) name
  | @defaultParam _ t e _ _ name _ _ value =>
      simp only [List.cons_subset] at inside
      exact (named inside.1 name).joined (value inside.2.2) [e] true e.pos e.text
  | @typedParam t c ts x name _ _ type =>
      simp only [List.cons_subset] at inside
      have seats :
          Seats tokens (t :: ([c] ++ ts)) [.bare (.typed ⟨t.pos, t.text, .none⟩ c.pos x)] :=
        .prefixed rfl ⟨inside.1, Token.Kind.isInline_of_isName name⟩ rfl rfl rfl .none
          (type inside.2.2)
      exact seats
  | @typedDefaultParam t c e ts us x y name _ _ _ _ type value =>
      simp only [List.cons_subset, List.append_subset] at inside
      have param :
          Seats tokens (t :: ([c] ++ ts)) [.bare (.typed ⟨t.pos, t.text, .none⟩ c.pos x)] :=
        .prefixed rfl ⟨inside.1, Token.Kind.isInline_of_isName name⟩ rfl rfl rfl .none
          (type inside.2.2.1)
      exact param.joined (value inside.2.2.2.2) [e] true e.pos e.text
  | moreParams _ _ _ first more =>
      simp only [List.cons_subset, List.append_subset] at inside
      exact (first inside.1).append ((more inside.2.2).skip _)
  | @conditional a b ts us vs x y z _ _ _ _ _ yes cond no =>
      simp only [List.cons_subset, List.append_subset] at inside
      have middle : Seats tokens (a :: (us ++ [b])) [y] :=
        ((cond inside.2.2.1).sublist (List.sublist_append_left us [b])).skip a
      have seats : Seats tokens (ts ++ (a :: (us ++ [b]) ++ vs))
          [.bare (.conditional x a.pos y b.pos z)] :=
        .between rfl rfl rfl rfl (yes inside.1) middle (no inside.2.2.2.2)
      simpa using seats
  | @lambda a c ts us xs y key _ _ _ parts body =>
      simp only [List.cons_subset, List.append_subset] at inside
      have seats : Seats tokens (a :: (ts ++ [c] ++ us)) [.bare (.lambda a.pos xs c.pos y)] :=
        .prefixed rfl (keyed inside.1 key) rfl rfl rfl
          ((parts inside.2.1).sublist (List.sublist_append_left ts [c])) (body inside.2.2.2)
      simpa using seats
  | several _ _ _ first more | severalTargets _ _ _ first more =>
      simp only [List.append_subset] at inside
      exact (first inside.1).tuple (more inside.2)
  | oneMore _ _ _ next more =>
      simp only [List.cons_subset, List.append_subset] at inside
      exact ((next inside.2.1).append (more inside.2.2)).skip _
  | someItems _ _ first more =>
      simp only [List.append_subset] at inside
      exact (first inside.1).append (more inside.2)

end Spelled

end Starlark
