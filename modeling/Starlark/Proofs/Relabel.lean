import Starlark.Proofs.Shift
import Starlark.Proofs.Source

/-!
# Tokens in other places

A relabeling gives each token another place that a shift does not tell from
the old one. Its kind and its text stay, and nothing else of a token decides how
it is read: what tokens spell, the relabeled tokens spell, up to the shift
(`Spells.retold`, `StmtLine.retold`).
-/

set_option autoImplicit false

namespace Starlark

open Reader (Listed)

/-- A way of giving tokens other places, which a shift does not see. -/
structure Relabeling (φ : Shift) where
  token : Token → Token
  kind : ∀ t, (token t).kind = t.kind
  text : ∀ t, (token t).text = t.text
  pos : ∀ t, φ.place (token t).pos = φ.place t.pos
  stop : ∀ t, φ.place (token t).stop = φ.place t.stop

attribute [simp] Relabeling.kind Relabeling.text Relabeling.pos Relabeling.stop

/-- Every token stays where it is. -/
def Relabeling.still : Relabeling .still :=
  ⟨id, fun _ => rfl, fun _ => rfl, fun _ => rfl, fun _ => rfl⟩

variable {φ : Shift} (ρ : Relabeling φ)

/-! ## Nodes made of tokens -/

theorem Relabeling.line_pos (t : Token) : (ρ.token t).pos.line = t.pos.line := by
  rw [← φ.line, ρ.pos, φ.line]

theorem Relabeling.headD_kind (ts : List Token) :
    ((ts.map ρ.token).headD .ended).kind = (ts.headD .ended).kind := by
  cases ts <;> simp

@[simp] theorem Node.moved_ofName (t : Token) :
    (Node.ofName t).moved φ = .bare (.ident (φ.place t.pos) t.text) := Node.moved_bare φ _

@[simp] theorem Node.moved_joined (assigns : Bool) (x : Node) (p : Position) (op : String)
    (y : Node) :
    (Node.joined assigns x p op y).moved φ =
      .joined assigns (x.moved φ) (φ.place p) op (y.moved φ) := by
  simp [Node.joined, Form.moved]

@[simp] theorem Node.moved_bareTuple (parts : List Node) :
    (Node.bareTuple parts).moved φ =
      .bare (.collection .bareTuple (φ.place .nowhere) (parts.map (Node.moved φ))
        (.at (φ.place .nowhere)) ⟨true, false⟩) := by
  simp [Node.bareTuple, Form.moved, movedList_eq_map, Close.moved, Close.at]

@[simp] theorem Node.moved_collected (kind : Collection) (a b : Token) (parts : List Node) :
    (Node.collected kind a parts b).moved φ =
      .bare (.collection kind (φ.place a.pos) (parts.map (Node.moved φ)) (.at (φ.place b.pos))
        (.ofParts (φ.place a.pos) (parts.map (Node.moved φ)) (φ.place b.pos))) := by
  simp [Node.collected, Form.moved, movedList_eq_map, Close.moved, Close.at, Layout.ofParts_moved]

theorem Name.moved_mk (p : Position) (text : String) (c : Comments) :
    (Name.mk p text c).moved φ = ⟨φ.place p, text, c⟩ := rfl

@[simp] theorem Close.moved_at (p : Position) : (Close.at p).moved φ = .at (φ.place p) := rfl

/-! ## Strings -/

theorem StringLit.ofToken_retold {t : Token} {lit : StringLit}
    (value : StringLit.ofToken t = .ok lit) :
    ∃ lit', StringLit.ofToken (ρ.token t) = .ok lit' ∧ lit'.moved φ = lit.moved φ := by
  unfold StringLit.ofToken at value ⊢
  rw [ρ.text]
  split at value
  · cases value
    exact ⟨_, rfl, by simp [StringLit.moved]⟩
  · cases value

/-- Relabeled strings have the same literals, up to the shift. -/
theorem StringLit.mapM_retold {ts : List Token} {lits : List StringLit}
    (values : ts.mapM StringLit.ofToken = .ok lits) :
    ∃ lits', (ts.map ρ.token).mapM StringLit.ofToken = .ok lits' ∧
      lits'.map (StringLit.moved φ) = lits.map (StringLit.moved φ) := by
  induction ts generalizing lits with
  | nil =>
      cases values
      exact ⟨[], rfl, rfl⟩
  | cons t ts ih =>
      obtain ⟨lit, rest, first, others, rfl⟩ := Outcome.mapM_cons_eq_ok.mp values
      obtain ⟨lit', first', same⟩ := ofToken_retold ρ first
      obtain ⟨rest', others', sames⟩ := ih others
      refine ⟨lit' :: rest', Outcome.mapM_cons_eq_ok.mpr ⟨lit', rest', first', others', rfl⟩, ?_⟩
      rw [List.map_cons, List.map_cons, same, sames]

/-- Strings that are joined stay joined in their new places. -/
theorem Node.moved_ofStrings (first : StringLit) (rest : List StringLit) :
    (Node.ofStrings first rest).moved φ =
      Node.ofStrings (first.moved φ) (rest.map (StringLit.moved φ)) := by
  have folded : ∀ x : Node,
      (rest.foldl (fun x lit => .joined false x lit.start "+" (.bare (.string lit))) x).moved φ =
        (rest.map (StringLit.moved φ)).foldl
          (fun x lit => .joined false x lit.start "+" (.bare (.string lit))) (x.moved φ) := by
    induction rest with
    | nil => exact fun _ => rfl
    | cons lit rest ih =>
        intro x
        rw [List.foldl_cons, ih, List.map_cons, List.foldl_cons, Node.moved_joined]
        simp [Form.moved, StringLit.moved]
  rw [Node.ofStrings, folded, Node.ofStrings, Node.moved_bare]
  simp [Form.moved]

/-! ## Expressions -/

/-- Relabeled tokens of an operator are tokens of the operator. -/
theorem OperatorTokens.retold {layer : Nat} {next : Token.Kind} {ts : List Token} {pos : Position}
    {op : String} (operator : OperatorTokens layer next ts pos op) :
    ∃ pos', OperatorTokens layer next (ts.map ρ.token) pos' op ∧ φ.place pos' = φ.place pos := by
  cases operator with
  | @single t known notWord alone =>
      refine ⟨(ρ.token t).pos, ?_, ρ.pos t⟩
      rw [← ρ.text t]
      exact .single (by simpa using known) (by simpa using notWord) (by simpa using alone)
  | @notIn s t known first second =>
      exact ⟨(ρ.token s).pos, .notIn (by simpa using known) (by simpa using first)
        (by simpa using second), ρ.pos s⟩
  | @isNot s t known first second =>
      exact ⟨(ρ.token s).pos, .isNot (by simpa using known) (by simpa using first)
        (by simpa using second), ρ.pos s⟩

/-- The relabeled tokens spell the nodes, up to the shift. -/
def Retold (p : Phrase) (ts : List Token) (vs : List Node) : Prop :=
  ∃ ws, Spells p (ts.map ρ.token) ws ∧ ws.map (Node.moved φ) = vs.map (Node.moved φ)

variable {ρ}

theorem Retold.of {p : Phrase} {ts us : List Token} {vs ws : List Node} (spelled : Spells p us ws)
    (tokens : ts.map ρ.token = us) (same : ws.map (Node.moved φ) = vs.map (Node.moved φ)) :
    Retold ρ p ts vs := ⟨ws, tokens ▸ spelled, same⟩

theorem Retold.one {p : Phrase} {ts : List Token} {x : Node} (retold : Retold ρ p ts [x]) :
    ∃ x', Spells p (ts.map ρ.token) [x'] ∧ x'.moved φ = x.moved φ := by
  obtain ⟨ws, spelled, same⟩ := retold
  obtain ⟨x', rfl, here⟩ := List.map_eq_singleton_iff.mp same
  exact ⟨x', spelled, here⟩

/-- A phrase that is another one, too. -/
theorem Retold.imp {p q : Phrase} {ts : List Token} {x : Node} (retold : Retold ρ p ts [x])
    (also : ∀ {us : List Token} {y : Node}, Spells p us [y] → Spells q us [y]) :
    Retold ρ q ts [x] := by
  obtain ⟨x', spelled, same⟩ := retold.one
  exact ⟨[x'], also spelled, by simp [same]⟩

theorem head?_moved {vs ws : List Node} (same : ws.map (Node.moved φ) = vs.map (Node.moved φ)) :
    movedOption φ ws.head? = movedOption φ vs.head? := by
  rw [movedOption_eq_map, movedOption_eq_map, ← List.head?_map, ← List.head?_map, same]

/-- Relabelled tokens spell the same tree with its places moved, by induction on the grammar. -/
theorem Spells.retold {p : Phrase} {ts : List Token} {vs : List Node} (spells : Spells p ts vs) :
    Retold ρ p ts vs := by
  induction spells with
  | @name t named => exact .of (.name (t := ρ.token t) (by simpa using named)) rfl (by simp)
  | @number t kind =>
      exact .of (.number ((ρ.kind t).trans kind)) rfl (by simp [Form.moved])
  | @strings ts first rest kinds literals =>
      obtain ⟨lits, values, same⟩ := StringLit.mapM_retold ρ literals
      obtain ⟨first', rest', rfl, one, more⟩ := List.map_eq_cons_iff.mp same
      refine .of (.strings ?_ values) rfl ?_
      · intro t member
        obtain ⟨s, inside, rfl⟩ := List.mem_map.mp member
        exact (ρ.kind s).trans (kinds s inside)
      · simp [Node.moved_ofStrings, one, more]
  | @unit a b opening closing =>
      exact .of (.unit ((ρ.kind a).trans opening) ((ρ.kind b).trans closing)) (by simp) (by simp)
  | @paren a b ts x opening closing _ ih =>
      obtain ⟨x', inside, same⟩ := ih.one
      refine .of (.paren ((ρ.kind a).trans opening) ((ρ.kind b).trans closing) inside) (by simp) ?_
      have hint := Layout.staysOpen_moved φ a.pos b.pos [x]
      have hint' := Layout.staysOpen_moved φ (ρ.token a).pos (ρ.token b).pos [x']
      simp only [List.map_cons, List.map_nil, same, ρ.pos] at hint hint'
      simp [Form.moved, same, ← hint, ← hint']
  | @tuple a b ts us x xs opening closing _ _ several ihx ihs =>
      obtain ⟨x', first, same⟩ := ihx.one
      obtain ⟨xs', more, sames⟩ := ihs
      exact .of (.tuple ((ρ.kind a).trans opening) ((ρ.kind b).trans closing) first more
        (by simpa using several)) (by simp) (by simp [same, sames])
  | @list a b ts xs opening closing _ ih =>
      obtain ⟨xs', inside, same⟩ := ih
      exact .of (.list ((ρ.kind a).trans opening) ((ρ.kind b).trans closing) inside) (by simp)
        (by simp [same])
  | @dict a b ts xs opening closing _ ih =>
      obtain ⟨xs', inside, same⟩ := ih
      exact .of (.dict ((ρ.kind a).trans opening) ((ρ.kind b).trans closing) inside) (by simp)
        (by simp [same])
  | @set a b ts us x xs opening closing _ _ ihx ihs =>
      obtain ⟨x', first, same⟩ := ihx.one
      obtain ⟨xs', more, sames⟩ := ihs
      exact .of (.set ((ρ.kind a).trans opening) ((ρ.kind b).trans closing) first more) (by simp)
        (by simp [same, sames])
  | @listComprehension a b ts us x xs opening closing _ _ loops ihx ihs =>
      obtain ⟨x', body, same⟩ := ihx.one
      obtain ⟨xs', parts, sames⟩ := ihs
      refine .of (.listComprehension ((ρ.kind a).trans opening)
        ((ρ.kind b).trans closing) body parts
        ((ρ.headD_kind us).trans loops)) (by simp) ?_
      have hint := Layout.comprehensionStaysOpen_moved φ a.pos b.pos x xs
      have hint' := Layout.comprehensionStaysOpen_moved φ (ρ.token a).pos (ρ.token b).pos x' xs'
      simp only [same, sames, ρ.pos] at hint hint'
      simp [Form.moved, movedList_eq_map, same, sames, ← hint, ← hint']
  | @braceComprehension p a b ts us x xs opening closing phrase _ _ loops ihx ihs =>
      obtain ⟨x', body, same⟩ := ihx.one
      obtain ⟨xs', parts, sames⟩ := ihs
      refine .of (.braceComprehension ((ρ.kind a).trans opening) ((ρ.kind b).trans closing) phrase
        body parts ((ρ.headD_kind us).trans loops)) (by simp) ?_
      have hint := Layout.comprehensionStaysOpen_moved φ a.pos b.pos x xs
      have hint' := Layout.comprehensionStaysOpen_moved φ (ρ.token a).pos (ρ.token b).pos x' xs'
      simp only [same, sames, ρ.pos] at hint hint'
      simp [Form.moved, movedList_eq_map, same, sames, ← hint, ← hint']
  | @entry c ts us x y _ colon _ ihx ihy =>
      obtain ⟨x', key, one⟩ := ihx.one
      obtain ⟨y', value, two⟩ := ihy.one
      exact .of (.entry key ((ρ.kind c).trans colon) value) (by simp)
        (by simp [Form.moved, one, two])
  | noClause => exact .of .noClause rfl rfl
  | @forClause a b ts us vs x y zs loops _ inside _ _ ihx ihy ihs =>
      obtain ⟨x', bound, one⟩ := ihx.one
      obtain ⟨y', range, two⟩ := ihy.one
      obtain ⟨zs', more, sames⟩ := ihs
      exact .of (.forClause ((ρ.kind a).trans loops) bound ((ρ.kind b).trans inside) range more)
        (by simp) (by simp [Form.moved, one, two, sames])
  | @ifClause a ts us x zs tests _ _ ihx ihs =>
      obtain ⟨x', cond, one⟩ := ihx.one
      obtain ⟨zs', more, sames⟩ := ihs
      exact .of (.ifClause ((ρ.kind a).trans tests) cond more) (by simp)
        (by simp [Form.moved, one, sames])
  | atom _ ih => exact ih.imp .atom
  | @dot d t ts x _ dot named ih =>
      obtain ⟨x', inner, same⟩ := ih.one
      exact .of (.dot (t := ρ.token t) inner ((ρ.kind d).trans dot) (by simpa using named))
        (by simp)
        (by simp [Form.moved, same])
  | @call a b ts us x xs _ opening _ closing ihx ihs =>
      obtain ⟨x', callee, same⟩ := ihx.one
      obtain ⟨xs', args, sames⟩ := ihs
      refine .of (.call callee ((ρ.kind a).trans opening) args ((ρ.kind b).trans closing))
        (by simp) ?_
      have hint := Layout.ofParts_moved φ a.pos b.pos xs
      have hint' := Layout.ofParts_moved φ (ρ.token a).pos (ρ.token b).pos xs'
      simp only [sames, ρ.pos] at hint hint'
      simp [Form.moved, movedList_eq_map, same, sames, ← hint, ← hint']
  | @index a b ts us x y _ opening _ closing ihx ihy =>
      obtain ⟨x', inner, one⟩ := ihx.one
      obtain ⟨y', place, two⟩ := ihy.one
      exact .of (.index inner ((ρ.kind a).trans opening) place ((ρ.kind b).trans closing)) (by simp)
        (by simp [Form.moved, one, two])
  | @slice a b c ts us vs x lower upper _ opening _ colon _ closing ihx ihl ihu =>
      obtain ⟨x', inner, same⟩ := ihx.one
      obtain ⟨lower', start, lowers⟩ := ihl
      obtain ⟨upper', stop, uppers⟩ := ihu
      exact .of (.slice inner ((ρ.kind a).trans opening) start ((ρ.kind c).trans colon) stop
        ((ρ.kind b).trans closing)) (by simp)
        (by simp [Form.moved, movedOption, same, head?_moved lowers, head?_moved uppers])
  | @stepSlice a b c d ts us vs ws x lower upper step _ opening _ colon _ second _ closing
      ihx ihl ihu ihs =>
      obtain ⟨x', inner, same⟩ := ihx.one
      obtain ⟨lower', start, lowers⟩ := ihl
      obtain ⟨upper', stop, uppers⟩ := ihu
      obtain ⟨step', stride, steps⟩ := ihs
      exact .of (.stepSlice inner ((ρ.kind a).trans opening) start ((ρ.kind c).trans colon) stop
        ((ρ.kind d).trans second) stride ((ρ.kind b).trans closing)) (by simp)
        (by simp [Form.moved, same, head?_moved lowers, head?_moved uppers, head?_moved steps])
  | @starred s ts x star _ ih =>
      obtain ⟨x', inner, same⟩ := ih.one
      exact .of (.starred (s := ρ.token s) (by simpa using star) inner) (by simp)
        (by simp [Form.moved, movedOption, same])
  | @keyword e ts us x y _ eq _ ihx ihy =>
      obtain ⟨x', left, one⟩ := ihx.one
      obtain ⟨y', right, two⟩ := ihy.one
      exact .of (.keyword left ((ρ.kind e).trans eq) right) (by simp) (by simp [one, two])
  | positional _ ih => exact ih.imp .positional
  | operand _ ih => exact ih.imp .operand
  | @sign s ts x sign _ ih =>
      obtain ⟨x', inner, same⟩ := ih.one
      exact .of (.sign (s := ρ.token s) (by simpa using sign) inner) (by simp)
        (by simp [Form.moved, movedOption, same])
  | tighter _ ih => exact ih.imp .tighter
  | @binary count ts os us pos op x y _ operator _ ihx ihy =>
      obtain ⟨x', left, one⟩ := ihx.one
      obtain ⟨y', right, two⟩ := ihy.one
      obtain ⟨pos', operator', place⟩ := operator.retold ρ
      rw [← ρ.headD_kind us] at operator'
      exact .of (.binary left operator' right) (by simp) (by simp [one, two, place])
  | @starStarParam types s t star named =>
      exact .of (.starStarParam (t := ρ.token t) ((ρ.kind s).trans star) (by simpa using named))
        (by simp) (by simp [Form.moved, movedOption])
  | @starParam types s t star named =>
      exact .of (.starParam (t := ρ.token t) ((ρ.kind s).trans star) (by simpa using named))
        (by simp) (by simp [Form.moved, movedOption])
  | @bareStar types s star =>
      exact .of (.bareStar ((ρ.kind s).trans star)) (by simp) (by simp [Form.moved, movedOption])
  | @plainParam types t named =>
      exact .of (.plainParam (t := ρ.token t) (by simpa using named)) rfl (by simp)
  | @defaultParam types t e ts y named eq _ ih =>
      obtain ⟨y', value, same⟩ := ih.one
      exact .of (.defaultParam (t := ρ.token t) (by simpa using named) ((ρ.kind e).trans eq) value)
        (by simp) (by simp [same])
  | @typedParam t c ts x named colon _ ih =>
      obtain ⟨x', type, same⟩ := ih.one
      exact .of (.typedParam (t := ρ.token t) (by simpa using named) ((ρ.kind c).trans colon) type)
        (by simp) (by simp [Form.moved, Name.moved_mk, same])
  | @typedDefaultParam t c e ts us x y named colon _ eq _ ihx ihy =>
      obtain ⟨x', type, one⟩ := ihx.one
      obtain ⟨y', value, two⟩ := ihy.one
      exact .of (.typedDefaultParam (t := ρ.token t) (by simpa using named) ((ρ.kind c).trans colon)
        type ((ρ.kind e).trans eq) value) (by simp) (by simp [Form.moved, Name.moved_mk, one, two])
  | noParam => exact .of .noParam rfl rfl
  | lastParam _ ih => exact ih.imp .lastParam
  | @moreParams types c ts us x xs _ comma _ ihx ihs =>
      obtain ⟨x', first, same⟩ := ihx.one
      obtain ⟨xs', more, sames⟩ := ihs
      exact .of (.moreParams first ((ρ.kind c).trans comma) more) (by simp) (by simp [same, sames])
  | disjunction _ ih => exact ih.imp .disjunction
  | @conditional a b ts us vs x y z _ tests _ otherwise _ ihx ihy ihz =>
      obtain ⟨x', yes, one⟩ := ihx.one
      obtain ⟨y', cond, two⟩ := ihy.one
      obtain ⟨z', no, three⟩ := ihz.one
      exact .of (.conditional yes ((ρ.kind a).trans tests) cond ((ρ.kind b).trans otherwise) no)
        (by simp) (by simp [Form.moved, one, two, three])
  | @lambda a c ts us xs y opening _ colon _ ihs ihy =>
      obtain ⟨xs', parts, sames⟩ := ihs
      obtain ⟨y', body, same⟩ := ihy.one
      exact .of (.lambda ((ρ.kind a).trans opening) parts ((ρ.kind c).trans colon) body) (by simp)
        (by simp [Form.moved, movedList_eq_map, same, sames])
  | single _ ih => exact ih.imp .single
  | several _ _ commas ihx ihs =>
      obtain ⟨x', first, same⟩ := ihx.one
      obtain ⟨xs', more, sames⟩ := ihs
      exact .of (.several first more (by simpa using commas)) (by simp) (by simp [same, sames])
  | target _ ih => exact ih.imp .target
  | severalTargets _ _ commas ihx ihs =>
      obtain ⟨x', first, same⟩ := ihx.one
      obtain ⟨xs', more, sames⟩ := ihs
      exact .of (.severalTargets first more (by simpa using commas)) (by simp)
        (by simp [same, sames])
  | noMore => exact .of .noMore rfl rfl
  | @lastComma p c comma => exact .of (.lastComma ((ρ.kind c).trans comma)) rfl rfl
  | @oneMore p c ts us x xs comma _ _ ihx ihs =>
      obtain ⟨x', next, same⟩ := ihx.one
      obtain ⟨xs', more, sames⟩ := ihs
      exact .of (.oneMore ((ρ.kind c).trans comma) next more) (by simp) (by simp [same, sames])
  | noItem => exact .of .noItem rfl rfl
  | someItems _ _ ihx ihs =>
      obtain ⟨x', first, same⟩ := ihx.one
      obtain ⟨xs', more, sames⟩ := ihs
      exact .of (.someItems first more) (by simp) (by simp [same, sames])
  | missing => exact .of .missing rfl rfl
  | present _ ih => exact ih.imp .present

/-! ## Statements without a body -/

/-- A relabeled token gives the same symbol, up to the shift. -/
theorem Reader.symbolOf_retold {t : Token} {x : Name} (value : Reader.symbolOf t = .ok x) :
    ∃ x', Reader.symbolOf (ρ.token t) = .ok x' ∧ x'.moved φ = x.moved φ := by
  obtain ⟨lit, literal, same⟩ := Outcome.bind_eq_ok.mp value
  obtain ⟨lit', literal', moved⟩ := StringLit.ofToken_retold ρ literal
  obtain ⟨start, val, triple, _, _⟩ := StringLit.mk.inj moved
  refine ⟨_, Outcome.bind_eq_ok.mpr ⟨lit', literal', rfl⟩, ?_⟩
  cases same
  simp only [Name.moved, ρ.text, val, triple]
  congr 1
  -- a mark in front of the quotes, and then the quotes, are passed one by one
  have quotes {p q : Position} (marked : φ.place p = φ.place q) :
      φ.place (if lit.triple then p.right.right.right else p.right) =
        φ.place (if lit.triple then q.right.right.right else q.right) := by
    split
    · exact φ.right (φ.right (φ.right marked))
    · exact φ.right marked
  refine quotes ?_
  split
  · exact φ.right start
  · exact φ.right start
  · exact start

theorem BindingTokens.retold {ts : List Token} {b : Binding} (binding : BindingTokens ts b) :
    ∃ b', BindingTokens (ts.map ρ.token) b' ∧ b'.moved φ = b.moved φ := by
  cases binding with
  | @symbol t x kind value =>
      obtain ⟨x', value', same⟩ := Reader.symbolOf_retold value
      exact ⟨_, .symbol ((ρ.kind t).trans kind) value', by simp [Binding.moved, same]⟩
  | @renamed t e s x named eq kind value =>
      obtain ⟨x', value', same⟩ := Reader.symbolOf_retold value
      exact ⟨_, .renamed (t := ρ.token t) (by simpa using named) ((ρ.kind e).trans eq)
        ((ρ.kind s).trans kind) value', by simp [Binding.moved, same, Name.moved_mk]⟩

/-- Relabeled tokens list the same symbols, up to the shift. -/
theorem bindings_retold {ts : List Token} {bs : List Binding}
    (listed : Listed BindingTokens ts bs) :
    ∃ bs', Listed BindingTokens (ts.map ρ.token) bs' ∧
      bs'.map (Binding.moved φ) = bs.map (Binding.moved φ) := by
  induction listed with
  | none => exact ⟨[], .none, rfl⟩
  | @comma c comma => exact ⟨[], .comma ((ρ.kind c).trans comma), rfl⟩
  | @item c used more b bs comma first _ ih =>
      obtain ⟨b', first', same⟩ := first.retold (ρ := ρ)
      obtain ⟨bs', rest', sames⟩ := ih
      refine ⟨b' :: bs', ?_, by simp [same, sames]⟩
      rw [List.map_cons, List.map_append]
      exact .item ((ρ.kind c).trans comma) first' rest'

/-- Relabeled tokens make the same small statement, up to the shift. -/
theorem SmallStmt.retold {ts : List Token} {v : Node} (stmt : SmallStmt ts v) :
    ∃ v', SmallStmt (ts.map ρ.token) v' ∧ v'.moved φ = v.moved φ := by
  cases stmt with
  | @returnNothing t key =>
      exact ⟨_, .returnNothing ((ρ.kind t).trans key), by simp [Form.moved, movedOption]⟩
  | @returnValue t ts x key value =>
      obtain ⟨x', value', same⟩ := (value.retold (ρ := ρ)).one
      exact ⟨_, .returnValue ((ρ.kind t).trans key) value', by simp [Form.moved, movedOption, same]⟩
  | @branch t key =>
      exact ⟨_, .branch (t := ρ.token t) (by simpa using key), by simp [Form.moved]⟩
  | @load a b c d ts label bindings key opening kind value symbols closing =>
      obtain ⟨label', value', same⟩ := StringLit.ofToken_retold ρ value
      obtain ⟨bindings', symbols', sames⟩ := bindings_retold (ρ := ρ) symbols
      rw [List.map_cons, List.map_cons, List.map_cons, List.map_append]
      exact ⟨_, .load ((ρ.kind a).trans key) ((ρ.kind b).trans opening) ((ρ.kind c).trans kind)
        value' symbols' ((ρ.kind d).trans closing), by simp [Form.moved, same, sames, ρ.line_pos]⟩
  | @assign e ts us x y left eq right other =>
      obtain ⟨x', left', one⟩ := (left.retold (ρ := ρ)).one
      obtain ⟨y', right', two⟩ := (right.retold (ρ := ρ)).one
      rw [List.map_append, List.map_cons]
      exact ⟨_, .assign (e := ρ.token e) left' (by simpa using eq) right' (by rwa [ρ.headD_kind]),
        by simp [one, two]⟩
  | value plain other =>
      obtain ⟨x', plain', same⟩ := (plain.retold (ρ := ρ)).one
      exact ⟨x', .value plain' (by rwa [ρ.headD_kind]), same⟩

/-- The rest of a line, with another end. -/
theorem LineRest.retold {ts : List Token} {vs : List Node} (rest : LineRest ts vs) :
    ∃ front last, ts = front ++ [last] ∧ Inline front ∧ last.kind = .newline ∧
      ∀ {t : Token}, t.kind = .newline → ∃ ws, LineRest (front.map ρ.token ++ [t]) ws ∧
        ws.map (Node.moved φ) = vs.map (Node.moved φ) := by
  induction rest with
  | @done t ends => exact ⟨[], t, rfl, by simp, ends, fun ends' => ⟨[], .done ends', rfl⟩⟩
  | @semi s t semi ends =>
      exact ⟨[s], t, rfl, by simp [semi], ends,
        fun ends' => ⟨[], .semi ((ρ.kind s).trans semi) ends', rfl⟩⟩
  | @next s ts us x xs semi first _ ih =>
      obtain ⟨front, last, rfl, inline, ends, more⟩ := ih
      obtain ⟨x', first', same⟩ := first.retold (ρ := ρ)
      refine ⟨s :: (ts ++ front), last, by simp, by simp [semi, first.inline, inline], ends, ?_⟩
      intro t ends'
      obtain ⟨xs', more', sames⟩ := more ends'
      refine ⟨x' :: xs', ?_, by simp [same, sames]⟩
      simpa using .next ((ρ.kind s).trans semi) first' more'

/-- A line of small statements, with another end. -/
theorem StmtLine.retold {ts : List Token} {vs : List Node} (line : StmtLine ts vs) :
    ∃ front last, ts = front ++ [last] ∧ Inline front ∧ front ≠ [] ∧ last.kind = .newline ∧
      ∀ {t : Token}, t.kind = .newline → ∃ ws, StmtLine (front.map ρ.token ++ [t]) ws ∧
        ws.map (Node.moved φ) = vs.map (Node.moved φ) := by
  cases line with
  | @mk ts us x xs first more =>
      obtain ⟨front, last, rfl, inline, ends, rest⟩ := more.retold (ρ := ρ)
      obtain ⟨x', first', same⟩ := first.retold (ρ := ρ)
      refine ⟨ts ++ front, last, by simp, by simp [first.inline, inline], ?_, ends, ?_⟩
      · obtain ⟨t, member, _⟩ := first.start_mem
        exact List.append_ne_nil_of_left_ne_nil (List.ne_nil_of_mem member) front
      intro t ends'
      obtain ⟨xs', rest', sames⟩ := rest ends'
      refine ⟨x' :: xs', ?_, by simp [same, sames]⟩
      simpa using StmtLine.mk first' rest'

end Starlark
