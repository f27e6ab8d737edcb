import Starlark.Proofs.Block.Forms
import Starlark.Proofs.Plain
import Starlark.Proofs.Source

/-!
# Names and literals

The names and literals of a source are its labels. A tree shows the labels of
the tokens it was read from, each where its token stands, in the order of the
tokens; only the name of a function is kept without its place. A `load` names
what it loads in its own way, so its tokens are held apart.

For expressions this is an equation between two lists (`Spells.labels_eq`). For
statements the tokens are cut into segments, single tokens and whole `load`
statements, and the two kinds are matched with the tree separately
(`Builds.labelled`).
-/

set_option autoImplicit false

namespace Starlark

/-! ## The labels of tokens and of trees -/

/-- A name or a literal, and its place where that is known. -/
structure Label where
  text : String
  pos : Option Position
  deriving DecidableEq

namespace Token

/-- Whether tokens of a kind are names or literals. -/
def Kind.isLabel : Kind → Bool
  | .ident | .number | .string | .keyword .load => true
  | _ => false

/-- The label that a token is. -/
def label (t : Token) : Label := ⟨t.text, some t.pos⟩

/-- A label stands for a token: it has its text, and its place if it has one. -/
def Bears (t : Token) (l : Label) : Prop := l.text = t.text ∧ ∀ pos ∈ l.pos, pos = t.pos

namespace Kind

@[simp] theorem isLabel_symbol (sign : Symbol) : isLabel (.symbol sign) = false := rfl

theorem isLabel_of_isName {kind : Kind} (named : Reader.isName kind = true) :
    kind.isLabel = true := by
  unfold Reader.isName at named
  split at named <;> first | rfl | cases named

theorem isLabel_of_isSign {kind : Kind} (sign : Reader.isSign kind = true) :
    kind.isLabel = false := by
  unfold Reader.isSign at sign
  split at sign <;> first | rfl | cases sign

theorem isLabel_of_layer? {kind : Kind} {layer : Nat} (known : Reader.layer? kind = some layer) :
    kind.isLabel = false := by
  unfold Reader.layer? at known
  split at known <;> first | rfl | cases known

end Kind

end Token

/-- The labels of some tokens. -/
def labelsIn (ts : List Token) : List Label :=
  (ts.filter fun t => t.kind.isLabel).map Token.label

@[simp] theorem labelsIn_nil : labelsIn [] = [] := rfl

@[simp] theorem labelsIn_append (ts us : List Token) :
    labelsIn (ts ++ us) = labelsIn ts ++ labelsIn us := by
  simp [labelsIn]

theorem labelsIn_cons_of_isLabel {t : Token} (label : t.kind.isLabel = true) (ts : List Token) :
    labelsIn (t :: ts) = t.label :: labelsIn ts := by
  simp [labelsIn, label]

theorem labelsIn_cons {t : Token} (other : t.kind.isLabel = false) (ts : List Token) :
    labelsIn (t :: ts) = labelsIn ts := by
  simp [labelsIn, other]

theorem labelsIn_cons_of_isName {t : Token} (named : Reader.isName t.kind = true)
    (ts : List Token) : labelsIn (t :: ts) = t.label :: labelsIn ts :=
  labelsIn_cons_of_isLabel (Token.Kind.isLabel_of_isName named) ts

/-- What a `load` names: the label of the file, and its symbols. -/
structure Load where
  label : StringLit
  bindings : List Binding
  deriving DecidableEq

namespace Form

/-- The labels of a form that stand before its parts. -/
def labelsBefore : Form → List Label
  | .ident pos name => [⟨name, some pos⟩]
  | .literal start token => [⟨token, some start⟩]
  | .string lit => [⟨lit.token, some lit.start⟩]
  | .defStmt _ name .. => [⟨name, none⟩]
  | .typed name _ _ => [⟨name.text, some name.pos⟩]
  | _ => []

/-- The labels of a form that stand behind its parts. -/
def labelsBehind : Form → List Label
  | .dot _ _ pos name => [⟨name, some pos⟩]
  | _ => []

/-- The `load` that a form is, its comments left out. -/
def load? : Form → Option Load
  | .load _ label _ bindings _ _ => some ⟨label, bindings.map Binding.plain⟩
  | _ => none

end Form

namespace Node

/-- The labels of a tree, in source order. -/
def labels (v : Node) : List Label :=
  v.form.labelsBefore ++ (v.children.attach.flatMap fun ⟨c, _⟩ => labels c) ++
    v.form.labelsBehind
termination_by sizeOf v
decreasing_by exact sizeOf_lt_of_mem_children ‹_›

/-- The `load` statements of a tree, in source order. -/
def loads (v : Node) : List Load :=
  v.form.load?.toList ++ v.children.attach.flatMap fun ⟨c, _⟩ => loads c
termination_by sizeOf v
decreasing_by exact sizeOf_lt_of_mem_children ‹_›

end Node

/-- The labels of some trees. -/
def labelsOf (vs : List Node) : List Label := vs.flatMap Node.labels

/-- The `load` statements of some trees. -/
def loadsOf (vs : List Node) : List Load := vs.flatMap Node.loads

@[simp] theorem labelsOf_nil : labelsOf [] = [] := rfl

@[simp] theorem labelsOf_cons (v : Node) (vs : List Node) :
    labelsOf (v :: vs) = v.labels ++ labelsOf vs := rfl

@[simp] theorem labelsOf_append (vs ws : List Node) :
    labelsOf (vs ++ ws) = labelsOf vs ++ labelsOf ws := List.flatMap_append

@[simp] theorem loadsOf_nil : loadsOf [] = [] := rfl

@[simp] theorem loadsOf_cons (v : Node) (vs : List Node) :
    loadsOf (v :: vs) = v.loads ++ loadsOf vs := rfl

@[simp] theorem loadsOf_append (vs ws : List Node) :
    loadsOf (vs ++ ws) = loadsOf vs ++ loadsOf ws := List.flatMap_append

/-- The labels of a form and its parts. -/
def Form.labels (f : Form) : List Label :=
  f.labelsBefore ++ labelsOf f.children ++ f.labelsBehind

/-- The `load` statements of a form and its parts. -/
def Form.loads (f : Form) : List Load := f.load?.toList ++ loadsOf f.children

@[simp] theorem Node.labels_mk (c : Comments) (f : Form) : (Node.mk c f).labels = f.labels := by
  rw [labels, Form.labels, labelsOf]
  simp [List.flatMap_subtype, children]

@[simp] theorem Node.loads_mk (c : Comments) (f : Form) : (Node.mk c f).loads = f.loads := by
  rw [loads, Form.loads, loadsOf]
  simp [List.flatMap_subtype, children]

theorem Node.labels_eq (v : Node) : v.labels = v.form.labels := by
  obtain ⟨c, f⟩ := v
  exact labels_mk c f

theorem Node.loads_eq (v : Node) : v.loads = v.form.loads := by
  obtain ⟨c, f⟩ := v
  exact loads_mk c f

/-! ## Expressions -/

@[simp] theorem Node.labels_bare (f : Form) : (Node.bare f).labels = f.labels := labels_mk _ f

@[simp] theorem Node.loads_bare (f : Form) : (Node.bare f).loads = f.loads := loads_mk _ f

@[simp] theorem Node.labels_ofName (t : Token) : (Node.ofName t).labels = [t.label] := by
  simp [Node.ofName, Form.labels, Form.labelsBefore, Form.labelsBehind, Form.children, Token.label]

@[simp] theorem Node.labels_joined (assigns : Bool) (x : Node) (pos : Position) (op : String)
    (y : Node) : (Node.joined assigns x pos op y).labels = x.labels ++ y.labels := by
  simp [Node.joined, Form.labels, Form.labelsBefore, Form.labelsBehind, Form.children]

@[simp] theorem Node.labels_collected (kind : Collection) (a : Token) (xs : List Node) (b : Token) :
    (Node.collected kind a xs b).labels = labelsOf xs := by
  simp [Node.collected, Form.labels, Form.labelsBefore, Form.labelsBehind, Form.children]

@[simp] theorem Node.labels_bareTuple (xs : List Node) :
    (Node.bareTuple xs).labels = labelsOf xs := by
  simp [Node.bareTuple, Form.labels, Form.labelsBefore, Form.labelsBehind, Form.children]

/-- The label of a string. -/
def StringLit.shown (lit : StringLit) : Label := ⟨lit.token, some lit.start⟩

/-- The labels of a string of several literals are the literals. -/
theorem Node.labels_ofStrings (first : StringLit) (rest : List StringLit) :
    (Node.ofStrings first rest).labels = (first :: rest).map StringLit.shown := by
  have string (lit : StringLit) : (Node.bare (.string lit)).labels = [lit.shown] := by
    simp [Form.labels, Form.labelsBefore, Form.labelsBehind, Form.children, StringLit.shown]
  have folded : ∀ x : Node, (rest.foldl
      (fun x lit => .joined false x lit.start "+" (.bare (.string lit))) x).labels =
        x.labels ++ rest.map StringLit.shown := by
    induction rest with
    | nil => intro x; simp
    | cons lit rest ih => intro x; rw [List.foldl_cons, ih]; simp [string]
  rw [Node.ofStrings, folded, string]
  rfl

/-- The labels in string tokens are what the tokens spell. -/
theorem labelsIn_strings {ts : List Token} {lits : List StringLit}
    (kinds : ∀ t ∈ ts, t.kind = .string) (literals : ts.mapM StringLit.ofToken = .ok lits) :
    labelsIn ts = lits.map StringLit.shown := by
  induction ts generalizing lits with
  | nil =>
      cases literals
      rfl
  | cons t ts ih =>
      obtain ⟨here, others⟩ := List.forall_mem_cons.mp kinds
      obtain ⟨lit, more, value, values, rfl⟩ := Outcome.mapM_cons_eq_ok.mp literals
      have shown : t.label = lit.shown := by
        unfold StringLit.ofToken at value
        split at value <;> cases value
        rfl
      rw [labelsIn_cons_of_isLabel (by rw [here]; rfl), ih others values, List.map_cons, shown]

theorem OperatorTokens.labelsIn_eq {layer : Nat} {next : Token.Kind} {ts : List Token}
    {pos : Position} {op : String} (operator : OperatorTokens layer next ts pos op) :
    labelsIn ts = [] := by
  cases operator with
  | single known => rw [labelsIn_cons (Token.Kind.isLabel_of_layer? known), labelsIn_nil]
  | notIn _ first second | isNot _ first second =>
      rw [labelsIn_cons (by rw [first]; rfl), labelsIn_cons (by rw [second]; rfl), labelsIn_nil]

/-- A phrase that may be missing spells one node at most. -/
theorem Spells.toList_head? {p : Phrase} {ts : List Token} {vs : List Node}
    (spells : Spells (.maybe p) ts vs) : vs.head?.toList = vs := by
  cases spells <;> rfl

/-- The nodes of an expression show the labels of its tokens. -/
theorem Spells.labels_eq {p : Phrase} {ts : List Token} {vs : List Node} (spells : Spells p ts vs) :
    labelsIn ts = labelsOf vs := by
  induction spells with
  | strings kinds literals =>
      simpa using (labelsIn_strings kinds literals).trans (Node.labels_ofStrings _ _).symm
  | binary _ operator _ left right => simp_all [operator.labelsIn_eq]
  | starred star _ ih =>
      rw [labelsIn_cons (by rcases star with star | star <;> rw [star] <;> rfl), ih]
      simp [Form.labels, Form.labelsBefore, Form.labelsBehind, Form.children]
  | sign sign _ ih =>
      rw [labelsIn_cons (Token.Kind.isLabel_of_isSign sign), ih]
      simp [Form.labels, Form.labelsBefore, Form.labelsBehind, Form.children]
  | slice _ _ start _ stop _ inner lower upper =>
      simp_all [labelsIn_cons, Form.labels, Form.labelsBefore, Form.labelsBehind, Form.children,
        start.toList_head?, stop.toList_head?]
  | stepSlice _ _ start _ stop _ stride _ inner lower upper step =>
      simp_all [labelsIn_cons, Form.labels, Form.labelsBefore, Form.labelsBehind, Form.children,
        start.toList_head?, stop.toList_head?, stride.toList_head?]
  | _ =>
      simp_all [labelsIn_cons, labelsIn_cons_of_isName, labelsIn_cons_of_isLabel,
        Token.Kind.isLabel, Token.label, Form.labels, Form.labelsBefore, Form.labelsBehind,
        Form.children]

/-- No string holds a `load`. -/
theorem Node.loads_ofStrings (first : StringLit) (rest : List StringLit) :
    (Node.ofStrings first rest).loads = [] := by
  have string (lit : StringLit) : (Node.bare (.string lit)).loads = [] := by
    simp [Form.loads, Form.load?, Form.children]
  have folded : ∀ x : Node, x.loads = [] → (rest.foldl
      (fun x lit => .joined false x lit.start "+" (.bare (.string lit))) x).loads = [] := by
    induction rest with
    | nil => exact fun x none => none
    | cons lit rest ih =>
        intro x none
        exact ih _ (by simp [Node.joined, Form.loads, Form.load?, Form.children, none])
  exact folded _ (string first)

/-- No `load` stands inside an expression. -/
theorem Spells.loads_eq {p : Phrase} {ts : List Token} {vs : List Node} (spells : Spells p ts vs) :
    loadsOf vs = [] := by
  induction spells with
  | strings => simpa using Node.loads_ofStrings _ _
  | slice _ _ start _ stop _ inner lower upper =>
      simp_all [Form.loads, Form.load?, Form.children, start.toList_head?, stop.toList_head?]
  | stepSlice _ _ start _ stop _ stride _ inner lower upper step =>
      simp_all [Form.loads, Form.load?, Form.children, start.toList_head?, stop.toList_head?,
        stride.toList_head?]
  | _ =>
      simp_all [Node.ofName, Node.joined, Node.collected, Node.bareTuple, Form.loads, Form.load?,
        Form.children]

/-! ## The tokens of `load` statements -/

/-- The names and strings that spell the symbols of a `load`, in order. Each symbol
is one string, or a name in front of the string. -/
inductive SymbolTokens : List Token → List Binding → Prop
  | nil : SymbolTokens [] []
  | symbol {t : Token} {ts : List Token} {lit : StringLit} {b : Binding} {bs : List Binding}
      (kind : t.kind = .string) (value : StringLit.ofToken t = .ok lit)
      (symbol : b.symbol.text = lit.value) (bound : b.bound.text = lit.value)
      (more : SymbolTokens ts bs) : SymbolTokens (t :: ts) (b :: bs)
  | renamed {t s : Token} {ts : List Token} {lit : StringLit} {b : Binding} {bs : List Binding}
      (named : Reader.isName t.kind = true) (bound : b.bound.text = t.text)
      (pos : b.bound.pos = t.pos) (kind : s.kind = .string)
      (value : StringLit.ofToken s = .ok lit) (symbol : b.symbol.text = lit.value)
      (more : SymbolTokens ts bs) : SymbolTokens (t :: s :: ts) (b :: bs)

/-- The tokens of a `load` statement. -/
inductive LoadTokens : List Token → Load → Prop
  | mk {a b c d : Token} {ts : List Token} {l : Load} (key : a.kind = .keyword .load)
      (opening : b.kind = .symbol .lparen) (kind : c.kind = .string)
      (label : StringLit.ofToken c = .ok l.label)
      (symbols : SymbolTokens (ts.filter fun t => t.kind.isLabel) l.bindings)
      (closing : d.kind = .symbol .rparen) : LoadTokens (a :: b :: c :: (ts ++ [d])) l

theorem text_of_symbolOf {t : Token} {x : Name} (value : Reader.symbolOf t = .ok x) :
    ∃ lit, StringLit.ofToken t = .ok lit ∧ x.text = lit.value := by
  obtain ⟨lit, literal, same⟩ := Outcome.bind_eq_ok.mp value
  cases same
  exact ⟨lit, literal, rfl⟩

/-- The strings among the symbols of a `load` spell its symbols in order. -/
theorem Reader.Listed.symbolTokens {ts : List Token} {bs : List Binding}
    (listed : Reader.Listed BindingTokens ts bs) :
    SymbolTokens (ts.filter fun t => t.kind.isLabel) (bs.map Binding.plain) := by
  induction listed with
  | none => exact .nil
  | comma comma =>
      rw [List.filter_cons_of_neg (by simp [comma])]
      exact .nil
  | item comma first _ ih =>
      rw [List.filter_cons_of_neg (by simp [comma]), List.filter_append]
      cases first with
      | symbol kind value =>
          obtain ⟨lit, literal, text⟩ := text_of_symbolOf value
          rw [List.filter_cons_of_pos (by simp [kind, Token.Kind.isLabel])]
          exact .symbol kind literal text text ih
      | renamed named eq kind value =>
          obtain ⟨lit, literal, text⟩ := text_of_symbolOf value
          rw [List.filter_cons_of_pos (by simpa using Token.Kind.isLabel_of_isName named),
            List.filter_cons_of_neg (by simp [eq]),
            List.filter_cons_of_pos (by simp [kind, Token.Kind.isLabel])]
          exact .renamed named rfl rfl kind literal text ih

/-! ## Segments -/

/-- A part of some tokens: one token that stands outside the `load` statements, or
all tokens of such a statement. -/
inductive Segment where
  | token (t : Token)
  | load (ts : List Token)

namespace Segment

/-- The tokens of a segment. -/
def tokens : Segment → List Token
  | token t => [t]
  | load ts => ts

/-- The token that a segment is, outside the `load` statements. -/
def token? : Segment → Option Token
  | token t => some t
  | load _ => none

/-- The tokens of the `load` statement that a segment is. -/
def load? : Segment → Option (List Token)
  | token _ => none
  | load ts => some ts

end Segment

/-- Some labels and `load` statements are those of some tokens, each in order. -/
def Labelled (ts : List Token) (labels : List Label) (loads : List Load) : Prop :=
  ∃ segments : List Segment, ts = segments.flatMap Segment.tokens ∧
    List.Forall₂ Token.Bears
      ((segments.filterMap Segment.token?).filter fun t => t.kind.isLabel) labels ∧
    List.Forall₂ LoadTokens (segments.filterMap Segment.load?) loads

namespace Labelled

variable {ts us : List Token} {t : Token} {labels labels' : List Label} {loads loads' : List Load}

theorem nil : Labelled [] [] [] := ⟨[], rfl, .nil, .nil⟩

/-- Labels and loads of two rows of tokens are those of the rows one after the other. -/
theorem append (left : Labelled ts labels loads) (right : Labelled us labels' loads') :
    Labelled (ts ++ us) (labels ++ labels') (loads ++ loads') := by
  obtain ⟨segments, rfl, first, some⟩ := left
  obtain ⟨others, rfl, second, more⟩ := right
  refine ⟨segments ++ others, by simp, ?_, ?_⟩
  · rw [List.filterMap_append, List.filter_append]
    exact List.rel_append first second
  · rw [List.filterMap_append]
    exact List.rel_append some more

theorem skip (other : t.kind.isLabel = false) (rest : Labelled ts labels loads) :
    Labelled (t :: ts) labels loads := by
  obtain ⟨segments, rfl, first, some⟩ := rest
  refine ⟨.token t :: segments, rfl, ?_, some⟩
  show List.Forall₂ _ ((t :: segments.filterMap Segment.token?).filter _) _
  rw [List.filter_cons_of_neg (by simp [other])]
  exact first

theorem label {l : Label} (label : t.kind.isLabel = true) (bears : t.Bears l)
    (rest : Labelled ts labels loads) : Labelled (t :: ts) (l :: labels) loads := by
  obtain ⟨segments, rfl, first, some⟩ := rest
  refine ⟨.token t :: segments, rfl, ?_, some⟩
  show List.Forall₂ _ ((t :: segments.filterMap Segment.token?).filter _) _
  rw [List.filter_cons_of_pos (by simp [label])]
  exact .cons bears first

theorem load {l : Load} (tokens : LoadTokens ts l) : Labelled ts [] [l] :=
  ⟨[.load ts], by simp [Segment.tokens], .nil, .cons tokens .nil⟩

/-- Tokens without a `load` have the labels that stand in them. -/
theorem of_labelsIn (ts : List Token) : Labelled ts (labelsIn ts) [] := by
  induction ts with
  | nil => exact nil
  | cons t ts ih =>
      by_cases isLabel : t.kind.isLabel = true
      · rw [labelsIn_cons_of_isLabel isLabel]
        exact ih.label isLabel ⟨rfl, fun pos same => Option.some.inj same.symm⟩
      · rw [labelsIn_cons (by simpa using isLabel)]
        exact ih.skip (by simpa using isLabel)

/-- Tokens without labels may stand behind. -/
theorem close (front : Labelled ts labels loads) (others : labelsIn us = []) :
    Labelled (ts ++ us) labels loads := by
  have both := front.append (of_labelsIn us)
  rwa [others, List.append_nil, List.append_nil] at both

end Labelled

theorem Spells.labelled {p : Phrase} {ts : List Token} {vs : List Node} (spells : Spells p ts vs) :
    Labelled ts (labelsOf vs) (loadsOf vs) := by
  rw [← spells.labels_eq, spells.loads_eq]
  exact .of_labelsIn ts

/-! ## Statements -/

@[simp] theorem isLabel_of_isBranch {kind : Token.Kind} (branch : kind.isBranch = true) :
    kind.isLabel = false := by
  unfold Token.Kind.isBranch at branch
  split at branch <;> first | rfl | cases branch

/-- A small statement has the labels and the `load` of its tokens. -/
theorem SmallStmt.labelled {ts : List Token} {v : Node} (stmt : SmallStmt ts v) :
    Labelled ts v.labels v.loads := by
  cases stmt with
  | returnNothing key =>
      rw [Node.labels_bare, Node.loads_bare]
      exact .skip (by rw [key]; rfl) .nil
  | returnValue key value =>
      have inner := value.labelled.skip (t := _) (by rw [key]; rfl)
      simpa [Form.labels, Form.loads, Form.labelsBefore, Form.labelsBehind, Form.load?,
        Form.children] using inner
  | branch key =>
      rw [Node.labels_bare, Node.loads_bare]
      exact .skip (isLabel_of_isBranch key) .nil
  | @load _ _ _ _ _ label bindings key opening kind value symbols closing =>
      rw [Node.labels_bare, Node.loads_bare]
      exact @Labelled.load _ ⟨label, bindings.map Binding.plain⟩
        (.mk key opening kind value symbols.symbolTokens closing)
  | @assign e _ _ _ _ left eq right =>
      have other : e.kind.isLabel = false := by rcases eq with kind | kind <;> rw [kind] <;> rfl
      have both := left.labelled.append (right.labelled.skip other)
      simpa [Node.joined, Form.labels, Form.loads, Form.labelsBefore, Form.labelsBehind, Form.load?,
        Form.children] using both
  | value plain => simpa using plain.labelled

theorem LineRest.labelled {ts : List Token} {vs : List Node} (line : LineRest ts vs) :
    Labelled ts (labelsOf vs) (loadsOf vs) := by
  induction line with
  | done ends => exact .skip (by rw [ends]; rfl) .nil
  | semi semi ends => exact .skip (by rw [semi]; rfl) (.skip (by rw [ends]; rfl) .nil)
  | next semi first _ ih => exact .skip (by rw [semi]; rfl) (first.labelled.append ih)

theorem StmtLine.labelled {ts : List Token} {vs : List Node} (line : StmtLine ts vs) :
    Labelled ts (labelsOf vs) (loadsOf vs) := by
  obtain ⟨first, more⟩ := line
  exact first.labelled.append more.labelled

theorem labelsOf_eq (vs : List Node) : labelsOf vs = (formsOf vs).flatMap Form.labels := by
  induction vs with
  | nil => rfl
  | cons v vs ih =>
      obtain ⟨c, f⟩ := v
      rw [labelsOf_cons, formsOf_cons, List.flatMap_append, ← ih, Node.labels_mk]
      cases f <;> simp [Node.statement?, Node.isCommentBlock, Form.isCommentBlock, Form.labels,
        Form.labelsBefore, Form.labelsBehind, Form.children]

theorem loadsOf_eq (vs : List Node) : loadsOf vs = (formsOf vs).flatMap Form.loads := by
  induction vs with
  | nil => rfl
  | cons v vs ih =>
      obtain ⟨c, f⟩ := v
      rw [loadsOf_cons, formsOf_cons, List.flatMap_append, ← ih, Node.loads_mk]
      cases f <;> simp [Node.statement?, Node.isCommentBlock, Form.isCommentBlock, Form.loads,
        Form.load?, Form.children]

namespace Form

variable {p q r s : Position} {e : Close} {cond x vars : Node} {params body noBody : List Node}

@[simp] theorem labels_defStmt {name : String} {layout : Layout} :
    (defStmt p name q params r s body layout).labels =
      ⟨name, none⟩ :: (labelsOf params ++ labelsOf body) := by
  simp [labels, labelsBefore, labelsBehind, children]

@[simp] theorem loads_defStmt {name : String} {layout : Layout} :
    (defStmt p name q params r s body layout).loads = loadsOf params ++ loadsOf body := by
  simp [loads, load?, children]

@[simp] theorem labels_forStmt :
    (forStmt p vars x body).labels = vars.labels ++ (x.labels ++ labelsOf body) := by
  simp [labels, labelsBefore, labelsBehind, children]

@[simp] theorem loads_forStmt :
    (forStmt p vars x body).loads = vars.loads ++ (x.loads ++ loadsOf body) := by
  simp [loads, load?, children]

@[simp] theorem labels_ifStmt :
    (ifStmt p cond body e noBody).labels = cond.labels ++ (labelsOf body ++ labelsOf noBody) := by
  simp [labels, labelsBefore, labelsBehind, children]

@[simp] theorem loads_ifStmt :
    (ifStmt p cond body e noBody).loads = cond.loads ++ (loadsOf body ++ loadsOf noBody) := by
  simp [loads, load?, children]

/-- Comment blocks that are cut off bear no labels. -/
theorem Trimmed.labels_eq {f f' : Form} (trimmed : f.Trimmed f') :
    f'.labels = f.labels ∧ f'.loads = f.loads := by
  have same {vs ws : List Node} (forms : formsOf ws = formsOf vs) :
      labelsOf ws = labelsOf vs ∧ loadsOf ws = loadsOf vs := by
    rw [labelsOf_eq, labelsOf_eq, loadsOf_eq, loadsOf_eq, forms]
    exact ⟨rfl, rfl⟩
  induction trimmed with
  | same f => exact ⟨rfl, rfl⟩
  | define forms | loop forms | yes forms | no forms => simp [same forms]
  | arm inner ih => simp [ih]

end Form

/-! ## Statements with a body -/

theorem HeaderEnd.labelsIn_eq {ts : List Token} {header : List Comment}
    (ends : HeaderEnd ts header) :
    labelsIn ts = [] := by
  cases ends with
  | plain ends => rw [labelsIn_cons (by rw [ends]; rfl), labelsIn_nil]
  | commented kind ends =>
      rw [labelsIn_cons (by rw [kind]; rfl), labelsIn_cons (by rw [ends]; rfl), labelsIn_nil]

theorem CommentLines.labelsIn_eq {ts : List Token} {entries : List Entry}
    (lines : CommentLines ts entries) : labelsIn ts = [] := by
  induction lines with
  | none => rfl
  | blank ends _ ih => rw [labelsIn_cons (by rw [ends]; rfl), ih]
  | remark kind ends _ ih =>
      rw [labelsIn_cons (by rw [kind]; rfl), labelsIn_cons (by rw [ends]; rfl), ih]

theorem CommentLines.forms_eq {ts : List Token} {entries : List Entry}
    (lines : CommentLines ts entries) : entries.flatMap Entry.forms = [] := by
  induction lines with
  | none => rfl
  | blank _ _ ih | remark _ _ _ ih => exact ih

namespace Reading

/-- The labels of what was read. -/
def labels : Reading → List Label
  | .suite s => labelsOf s.body
  | .compound stmt => stmt.1.labels
  | .arms all => all.flatMap fun a => a.cond.labels ++ labelsOf a.suite.body
  | .lines entries => (entries.flatMap Entry.forms).flatMap Form.labels

/-- The `load` statements of what was read. -/
def loads : Reading → List Load
  | .suite s => loadsOf s.body
  | .compound stmt => stmt.1.loads
  | .arms all => all.flatMap fun a => a.cond.loads ++ loadsOf a.suite.body
  | .lines entries => (entries.flatMap Entry.forms).flatMap Form.loads

end Reading

theorem Reader.labels_nested (close : Close) (body : List Node) (arms : List Reader.Arm) :
    labelsOf (Reader.nested close body arms).2 =
        (arms.flatMap fun a => a.cond.labels ++ labelsOf a.suite.body) ++ labelsOf body ∧
      loadsOf (Reader.nested close body arms).2 =
        (arms.flatMap fun a => a.cond.loads ++ loadsOf a.suite.body) ++ loadsOf body := by
  induction arms with
  | nil => exact ⟨rfl, rfl⟩
  | cons a arms ih => simp [Reader.nested, Reader.Arm.ifStmt, ih]

/-- What is read as statements shows the labels of its tokens. -/
theorem Builds.labelled {types : Bool} {ts : List Token} {r : Reading}
    (builds : Builds types ts r) : Labelled ts r.labels r.loads := by
  induction builds with
  | lineSuite line => exact line.labelled
  | @blockSuite a b hs ls ts header leading entries ends above opening _ closing ih =>
      have silent : labelsIn (hs ++ ls ++ [a]) = [] := by
        rw [labelsIn_append, labelsIn_append, ends.labelsIn_eq, above.labelsIn_eq,
          labelsIn_cons (by rw [opening]; rfl)]
        rfl
      have block : Labelled ([] ++ (hs ++ ls ++ [a]) ++ (ts ++ [b])) _ _ :=
        (Labelled.nil.close silent).append
          (ih.close (labelsIn_cons (by rw [closing]; rfl) []))
      simpa [Reading.labels, Reading.loads, labelsOf_eq _, loadsOf_eq _, Block.formsOf_precede,
        Block.formsOf_ofEntries, above.forms_eq] using block
  | @define a t b c d ps ts params s key named opening parts closing colon _ ih =>
      have name : t.Bears ⟨t.text, none⟩ := ⟨rfl, by simp⟩
      have rest := parts.labelled.append
        (.skip (t := c) (by rw [closing]; rfl) (.skip (t := d) (by rw [colon]; rfl) ih))
      have whole := Labelled.skip (t := a) (by rw [key]; rfl)
        (.label (Token.Kind.isLabel_of_isName named) name
          (.skip (t := b) (by rw [opening]; rfl) rest))
      simpa [Reading.labels, Reading.loads] using whole
  | @loop a b c vs xs ts vars x s key bound inside range colon _ ih =>
      have rest := range.labelled.append (.skip (t := c) (by rw [colon]; rfl) ih)
      have whole := Labelled.skip (t := a) (by rw [key]; rfl)
        (bound.labelled.append (.skip (t := b) (by rw [inside]; rfl) rest))
      simpa [Reading.labels, Reading.loads] using whole
  | @choice a b cs ts us cond s arms key test colon _ _ body more =>
      have whole := Labelled.skip (t := a) (by rw [key]; rfl)
        (test.labelled.append (.skip (t := b) (by rw [colon]; rfl) (body.append more)))
      simpa [Reading.labels, Reading.loads, Reader.Arm.ifStmt, Reader.labels_nested] using whole
  | @choiceElse a b e c cs ts us vs cond s s' arms key test colon _ _ otherwise second _ body more
      last =>
      have final := Labelled.skip (t := e) (by rw [otherwise]; rfl)
        (.skip (t := c) (by rw [second]; rfl) last)
      have whole := Labelled.skip (t := a) (by rw [key]; rfl)
        (test.labelled.append (.skip (t := b) (by rw [colon]; rfl)
          ((body.append more).append final)))
      simpa [Reading.labels, Reading.loads, Reader.Arm.ifStmt, Reader.labels_nested] using whole
  | noArm => exact .nil
  | @arm a b cs ts us cond s arms key test colon _ _ body more =>
      have whole := Labelled.skip (t := a) (by rw [key]; rfl)
        (test.labelled.append (.skip (t := b) (by rw [colon]; rfl) (body.append more)))
      simpa [Reading.labels, Reading.loads] using whole
  | noLine => exact .nil
  | blank ends _ ih => exact .skip (by rw [ends]; rfl) ih
  | remark kind ends _ ih => exact .skip (by rw [kind]; rfl) (.skip (by rw [ends]; rfl) ih)
  | @compound ts us stmt entries _ _ first more =>
      have same := stmt.1.splitTrailing_trimmed.1.labels_eq
      have whole := Labelled.append first more
      have trimmed : (Reader.blockGroup stmt).forms.flatMap Form.labels = stmt.1.labels ∧
          (Reader.blockGroup stmt).forms.flatMap Form.loads = stmt.1.loads := by
        rw [Reader.forms_blockGroup, ← labelsOf_eq, ← loadsOf_eq]
        simpa [Node.labels_eq, Node.loads_eq] using same
      simpa [Reading.labels, Reading.loads, trimmed] using whole
  | stmts first _ ih =>
      have whole := first.labelled.append ih
      simpa [Reading.labels, Reading.loads, Entry.forms, labelsOf_eq _, loadsOf_eq _] using whole

/-! ## Files -/

theorem Form.labels_plain {f : Form} (each : ∀ v ∈ f.children, v.plain.labels = v.labels) :
    f.plain.labels = f.labels := by
  have before : f.plain.labelsBefore = f.labelsBefore := by cases f <;> rfl
  have behind : f.plain.labelsBehind = f.labelsBehind := by cases f <;> rfl
  have parts : labelsOf f.plain.children = labelsOf f.children := by
    rw [children_plain, labelsOf, labelsOf, List.flatMap_map]
    exact List.flatMap_congr each
  rw [labels, labels, before, behind, parts]

/-- Taking off comments leaves the loads of a form as they are. -/
theorem Form.loads_plain {f : Form} (each : ∀ v ∈ f.children, v.plain.loads = v.loads) :
    f.plain.loads = f.loads := by
  have own : f.plain.load? = f.load? := by
    cases f with
    | load => simp [Form.plain, Form.load?, Function.comp_def, Binding.plain, Name.plain]
    | _ => rfl
  have parts : loadsOf f.plain.children = loadsOf f.children := by
    rw [children_plain, loadsOf, loadsOf, List.flatMap_map]
    exact List.flatMap_congr each
  rw [loads, loads, own, parts]

/-- Comments bear no labels. -/
theorem Node.labels_plain (v : Node) : v.plain.labels = v.labels := by
  induction v using Node.inductionOnChildren with
  | step v ih =>
      obtain ⟨c, f⟩ := v
      rw [Node.plain, Node.labels_mk, Node.labels_mk]
      exact Form.labels_plain ih

theorem Node.loads_plain (v : Node) : v.plain.loads = v.loads := by
  induction v using Node.inductionOnChildren with
  | step v ih =>
      obtain ⟨c, f⟩ := v
      rw [Node.plain, Node.loads_mk, Node.loads_mk]
      exact Form.loads_plain ih

/-- Trees that differ in their comments only have the same labels. -/
theorem labelsOf_of_plain {vs ws : List Node} (same : vs.map Node.plain = ws.map Node.plain) :
    labelsOf vs = labelsOf ws ∧ loadsOf vs = loadsOf ws := by
  have labels (us : List Node) : labelsOf (us.map Node.plain) = labelsOf us := by
    rw [labelsOf, labelsOf, List.flatMap_map]
    exact List.flatMap_congr fun v _ => v.labels_plain
  have loads (us : List Node) : loadsOf (us.map Node.plain) = loadsOf us := by
    rw [loadsOf, loadsOf, List.flatMap_map]
    exact List.flatMap_congr fun v _ => v.loads_plain
  rw [← labels vs, ← loads vs, same, labels, loads]
  exact ⟨rfl, rfl⟩

/-- Nothing follows the end of the source. -/
theorem Token.ends_of_precedes {used rest : List Token}
    (ordered : (used ++ rest).Pairwise Token.Precedes) (ends : (rest.headD .ended).kind = .eof) :
    ∀ t ∈ rest, t.kind = .eof := by
  cases rest with
  | nil => simp
  | cons t rest =>
      have kind : t.kind = .eof := ends
      have last := (List.pairwise_cons.mp (List.pairwise_append.mp ordered).2.1).1
      cases rest with
      | nil => simpa using kind
      | cons s rest => exact absurd kind (last s (by simp)).real

/-- A file that is read holds the lines of its source, comments apart. -/
theorem File.lines_of_ofStream {path : String} {options : Options} {stream : TokenStream} {f : File}
    (read : File.ofStream path options stream = .ok f) :
    ∃ used rest entries, stream.tokens = used ++ rest ∧ (rest.headD .ended).kind = .eof ∧
      Builds options.types used (.lines entries) ∧
      f.statements.map Node.plain = (Block.ofEntries entries).nodes.map Node.plain := by
  obtain ⟨vs, statements, done⟩ := Outcome.bind_eq_ok.mp read
  obtain ⟨used, rest, entries, tokens, ends, lines, rfl⟩ := Reader.statements_eq_ok statements
  cases done
  exact ⟨used, rest, entries, tokens, ends, lines, plain_attach _ _ _⟩

/-- Reading a source drops and duplicates no name and no literal: the file shows the labels of
the tokens, and its `load` statements name what their tokens name. -/
theorem File.labelled_of_ofChars {path : String} {options : Options} {source : List Char}
    {f : File} (read : File.ofChars path options source = .ok f) :
    ∃ stream, TokenStream.ofChars source = .ok stream ∧
      Labelled stream.tokens (labelsOf f.statements) (loadsOf f.statements) := by
  obtain ⟨stream, scanned, built⟩ := Outcome.bind_eq_ok.mp read
  refine ⟨stream, scanned, ?_⟩
  obtain ⟨used, rest, entries, tokens, ends, lines, same⟩ := File.lines_of_ofStream built
  obtain ⟨labels, loads⟩ := labelsOf_of_plain same
  obtain ⟨lexemes, scans, rfl⟩ := Outcome.map_eq_ok.mp scanned
  have ordered : (used ++ rest).Pairwise Token.Precedes := by
    rw [← tokens]
    exact (Lexeme.scans_iff.mpr scans).ordered
  have silent : labelsIn rest = [] := by
    rw [labelsIn, List.filter_eq_nil_iff.mpr, List.map_nil]
    intro t member
    rw [Token.ends_of_precedes ordered ends t member]
    decide
  rw [labels, loads, tokens, labelsOf_eq, loadsOf_eq, Block.formsOf_ofEntries]
  exact lines.labelled.close silent

/-- A function, an attribute, and a `load` that renames a symbol. -/
theorem File.labelled_of_load :
    ∃ f, File.ofChars "a.bzl" ⟨.bzl, true⟩
        "load('//a', 'b', c = 'd')\ndef f(x: int = 1):\n  return x.load\n".toList = .ok f ∧
      ∃ stream, TokenStream.ofChars
          "load('//a', 'b', c = 'd')\ndef f(x: int = 1):\n  return x.load\n".toList = .ok stream ∧
        Labelled stream.tokens (labelsOf f.statements) (loadsOf f.statements) := by
  obtain ⟨f, read⟩ : ∃ f, File.ofChars "a.bzl" ⟨.bzl, true⟩
      "load('//a', 'b', c = 'd')\ndef f(x: int = 1):\n  return x.load\n".toList = .ok f :=
    Outcome.exists_eq_ok (by cbv)
  exact ⟨f, read, File.labelled_of_ofChars read⟩

end Starlark
