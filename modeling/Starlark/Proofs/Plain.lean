import Starlark.Proofs.Remarks
import Starlark.Proofs.Shape

/-!
# Trees without comments

`Node.plain` takes all comments off a tree. Attaching comments changes nothing
else of a tree (`plain_attach`), and nothing at all where there are none to
attach (`attach_nil`). The shape of a tree does not depend on them
(`Node.plays_plain`).
-/

set_option autoImplicit false

namespace Starlark

mutual

/-- The node without comments on it and inside it. -/
def Node.plain : Node → Node
  | .mk _ f => .mk .none f.plain

/-- The form without comments inside it. -/
def Form.plain : Form → Form
  | .ident p n => .ident p n
  | .literal p t => .literal p t
  | .string lit => .string lit
  | .dot x p q n => .dot x.plain p q n
  | .index x p y q => .index x.plain p y.plain q
  | .slice x p lower q upper r step s =>
    .slice x.plain p (plainOption lower) q (plainOption upper) r (plainOption step) s
  | .unary p o x => .unary p o (plainOption x)
  | .binary a x p o l y => .binary a x.plain p o l y.plain
  | .conditional yes p test q no => .conditional yes.plain p test.plain q no.plain
  | .lambda p params q body => .lambda p (plainList params) q body.plain
  | .call callee p args e l => .call callee.plain p (plainList args) e.plain l
  | .collection k p items e l => .collection k p (plainList items) e.plain l
  | .keyValue key p value => .keyValue key.plain p value.plain
  | .comprehension u p body clauses e m =>
    .comprehension u p body.plain (plainList clauses) e.plain m
  | .forClause p vars q x => .forClause p vars.plain q x.plain
  | .ifClause p cond => .ifClause p cond.plain
  | .paren p x e m => .paren p x.plain e.plain m
  | .defStmt p n q params r s body l => .defStmt p n q (plainList params) r s (plainList body) l
  | .forStmt p vars x body => .forStmt p vars.plain x.plain (plainList body)
  | .ifStmt p cond yesBody e noBody =>
    .ifStmt p cond.plain (plainList yesBody) e.plain (plainList noBody)
  | .returnStmt p result => .returnStmt p (plainOption result)
  | .branch t p => .branch t p
  | .load p label _ bindings e k => .load p label .none (bindings.map Binding.plain) e.plain k
  | .commentBlock p => .commentBlock p
  | .verbatim p t => .verbatim p t
  | .typed name p type => .typed name.plain p type.plain

def plainList : List Node → List Node
  | [] => []
  | x :: rest => x.plain :: plainList rest

def plainOption : Option Node → Option Node
  | none => none
  | some x => some x.plain

end

theorem plainList_eq_map (vs : List Node) : plainList vs = vs.map Node.plain := by
  induction vs with
  | nil => rfl
  | cons v vs ih => rw [plainList, List.map_cons, ih]

theorem Form.children_plain (f : Form) : f.plain.children = f.children.map Node.plain := by
  have option (v : Option Node) : (plainOption v).toList = v.toList.map Node.plain := by
    cases v <;> rfl
  cases f <;> simp [Form.plain, Form.children, plainList_eq_map, option]

/-- Apart from its parts, a form without comments is its shell without comments. -/
theorem Form.cleared_plain (f : Form) : f.plain.cleared = f.shell.plain := by
  have vacant : Node.vacant.plain = Node.vacant := rfl
  have list (vs : List Node) : (plainList vs).map (fun _ => Node.vacant) =
      plainList (vs.map fun _ => Node.vacant) := by
    simp [plainList_eq_map, Function.comp_def, vacant]
  have option (v : Option Node) : (plainOption v).map (fun _ => Node.vacant) =
      plainOption (v.map fun _ => Node.vacant) := by
    cases v <;> rfl
  have close (e : Close) : e.plain.plain = e.plain := rfl
  have name (x : Name) : x.plain.plain = x.plain := rfl
  have symbols : Binding.plain ∘ Binding.plain = Binding.plain := rfl
  cases f <;> simp only [Form.plain, Form.cleared, Form.shell, list, option, vacant, close, name,
    List.map_map, symbols]
  all_goals split <;> rfl

/-! ## Attaching comments -/

theorem plainList_eq_plainList {vs ws : List Node}
    (same : List.Forall₂ (fun v w : Node => w.plain = v.plain) vs ws) :
    plainList ws = plainList vs := by
  induction same with
  | nil => rfl
  | cons first _ ih => rw [plainList, plainList, first, ih]

/-- A form without comments is told by its shell and its parts without comments. -/
theorem Form.plain_eq_plain {f g : Form} (shell : g.shell = f.shell)
    (parts : List.Forall₂ (fun v w : Node => w.plain = v.plain) f.children g.children) :
    g.plain = f.plain := by
  refine eq_of_cleared (by rw [cleared_plain, cleared_plain, shell]) ?_
  rw [children_plain, children_plain, ← plainList_eq_map, ← plainList_eq_map]
  exact plainList_eq_plainList parts

theorem Node.plain_eq_plain {v w : Node} (shell : w.form.shell = v.form.shell)
    (parts : List.Forall₂ (fun v w : Node => w.plain = v.plain) v.children w.children) :
    w.plain = v.plain := by
  obtain ⟨_, f⟩ := v
  obtain ⟨_, g⟩ := w
  have forms : g.plain = f.plain := Form.plain_eq_plain shell parts
  rw [Node.plain, Node.plain, forms]

section Attaching

variable {σ : Type} (fill : Slot.Filler σ)

/-- Filling the slots of a node changes nothing but comments. -/
theorem Node.plain_fill (v : Node) : Yields (fun w : Node => w.plain = v.plain) (v.fill fill) := by
  induction v using inductionOnChildren with
  | step v ih =>
      intro s
      obtain ⟨_, shell, parts⟩ := Node.yields_fill (.any _) ih s
      exact plain_eq_plain shell parts

theorem Node.plain_fillBack (v : Node) :
    Yields (fun w : Node => w.plain = v.plain) (v.fillBack fill) := by
  induction v using inductionOnChildren with
  | step v ih =>
      intro s
      obtain ⟨_, shell, parts⟩ := Node.yields_fillBack (.any _) ih s
      exact plain_eq_plain shell parts

theorem Form.plain_fill (f : Form) : Yields (fun g : Form => g.plain = f.plain) (f.fill fill) :=
  fun s =>
    have ⟨shell, parts⟩ := (f.passes_fill fill).parts (fun v _ => v.plain_fill fill) s
    plain_eq_plain shell parts

theorem Form.plain_fillBack (f : Form) :
    Yields (fun g : Form => g.plain = f.plain) (f.fillBack fill) :=
  fun s =>
    have ⟨shell, parts⟩ := (f.passes_fillBack fill).parts (fun v _ => v.plain_fillBack fill) s
    plain_eq_plain shell parts

theorem plain_fillList (vs : List Node) :
    Yields (fun ws => plainList ws = plainList vs) (fillList fill vs) :=
  fun s => plainList_eq_plainList (Yields.fillList (fun v _ => v.plain_fill fill) s)

theorem plain_fillListBack (vs : List Node) :
    Yields (fun ws => plainList ws = plainList vs) (fillListBack fill vs) :=
  fun s => plainList_eq_plainList (Yields.fillListBack (fun v _ => v.plain_fillBack fill) s)

end Attaching

/-- Attaching comments changes nothing else of a tree. -/
theorem plain_attach (statements : List Node) (line suffix : List Comment) :
    (attach statements line suffix).1.map Node.plain = statements.map Node.plain := by
  simp only [← plainList_eq_map]
  exact (plain_fillListBack Slot.takeSuffix _ _).trans (plain_fillList Slot.takeLine _ _)

/-! ## Attaching nothing -/

section Nothing

variable {σ α β : Type} {s : σ} {fill : Slot.Filler σ}

/-- A step that gives a value and leaves the state as it is. -/
def Gives (s : σ) (m : StateM σ α) (a : α) : Prop := m s = (a, s)

theorem Gives.pure {a : α} : Gives s (Pure.pure a : StateM σ α) a := rfl

theorem Gives.bind {m : StateM σ α} {f : α → StateM σ β} {a : α} {b : β} (first : Gives s m a)
    (next : Gives s (f a) b) : Gives s (m >>= f) b := by
  show f (m s).1 (m s).2 = (b, s)
  rw [first]
  exact next

theorem Gives.mapM {f : α → StateM σ α} (each : ∀ x, Gives s (f x) x) (xs : List α) :
    Gives s (xs.mapM f) xs := by
  induction xs with
  | nil => exact .pure
  | cons x xs ih =>
      rw [List.mapM_cons]
      exact .bind (each x) (.bind ih .pure)

/-- A filler that leaves slots as they are. -/
def Slot.Filler.Idle (s : σ) (fill : Slot.Filler σ) : Prop :=
  ∀ slot, Gives s (fill slot) slot.comments

variable (idle : fill.Idle s)
include idle

theorem Name.fill_idle (x : Name) : Gives s (x.fill fill) x := .bind (idle (.ofName x)) .pure

theorem Close.fill_idle (x : Close) : Gives s (x.fill fill) x := .bind (idle (.ofClose x)) .pure

theorem Binding.fill_idle (x : Binding) : Gives s (x.fill fill) x :=
  .bind (x.bound.fill_idle idle) (.bind (x.symbol.fill_idle idle) .pure)

theorem Binding.fillBack_idle (x : Binding) : Gives s (x.fillBack fill) x :=
  .bind (x.symbol.fill_idle idle) (.bind (x.bound.fill_idle idle) .pure)

omit idle in
/-- A list is left as it is if each of its nodes is. -/
theorem fillList_idle {vs : List Node} (each : ∀ v ∈ vs, Gives s (v.fill fill) v) :
    Gives s (fillList fill vs) vs := by
  induction vs with
  | nil =>
      rw [fillList]
      exact .pure
  | cons v vs ih =>
      obtain ⟨first, others⟩ := List.forall_mem_cons.mp each
      rw [fillList]
      exact .bind first (.bind (ih others) .pure)

omit idle in
/-- The same holds of a node that may be missing. -/
theorem fillOption_idle {v : Option Node} (each : ∀ u ∈ v.toList, Gives s (u.fill fill) u) :
    Gives s (fillOption fill v) v := by
  cases v with
  | none =>
      rw [fillOption]
      exact .pure
  | some u =>
      rw [fillOption]
      exact .bind (each u (by simp)) .pure

/-- A form is left as it is if its parts are. -/
theorem Form.fill_idle {f : Form} (each : ∀ v ∈ f.children, Gives s (v.fill fill) v) :
    Gives s (f.fill fill) f := by
  have list : ∀ vs : List Node, (∀ v ∈ vs, v ∈ f.children) → Gives s (fillList fill vs) vs :=
    fun vs inside => fillList_idle fun v member => each v (inside v member)
  have option : ∀ o : Option Node, (∀ v ∈ o.toList, v ∈ f.children) →
      Gives s (fillOption fill o) o :=
    fun o inside => fillOption_idle fun v member => each v (inside v member)
  have close (e : Close) : Gives s (e.fill fill) e := e.fill_idle idle
  have name (x : Name) : Gives s (x.fill fill) x := x.fill_idle idle
  have symbols (bindings : List Binding) :
      Gives s (bindings.mapM (Binding.fill fill)) bindings :=
    .mapM (fun x => x.fill_idle idle) bindings
  have label (lit : StringLit) (comments : Comments) :
      Gives s (fill (.ofLabel lit comments)) comments := idle _
  -- every form fills its parts in turn and puts them back in their places
  cases f
  all_goals
    rw [Form.fill]
    repeat' first
      | refine .bind (each _ (by simp [children])) ?_
      | refine .bind (list _ (by simp +contextual [children])) ?_
      | refine .bind (option _ (by simp +contextual [children])) ?_
      | refine .bind (close _) ?_
      | refine .bind (name _) ?_
      | refine .bind (symbols _) ?_
      | refine .bind (label _ _) ?_
      | exact .pure
      | rw [pure_bind]
      | split

theorem Node.fill_idle (v : Node) : Gives s (v.fill fill) v := by
  induction v using inductionOnChildren with
  | step v ih =>
      obtain ⟨c, f⟩ := v
      rw [Node.fill]
      exact .bind (idle _) (.bind (f.fill_idle idle ih) .pure)

omit idle in
/-- From the last node on, a list is left as it is if each of its nodes is. -/
theorem fillListBack_idle {vs : List Node} (each : ∀ v ∈ vs, Gives s (v.fillBack fill) v) :
    Gives s (fillListBack fill vs) vs := by
  induction vs with
  | nil =>
      rw [fillListBack]
      exact .pure
  | cons v vs ih =>
      obtain ⟨first, others⟩ := List.forall_mem_cons.mp each
      rw [fillListBack]
      exact .bind (ih others) (.bind first .pure)

omit idle in
/-- So is a node that may be missing. -/
theorem fillOptionBack_idle {v : Option Node}
    (each : ∀ u ∈ v.toList, Gives s (u.fillBack fill) u) : Gives s (fillOptionBack fill v) v := by
  cases v with
  | none =>
      rw [fillOptionBack]
      exact .pure
  | some u =>
      rw [fillOptionBack]
      exact .bind (each u (by simp)) .pure

/-- The same in reverse. -/
theorem Form.fillBack_idle {f : Form} (each : ∀ v ∈ f.children, Gives s (v.fillBack fill) v) :
    Gives s (f.fillBack fill) f := by
  have list : ∀ vs : List Node, (∀ v ∈ vs, v ∈ f.children) → Gives s (fillListBack fill vs) vs :=
    fun vs inside => fillListBack_idle fun v member => each v (inside v member)
  have option : ∀ o : Option Node, (∀ v ∈ o.toList, v ∈ f.children) →
      Gives s (fillOptionBack fill o) o :=
    fun o inside => fillOptionBack_idle fun v member => each v (inside v member)
  have close (e : Close) : Gives s (e.fill fill) e := e.fill_idle idle
  have name (x : Name) : Gives s (x.fill fill) x := x.fill_idle idle
  have symbols (bindings : List Binding) :
      Gives s (bindings.reverse.mapM (Binding.fillBack fill)) bindings.reverse :=
    .mapM (fun x => x.fillBack_idle idle) bindings.reverse
  have label (lit : StringLit) (comments : Comments) :
      Gives s (fill (.ofLabel lit comments)) comments := idle _
  cases f
  case load p lit comments bindings e compact =>
    rw [Form.fillBack]
    refine .bind (close e) (.bind (symbols bindings) (.bind (label lit comments) ?_))
    rw [List.reverse_reverse]
    exact .pure
  all_goals
    rw [Form.fillBack]
    repeat' first
      | refine .bind (each _ (by simp [children])) ?_
      | refine .bind (list _ (by simp +contextual [children])) ?_
      | refine .bind (option _ (by simp +contextual [children])) ?_
      | refine .bind (close _) ?_
      | refine .bind (name _) ?_
      | exact .pure
      | rw [pure_bind]
      | split

/-- Filling backwards that puts nothing anywhere changes no tree, by induction on it. -/
theorem Node.fillBack_idle (v : Node) : Gives s (v.fillBack fill) v := by
  induction v using inductionOnChildren with
  | step v ih =>
      unfold Node.fillBack
      split
      · have params := fillListBack_idle fun u member => ih u (List.mem_append_left _ member)
        have body := fillListBack_idle fun u member => ih u (List.mem_append_right _ member)
        exact .bind body (.bind (idle _) (.bind params .pure))
      · exact .bind (idle _) (.bind (Form.fillBack_idle idle ih) .pure)

end Nothing

/-- Where there is nothing to attach, attaching does nothing. -/
theorem attach_nil (vs : List Node) : attach vs [] [] = (vs, [], []) := by
  have line : Slot.takeLine.Idle ([] : List Comment) := fun slot => by
    show ({ slot.comments with before := slot.comments.before ++ [] }, []) = (slot.comments, [])
    rw [List.append_nil]
  have suffix : Slot.takeSuffix.Idle ([] : List Comment) := fun slot => by
    show ({ slot.comments with suffix := slot.comments.suffix ++ [] }, []) = (slot.comments, [])
    rw [List.append_nil]
  have first : fillList Slot.takeLine vs [] = (vs, []) :=
    fillList_idle fun v _ => v.fill_idle line
  have second : fillListBack Slot.takeSuffix vs [] = (vs, []) :=
    fillListBack_idle fun v _ => v.fillBack_idle suffix
  unfold attach
  simp only [StateT.run, first, List.reverse_nil, second]

/-! ## Trees that carry no comment -/

theorem Comments.eq_none {c : Comments} (empty : c.toList = []) : c = .none := by
  obtain ⟨before, suffix, after⟩ := c
  obtain ⟨rfl, rfl, rfl⟩ : before = [] ∧ suffix = [] ∧ after = [] := by
    simpa [Comments.toList] using empty
  rfl

theorem Close.plain_eq_self {x : Close} (empty : x.comments.toList = []) : x.plain = x := by
  obtain ⟨pos, comments⟩ := x
  obtain rfl : comments = .none := Comments.eq_none empty
  rfl

theorem Name.plain_eq_self {x : Name} (empty : x.comments.toList = []) : x.plain = x := by
  obtain ⟨pos, text, comments⟩ := x
  obtain rfl : comments = .none := Comments.eq_none empty
  rfl

theorem Binding.plain_eq_self {b : Binding} (empty : b.remarks = []) : b.plain = b := by
  obtain ⟨bound, symbol⟩ := List.append_eq_nil_iff.mp empty
  rw [plain, Name.plain_eq_self symbol, Name.plain_eq_self bound]

theorem plainList_eq_self {vs : List Node} (each : ∀ v ∈ vs, v.plain = v) : plainList vs = vs := by
  rw [plainList_eq_map, List.map_congr_left each, List.map_id']

theorem plainOption_eq_self {part : Option Node} (each : ∀ v ∈ part.toList, v.plain = v) :
    plainOption part = part := by
  cases part with
  | none => rfl
  | some v => rw [plainOption, each v (by simp)]

/-- A form without comments of its own is plain if its children are. -/
theorem Form.plain_eq_self {f : Form} (empty : f.held = [])
    (each : ∀ v ∈ f.children, v.plain = v) : f.plain = f := by
  cases f with
  | ident | literal | string | branch | commentBlock | verbatim => rfl
  | unary p op x | returnStmt p x => rw [Form.plain, plainOption_eq_self each]
  | slice x p lower q upper second step s =>
      simp only [Form.children, List.forall_mem_cons, List.forall_mem_append] at each
      obtain ⟨inner, ⟨start, stop⟩, stride⟩ := each
      rw [Form.plain, inner, plainOption_eq_self start, plainOption_eq_self stop,
        plainOption_eq_self stride]
  | load p label c bindings e k =>
      simp only [Form.held, List.append_eq_nil_iff] at empty
      obtain ⟨⟨own, names⟩, close⟩ := empty
      have symbols : bindings.map Binding.plain = bindings := by
        rw [List.map_congr_left fun b member =>
          Binding.plain_eq_self (List.flatMap_eq_nil_iff.mp names b member), List.map_id']
      rw [Form.plain, Comments.eq_none own, symbols, Close.plain_eq_self close]
  | typed name p type =>
      rw [Form.plain, Name.plain_eq_self empty, each type (List.mem_singleton_self type)]
  | call | collection | comprehension | paren | ifStmt =>
      simp only [Form.children, List.forall_mem_cons, List.forall_mem_append] at each
      simp_all [Form.plain, plainList_eq_self, Close.plain_eq_self empty]
  | lambda | defStmt | forStmt | dot | index | binary | conditional | keyValue | forClause
  | ifClause =>
      simp only [Form.children, List.forall_mem_cons, List.forall_mem_append] at each
      simp_all [Form.plain, plainList_eq_self]

/-- A tree without comments is plain, by induction on the tree. -/
theorem Node.plain_eq_self (v : Node) (empty : v.remarks = []) : v.plain = v := by
  induction v using Node.inductionOnChildren with
  | step v ih =>
      obtain ⟨c, f⟩ := v
      rw [Node.remarks_mk, Form.remarks] at empty
      simp only [List.append_eq_nil_iff] at empty
      obtain ⟨own, held, parts⟩ := empty
      rw [Node.plain, Comments.eq_none own, Form.plain_eq_self held]
      intro v member
      exact ih v member (List.flatMap_eq_nil_iff.mp parts v member)

/-! ## The shape of a tree -/

theorem startsWithLoop_plain (clauses : List Node) :
    startsWithLoop (plainList clauses) = startsWithLoop clauses := by
  match clauses with
  | [] => rfl
  | .mk _ f :: _ => cases f <;> rfl

theorem plainList_eq_nil {vs : List Node} : plainList vs = [] ↔ vs = [] := by
  rw [plainList_eq_map, List.map_eq_nil_iff]

theorem isSome_plainOption (v : Option Node) : (plainOption v).isSome = v.isSome := by
  cases v <;> rfl

theorem plainOption_eq_none {v : Option Node} : plainOption v = none ↔ v = none := by
  cases v <;> simp [plainOption]

mutual

/-- Whether a form is a test does not depend on comments. -/
theorem Form.isTest_plain : ∀ f : Form, f.plain.IsTest ↔ f.IsTest
  | .ident .. | .literal .. | .string _ => Iff.rfl
  | .keyValue .. | .forClause .. | .ifClause .. | .defStmt .. | .forStmt .. | .ifStmt ..
  | .returnStmt .. | .branch .. | .load .. | .commentBlock _ | .verbatim .. | .typed .. => by
    simp only [Form.plain, Form.IsTest]
  | .dot x _ _ _ => by
    simp only [Form.plain, Form.IsTest, x.plays_plain]
  | .index x _ y _ => by
    simp only [Form.plain, Form.IsTest, x.plays_plain, y.plays_plain]
  | .slice x _ lower _ upper _ step _ => by
    simp only [Form.plain, Form.IsTest, x.plays_plain, playsMaybe_plain lower,
      playsMaybe_plain upper, playsMaybe_plain step, plainOption_eq_none]
  | .unary _ _ x => by
    simp only [Form.plain, Form.IsTest, playsMaybe_plain x, isSome_plainOption]
  | .binary _ x _ _ _ y => by
    simp only [Form.plain, Form.IsTest, x.plays_plain, y.plays_plain]
  | .conditional yes _ test _ no => by
    simp only [Form.plain, Form.IsTest, yes.plays_plain, test.plays_plain, no.plays_plain]
  | .lambda _ params _ body => by
    simp only [Form.plain, Form.IsTest, playAll_plain params, body.plays_plain]
  | .call callee _ args _ _ => by
    simp only [Form.plain, Form.IsTest, callee.plays_plain, playAll_plain args]
  | .collection _ _ items _ _ => by
    simp only [Form.plain, Form.IsTest, playAll_plain items, ne_eq, plainList_eq_nil]
  | .comprehension _ _ body clauses _ _ => by
    simp only [Form.plain, Form.IsTest, body.plays_plain, startsWithLoop_plain,
      playAll_plain clauses]
  | .paren _ x _ _ => by
    simp only [Form.plain, Form.IsTest, x.plays_plain]

/-- Comments do not matter for the shape of a tree. -/
theorem Node.plays_plain : ∀ (v : Node) (r : Role), v.plain.Plays r ↔ v.Plays r
  | .mk c f, r => by
    have test := f.isTest_plain
    cases r with
    | test => exact test
    | expression =>
        cases f with
        | collection kind p items e l =>
            cases kind with
            | bareTuple =>
                simp only [Node.plain, Form.plain, Node.Plays, ne_eq, plainList_eq_nil,
                  playAll_plain items]
            | list | set | dict | tuple => exact test
        | _ => exact test
    | argument =>
        cases f with
        | unary p op x =>
            cases x with
            | none => exact test
            | some x => simp only [Node.plain, Form.plain, plainOption, Node.Plays, x.plays_plain]
        | binary assigns x p op l y =>
            cases assigns with
            | false => exact test
            | true => simp only [Node.plain, Form.plain, Node.Plays, x.plays_plain, y.plays_plain]
        | _ => exact test
    | entry =>
        cases f with
        | keyValue key p value =>
            simp only [Node.plain, Form.plain, Node.Plays, key.plays_plain, value.plays_plain]
        | _ => exact Iff.rfl
    | element curly =>
        cases f with
        | keyValue key p value =>
            simp only [Node.plain, Form.plain, Node.Plays, key.plays_plain, value.plays_plain]
        | _ => exact test
    | clause =>
        cases f with
        | forClause p vars q x =>
            simp only [Node.plain, Form.plain, Node.Plays, vars.plays_plain, x.plays_plain]
        | ifClause p cond => simp only [Node.plain, Form.plain, Node.Plays, cond.plays_plain]
        | _ => exact Iff.rfl
    | param types =>
        cases f with
        | typed name p type =>
            simp only [Node.plain, Form.plain, Node.Plays, Name.plain, type.plays_plain]
        | unary p op x =>
            match x with
            | none => exact Iff.rfl
            | some (.mk _ g) => cases g <;> exact Iff.rfl
        | binary assigns x p op l y =>
            cases assigns with
            | false => exact Iff.rfl
            | true =>
                obtain ⟨_, g⟩ := x
                cases g with
                | ident => simp only [Node.plain, Form.plain, Node.Plays, y.plays_plain]
                | typed name q type =>
                    simp only [Node.plain, Form.plain, Node.Plays, Name.plain, type.plays_plain,
                      y.plays_plain]
                | _ => exact Iff.rfl
        | _ => exact Iff.rfl
    | line types =>
        cases f with
        | returnStmt p result =>
            simp only [Node.plain, Form.plain, Node.Plays, playsMaybe_plain result]
        | load p label c bindings e k =>
            simp only [Node.plain, Form.plain, Node.Plays, List.forall_mem_map]
            exact Iff.rfl
        | binary assigns x p op l y =>
            cases assigns with
            | false => exact test
            | true => simp only [Node.plain, Form.plain, Node.Plays, x.plays_plain, y.plays_plain]
        | defStmt p n q params r s body l =>
            simp only [Node.plain, Form.plain, Node.Plays, playAll_plain params,
              playAll_plain body]
        | forStmt p vars x body =>
            simp only [Node.plain, Form.plain, Node.Plays, vars.plays_plain, x.plays_plain,
              playAll_plain body]
        | ifStmt p cond yesBody e noBody =>
            simp only [Node.plain, Form.plain, Node.Plays, cond.plays_plain,
              playAll_plain yesBody, playAll_plain noBody]
        | collection kind p items e l =>
            cases kind with
            | bareTuple =>
                simp only [Node.plain, Form.plain, Node.Plays, ne_eq, plainList_eq_nil,
                  playAll_plain items]
            | list | set | dict | tuple => exact test
        | branch | commentBlock => exact Iff.rfl
        | _ => exact test

theorem playAll_plain : ∀ (vs : List Node) (r : Role), PlayAll r (plainList vs) ↔ PlayAll r vs
  | [], _ => Iff.rfl
  | v :: vs, r => by
    simp only [plainList, PlayAll, v.plays_plain, playAll_plain vs]

theorem playsMaybe_plain : ∀ (v : Option Node) (r : Role),
    PlaysMaybe r (plainOption v) ↔ PlaysMaybe r v
  | none, _ => Iff.rfl
  | some v, r => v.plays_plain r

end

end Starlark
