import Starlark.Proofs.Labels
import Starlark.Proofs.Pruned
import Starlark.Proofs.Reader.Complete.Statement
import Starlark.Proofs.Relabel

/-!
# Reading without comments

A row of tokens can be hushed: its comments go, the line ends that are left
without a line may go with them, and the other tokens may get other places that
a shift does not tell from the old ones. What is read from the hushed row is
what is read from the whole row, without its comments and comment blocks and up
to the shift (`Reader.statements_of_hushed`).

Only the end of a line that holds something must stay. The relation therefore
carries along whether a line end stands before a token.
-/

set_option autoImplicit false

namespace Starlark

open Reader (Suite Arm Ended nested)

variable {φ : Shift} {ρ : Relabeling φ}

/-- The second row of tokens is the first one, hushed. The flags say whether a line end stands
before and at the end of the first row. -/
inductive Hushed (ρ : Relabeling φ) : Bool → List Token → List Token → Bool → Prop
  | done {a : Bool} : Hushed ρ a [] [] a
  | inline {a b : Bool} {t : Token} {ts us : List Token} (inline : t.kind.isInline = true)
      (rest : Hushed ρ false ts us b) : Hushed ρ a (t :: ts) (ρ.token t :: us) b
  | layout {a b : Bool} {t t' : Token} {ts us : List Token} (other : t.kind.isInline = false)
      (code : t.kind ≠ .comment) (kind : t'.kind = t.kind)
      (rest : Hushed ρ (t.kind == .newline) ts us b) : Hushed ρ a (t :: ts) (t' :: us) b
  | comment {a b : Bool} {t : Token} {ts us : List Token} (kind : t.kind = .comment)
      (rest : Hushed ρ a ts us b) : Hushed ρ a (t :: ts) us b
  | blank {b : Bool} {t : Token} {ts us : List Token} (ends : t.kind = .newline)
      (rest : Hushed ρ true ts us b) : Hushed ρ true (t :: ts) us b

namespace Hushed

variable {a b : Bool} {t : Token} {ts us ws : List Token}

/-- A hushed row is cut where the row is cut. -/
theorem of_append (hushed : Hushed ρ a (ts ++ us) ws b) :
    ∃ c front back, ws = front ++ back ∧ Hushed ρ a ts front c ∧ Hushed ρ c us back b := by
  induction ts generalizing a ws with
  | nil => exact ⟨a, [], ws, rfl, .done, hushed⟩
  | cons t ts ih =>
      cases hushed with
      | inline inline rest =>
          obtain ⟨c, front, back, rfl, one, two⟩ := ih rest
          exact ⟨c, _, back, rfl, .inline inline one, two⟩
      | layout other code kind rest =>
          obtain ⟨c, front, back, rfl, one, two⟩ := ih rest
          exact ⟨c, _, back, rfl, .layout other code kind one, two⟩
      | comment kind rest =>
          obtain ⟨c, front, back, rfl, one, two⟩ := ih rest
          exact ⟨c, front, back, rfl, .comment kind one, two⟩
      | blank ends rest =>
          obtain ⟨c, front, back, rfl, one, two⟩ := ih rest
          exact ⟨c, front, back, rfl, .blank ends one, two⟩

theorem of_cons (hushed : Hushed ρ a (t :: ts) ws b) (inline : t.kind.isInline = true) :
    ∃ rest, ws = ρ.token t :: rest ∧ Hushed ρ false ts rest b := by
  cases hushed with
  | inline _ rest => exact ⟨_, rfl, rest⟩
  | layout other => rw [inline] at other; cases other
  | comment kind => rw [kind] at inline; cases inline
  | blank ends => rw [ends] at inline; cases inline

/-- Tokens inside a line stay when the row is hushed, in their new places. -/
theorem of_inline (hushed : Hushed ρ false (ts ++ us) ws b) (inline : Inline ts) :
    ∃ rest, ws = ts.map ρ.token ++ rest ∧ Hushed ρ false us rest b := by
  induction ts generalizing ws with
  | nil => exact ⟨ws, rfl, hushed⟩
  | cons t ts ih =>
      obtain ⟨first, others⟩ := inline_cons.mp inline
      obtain ⟨_, rfl, more⟩ := hushed.of_cons first
      obtain ⟨back, rfl, rest⟩ := ih more others
      exact ⟨back, rfl, rest⟩

/-- The tokens of a header stay. -/
theorem of_header (hushed : Hushed ρ a (ts ++ us) ws b) (inline : Inline ts) (nonempty : ts ≠ []) :
    ∃ rest, ws = ts.map ρ.token ++ rest ∧ Hushed ρ false us rest b := by
  obtain ⟨t, ts, rfl⟩ := List.exists_cons_of_ne_nil nonempty
  obtain ⟨first, others⟩ := inline_cons.mp inline
  obtain ⟨_, rfl, more⟩ := of_cons hushed first
  obtain ⟨rest, rfl, behind⟩ := more.of_inline others
  exact ⟨rest, rfl, behind⟩

theorem of_nil (hushed : Hushed ρ a [] ws b) : ws = [] := by
  cases hushed
  rfl

/-- A token that neither stands in a line nor ends one stays. -/
theorem of_layout (hushed : Hushed ρ a (t :: ts) ws b) (other : t.kind.isInline = false)
    (code : t.kind ≠ .comment) (within : t.kind ≠ .newline) :
    ∃ t' rest, ws = t' :: rest ∧ t'.kind = t.kind ∧ Hushed ρ false ts rest b := by
  cases hushed with
  | inline inline => rw [inline] at other; cases other
  | layout _ _ kind rest =>
      rw [beq_false_of_ne within] at rest
      exact ⟨_, _, rfl, kind, rest⟩
  | comment kind => exact absurd kind code
  | blank ends => exact absurd ends within

/-- The end of a line that holds something stays. -/
theorem of_lineEnd (hushed : Hushed ρ false (t :: ts) ws b) (ends : t.kind = .newline) :
    ∃ t' rest, ws = t' :: rest ∧ t'.kind = .newline ∧ Hushed ρ true ts rest b := by
  cases hushed with
  | inline inline => rw [ends] at inline; cases inline
  | layout _ _ kind rest =>
      rw [ends] at kind rest
      exact ⟨_, _, rfl, kind, rest⟩
  | comment kind => rw [ends] at kind; cases kind

theorem of_comment (hushed : Hushed ρ a (t :: ts) ws b) (kind : t.kind = .comment) :
    Hushed ρ a ts ws b := by
  cases hushed with
  | inline inline => rw [kind] at inline; cases inline
  | layout _ code => exact absurd kind code
  | comment _ rest => exact rest
  | blank ends => rw [kind] at ends; cases ends

/-- Any other end of a line stays or goes. -/
theorem of_newline (hushed : Hushed ρ a (t :: ts) ws b) (ends : t.kind = .newline) :
    (∃ t' rest, ws = t' :: rest ∧ t'.kind = .newline ∧ Hushed ρ true ts rest b) ∨
      Hushed ρ true ts ws b := by
  cases hushed with
  | inline inline => rw [ends] at inline; cases inline
  | layout _ _ kind rest =>
      rw [ends] at kind rest
      exact .inl ⟨_, _, rfl, kind, rest⟩
  | comment kind => rw [ends] at kind; cases kind
  | blank _ rest => exact .inr rest

end Hushed

/-! ## Lines -/

/-- The statements are quiet, and they are the other ones without comments and comment blocks, up
to the shift. -/
structure Echo (φ : Shift) (ws vs : List Node) : Prop where
  quiet : ∀ w ∈ ws, w.Quiet
  moved : ws.map (Node.moved φ) = (prunedList vs).map (Node.moved φ)

theorem Echo.of_inert {vs ws : List Node} (left : ∀ w ∈ ws, w.Inert) (right : ∀ v ∈ vs, v.Inert)
    (moved : ws.map (Node.moved φ) = vs.map (Node.moved φ)) : Echo φ ws vs where
  quiet w member := .of_inert (left w member)
  moved := by rw [prunedList_of_quiet fun v member => .of_inert (right v member), moved]

theorem StmtLine.hushed {a b : Bool} {ts us : List Token} {vs : List Node} (line : StmtLine ts vs)
    (hushed : Hushed ρ a ts us b) : ∃ ws, StmtLine us ws ∧ Echo φ ws vs := by
  obtain ⟨front, last, rfl, inline, nonempty, ends, retold⟩ := line.retold (ρ := ρ)
  obtain ⟨_, rfl, behind⟩ := hushed.of_header inline nonempty
  obtain ⟨t', rest, rfl, ends', none⟩ := behind.of_lineEnd ends
  cases none.of_nil
  obtain ⟨ws, line', moved⟩ := retold ends'
  exact ⟨ws, line', .of_inert line'.stmts.2.1 line.stmts.2.1 moved⟩

/-- Of comments and blank lines, blank lines are left. -/
theorem CommentLines.hushed {a b : Bool} {ts us : List Token} {entries : List Entry}
    (lines : CommentLines ts entries) (hushed : Hushed ρ a ts us b) :
    ∃ entries', CommentLines us entries' ∧ ∀ e ∈ entries', e = .blank := by
  induction lines generalizing a us with
  | none =>
      cases hushed
      exact ⟨[], .none, by simp⟩
  | blank ends _ ih =>
      obtain ⟨t', _, rfl, ends', rest⟩ | rest := hushed.of_newline ends
      · obtain ⟨entries', more, blanks⟩ := ih rest
        exact ⟨_, .blank ends' more, List.forall_mem_cons.mpr ⟨rfl, blanks⟩⟩
      · exact ih rest
  | remark kind ends _ ih =>
      obtain ⟨t', _, rfl, ends', rest⟩ | rest := (hushed.of_comment kind).of_newline ends
      · obtain ⟨entries', more, blanks⟩ := ih rest
        exact ⟨_, .blank ends' more, List.forall_mem_cons.mpr ⟨rfl, blanks⟩⟩
      · exact ih rest

/-- The end of a header stays its end and has no comment any more. -/
theorem HeaderEnd.hushed {b : Bool} {ts us : List Token} {header : List Comment}
    (ends : HeaderEnd ts header) (hushed : Hushed ρ false ts us b) : HeaderEnd us [] := by
  cases ends with
  | plain ends =>
      obtain ⟨t', rest, rfl, ends', none⟩ := hushed.of_lineEnd ends
      cases none.of_nil
      exact .plain ends'
  | commented kind ends =>
      obtain ⟨t', rest, rfl, ends', none⟩ := (hushed.of_comment kind).of_lineEnd ends
      cases none.of_nil
      exact .plain ends'

/-! ## Statements with a body -/

/-- Quiet nodes are their forms. -/
theorem map_bare_formsOf {ws : List Node} (quiet : ∀ w ∈ ws, w.Quiet) :
    (formsOf ws).map Node.bare = ws := by
  induction ws with
  | nil => rfl
  | cons w ws ih =>
      obtain ⟨here, others⟩ := List.forall_mem_cons.mp quiet
      have whole : Node.bare w.form = w := by
        obtain ⟨c, f⟩ := w
        rw [Node.bare, Node.form, ← here.comments, Node.comments]
      rw [formsOf_cons, Node.statement?, here.statement, List.map_append, ih others]
      exact congrArg (· :: ws) whole

namespace Echo

theorem nil : Echo φ [] [] := ⟨by simp, rfl⟩

theorem pruned_eq {ws vs : List Node} (echo : Echo φ ws vs) : prunedList ws = ws :=
  prunedList_of_quiet echo.quiet

theorem movedList_eq {ws vs : List Node} (echo : Echo φ ws vs) :
    movedList φ ws = movedList φ (prunedList vs) := by
  rw [movedList_eq_map, movedList_eq_map, echo.moved]

theorem single {f f' : Form} {c : Comments} (statement' : f'.isCommentBlock = false)
    (statement : f.isCommentBlock = false) (pruned : f'.pruned = f')
    (moved : f'.moved φ = f.pruned.moved φ) : Echo φ [.mk (.ofSuffix []) f'] [.mk c f] where
  quiet := List.forall_mem_singleton.mpr ⟨congrArg Node.bare pruned, statement'⟩
  moved := by
    show [(Node.bare f').moved φ] = _
    simp [prunedList_cons, Node.isCommentBlock, statement, moved]

/-- Only the forms of statements count. -/
theorem of_forms {ws vs : List Node} (quiet : ∀ w ∈ ws, w.Quiet)
    (moved : (formsOf ws).map (Form.moved φ) = (formsOf vs).map fun f => f.pruned.moved φ) :
    Echo φ ws vs where
  quiet := quiet
  moved := by
    have own := map_bare_formsOf quiet
    calc ws.map (Node.moved φ)
      _ = ((formsOf ws).map (Form.moved φ)).map Node.bare := by
        conv_lhs => rw [← own]
        simp
      _ = (prunedList vs).map (Node.moved φ) := by
        rw [moved, prunedList_eq]
        simp

theorem forms {ws vs : List Node} (echo : Echo φ ws vs) :
    (formsOf ws).map (Form.moved φ) = (formsOf vs).map fun f => f.pruned.moved φ := by
  have same := echo.moved
  rw [← map_bare_formsOf echo.quiet, prunedList_eq] at same
  have forms := congrArg (List.map Node.form) same
  simp only [List.map_map, Function.comp_def, Node.moved_bare] at forms
  exact forms

end Echo

/-- A part of a statement that holds none, and what it is without comments. -/
structure Part (φ : Shift) (x' x : Node) : Prop where
  plain : x'.plain = x'
  moved : x'.moved φ = x.plain.moved φ

theorem Spells.part {p : Phrase} {ts : List Token} {x : Node} (spells : Spells p ts [x]) :
    ∃ x', Spells p (ts.map ρ.token) [x'] ∧ Part φ x' x := by
  obtain ⟨x', spells', same⟩ := (spells.retold (ρ := ρ)).one
  refine ⟨x', spells', x'.plain_eq_self (spells'.inert x' (.head _)).remarks, ?_⟩
  rw [same, x.plain_eq_self (spells.inert x (.head _)).remarks]

/-- The branch of a hushed row. -/
structure ArmEcho (φ : Shift) (a' a : Arm) : Prop where
  pos : φ.place a'.pos = φ.place a.pos
  cond : Part φ a'.cond a.cond
  header : a'.suite.header = []
  body : Echo φ a'.suite.body a.suite.body

/-- What is read from a hushed row is quiet, and it is what is read from the whole row without
comments and comment blocks, up to the shift. -/
inductive Reading.Echoes (φ : Shift) : Reading → Reading → Prop
  | suite {s s' : Suite} (header : s'.header = []) (body : Echo φ s'.body s.body) :
      Echoes φ (.suite s') (.suite s)
  | compound {v v' : Node} {followed followed' : Bool} (stmt : Echo φ [v'] [v]) :
      Echoes φ (.compound (v', followed')) (.compound (v, followed))
  | arms {as as' : List Arm} (each : List.Forall₂ (ArmEcho φ) as' as) :
      Echoes φ (.arms as') (.arms as)
  | lines {es es' : List Entry} (quiet : ∀ e ∈ es', e.Quiet)
      (moved : (es'.flatMap Entry.forms).map (Form.moved φ) =
        (es.flatMap Entry.forms).map fun f => f.pruned.moved φ) :
      Echoes φ (.lines es') (.lines es)

theorem ArmEcho.ifStmt {a a' : Arm} {e e' : Close} {no no' : List Node} (arm : ArmEcho φ a' a)
    (plain : e'.plain = e') (moved : e'.moved φ = e.plain.moved φ) (others : Echo φ no' no) :
    Echo φ [a'.ifStmt e' no'] [a.ifStmt e no] := by
  rw [Arm.ifStmt, arm.header]
  refine .single rfl rfl ?_ ?_
  · rw [Form.pruned_ifStmt, arm.cond.plain, arm.body.pruned_eq, plain, others.pruned_eq]
  · simp only [Form.pruned_ifStmt, Form.moved, arm.pos, arm.cond.moved, moved,
      arm.body.movedList_eq, others.movedList_eq]

/-- Branches that echo one another nest into an `if` that echoes the other. -/
theorem nested_echo {as as' : List Arm} {e e' : Close} {no no' : List Node}
    (each : List.Forall₂ (ArmEcho φ) as' as) (plain : e'.plain = e')
    (moved : e'.moved φ = e.plain.moved φ) (others : Echo φ no' no) :
    (nested e' no' as').1.plain = (nested e' no' as').1 ∧
      (nested e' no' as').1.moved φ = (nested e no as).1.plain.moved φ ∧
      Echo φ (nested e' no' as').2 (nested e no as).2 := by
  induction each with
  | nil => exact ⟨plain, moved, others⟩
  | cons arm _ ih =>
      obtain ⟨plain, moved, others⟩ := ih
      exact ⟨rfl, congrArg Close.at arm.pos, arm.ifStmt plain moved others⟩

/-- Blank lines below a header leave the body as it is. -/
theorem Block.precede_of_blanks {leading : List Entry} (blanks : ∀ e ∈ leading, e = .blank)
    (body : List Node) : (Block.ofEntries leading).precede body = body := by
  have none : (Block.ofEntries leading).rev = [] := by
    have folded : ∀ b : Block, b.rev = [] → (leading.foldl Block.add b).rev = [] := by
      induction leading with
      | nil => exact fun b empty => empty
      | cons e leading ih =>
          obtain ⟨rfl, others⟩ := List.forall_mem_cons.mp blanks
          exact fun b empty => ih others _ empty
    exact folded .empty rfl
  simp [Block.precede, Block.nodes, none]

/-- Tokens without their comments build the same lines, but for the comments and the blank lines. -/
theorem Builds.hushed {types : Bool} {ts : List Token} {r : Reading} (builds : Builds types ts r) :
    ∀ {a b : Bool} {us : List Token}, Hushed ρ a ts us b → ((∃ s, r = .suite s) → a = false) →
      ∃ r', Builds types us r' ∧ Reading.Echoes φ r' r := by
  -- the end of a line without statements stays as a blank line, or goes
  have emptied {a b : Bool} {t : Token} {ts us : List Token} {e : Entry} {entries : List Entry}
      (hushed : Hushed ρ a (t :: ts) us b) (ends : t.kind = .newline) (silent : e.forms = [])
      (ih : ∀ {us : List Token}, Hushed ρ true ts us b →
        ∃ r', Builds types us r' ∧ Reading.Echoes φ r' (.lines entries)) :
      ∃ r', Builds types us r' ∧ Reading.Echoes φ r' (.lines (e :: entries)) := by
    obtain ⟨t', _, rfl, ends', rest⟩ | rest := hushed.of_newline ends
    · obtain ⟨_, more', ⟨⟩ | ⟨⟩ | ⟨⟩ | ⟨quiet, moved⟩⟩ := ih rest
      refine ⟨_, .blank ends' more', .lines (List.forall_mem_cons.mpr ⟨trivial, quiet⟩) ?_⟩
      rwa [List.flatMap_cons, List.flatMap_cons, silent]
    · obtain ⟨_, more', ⟨⟩ | ⟨⟩ | ⟨⟩ | ⟨quiet, moved⟩⟩ := ih rest
      exact ⟨_, more', .lines quiet (by rwa [List.flatMap_cons, silent])⟩
  induction builds with
  | lineSuite line =>
      intro a b us hushed _
      obtain ⟨ws, line', echo⟩ := line.hushed hushed
      exact ⟨_, .lineSuite line', .suite rfl echo⟩
  | blockSuite ends above opening body closing ih =>
      intro a b us hushed unended
      obtain rfl := unended ⟨_, rfl⟩
      obtain ⟨_, _, _, rfl, front, block⟩ := hushed.of_append
      obtain ⟨_, hs, ls, rfl, head, lines⟩ := front.of_append
      obtain ⟨leading, above', blanks⟩ := above.hushed lines
      obtain ⟨o, _, rfl, opening', behind⟩ := block.of_layout (by rw [opening]; rfl)
        (by rw [opening]; nofun) (by rw [opening]; nofun)
      obtain ⟨_, ts, _, rfl, within, last⟩ := behind.of_append
      obtain ⟨c, _, rfl, closing', none⟩ := last.of_layout (by rw [closing]; rfl)
        (by rw [closing]; nofun) (by rw [closing]; nofun)
      cases none.of_nil
      obtain ⟨_, body', ⟨⟩ | ⟨⟩ | ⟨⟩ | ⟨quiet, moved⟩⟩ := ih within nofun
      refine ⟨_, .blockSuite (ends.hushed head) above' (opening'.trans opening) body'
        (closing'.trans closing), .suite rfl ?_⟩
      rw [Block.precede_of_blanks blanks]
      refine .of_forms (Block.ofEntries_of_quiet quiet) ?_
      rw [Block.formsOf_ofEntries, Block.formsOf_precede, Block.formsOf_ofEntries,
        Block.formsOf_ofEntries, above.forms_eq, List.nil_append, moved]
  | @define a t b c d ps ts params s key named opening parts closing colon _ ih =>
      intro _ _ us hushed _
      have row : a :: t :: b :: (ps ++ c :: d :: ts) =
          (a :: t :: b :: (ps ++ [c, d])) ++ ts := by simp
      rw [row] at hushed
      obtain ⟨rest, rfl, behind⟩ := hushed.of_header (by
        simp [key, opening, closing, colon, parts.inline, Token.Kind.isInline_of_isName named])
          (by simp)
      obtain ⟨_, body', ⟨header, echo⟩ | ⟨⟩ | ⟨⟩ | ⟨⟩⟩ := ih behind fun _ => rfl
      obtain ⟨params', parts', moved⟩ := parts.retold (ρ := ρ)
      have stmt := Builds.define (t := ρ.token t) ((ρ.kind a).trans key) (by simpa using named)
        ((ρ.kind b).trans opening) parts' ((ρ.kind c).trans closing) ((ρ.kind d).trans colon) body'
      rw [header] at stmt
      refine ⟨_, by simpa using stmt, .compound (.single rfl rfl ?_ ?_)⟩
      · have plain :=
          plainList_eq_self fun v member => v.plain_eq_self (parts'.inert v member).remarks
        rw [Form.pruned_defStmt, plain, echo.pruned_eq]
      · have plain :=
          plainList_eq_self fun v member => v.plain_eq_self (parts.inert v member).remarks
        have layout := Layout.ofParts_moved φ b.pos c.pos params
        have layout' := Layout.ofParts_moved φ (ρ.token b).pos (ρ.token c).pos params'
        simp only [ρ.pos, moved] at layout layout'
        simp only [Form.pruned_defStmt, Form.moved, ρ.pos, movedList_eq_map φ params',
          movedList_eq_map φ params, plain, moved, echo.movedList_eq, ← layout, ← layout']
  | @loop a b c vs xs ts vars x s key bound inside range colon _ ih =>
      intro _ _ us hushed _
      have row : a :: (vs ++ b :: (xs ++ c :: ts)) =
          (a :: (vs ++ b :: (xs ++ [c]))) ++ ts := by simp
      rw [row] at hushed
      obtain ⟨rest, rfl, behind⟩ := hushed.of_header
        (by simp [key, inside, colon, bound.inline, range.inline]) (by simp)
      obtain ⟨_, body', ⟨header, echo⟩ | ⟨⟩ | ⟨⟩ | ⟨⟩⟩ := ih behind fun _ => rfl
      obtain ⟨vars', bound', left⟩ := bound.part (ρ := ρ)
      obtain ⟨x', range', right⟩ := range.part (ρ := ρ)
      have stmt := Builds.loop ((ρ.kind a).trans key) bound'
        ((ρ.kind b).trans inside) range' ((ρ.kind c).trans colon) body'
      rw [header] at stmt
      refine ⟨_, by simpa using stmt, .compound (.single rfl rfl ?_ ?_)⟩
      · rw [Form.pruned_forStmt, left.plain, right.plain, echo.pruned_eq]
      · simp only [Form.pruned_forStmt, Form.moved, ρ.pos, left.moved, right.moved,
          echo.movedList_eq]
  | @choice a b cs ts us cond s arms key test colon _ _ ihs iha =>
      intro _ _ ws hushed _
      have row : a :: (cs ++ b :: (ts ++ us)) = (a :: (cs ++ [b])) ++ (ts ++ us) := by simp
      rw [row] at hushed
      obtain ⟨rest, rfl, behind⟩ := hushed.of_header (by simp [key, colon, test.inline]) (by simp)
      obtain ⟨_, ts', us', rfl, one, two⟩ := behind.of_append
      obtain ⟨_, body', ⟨header, echo⟩ | ⟨⟩ | ⟨⟩ | ⟨⟩⟩ := ihs one fun _ => rfl
      obtain ⟨_, more', ⟨⟩ | ⟨⟩ | ⟨each⟩ | ⟨⟩⟩ := iha two nofun
      obtain ⟨cond', test', part⟩ := test.part (ρ := ρ)
      have stmt := Builds.choice ((ρ.kind a).trans key) test' ((ρ.kind b).trans colon) body' more'
      obtain ⟨plain, moved, others⟩ := nested_echo each rfl (e := .at .nowhere) rfl .nil
      refine ⟨_, by simpa using stmt, .compound ?_⟩
      exact ArmEcho.ifStmt ⟨ρ.pos a, part, header, echo⟩ plain moved others
  | @choiceElse a b e c cs ts us vs cond s s' arms key test colon _ _ otherwise second _
    ihs iha ihl =>
      intro _ _ ws hushed _
      have row : a :: (cs ++ b :: (ts ++ us ++ e :: c :: vs)) =
          (a :: (cs ++ [b])) ++ (ts ++ us ++ ([e, c] ++ vs)) := by simp
      rw [row] at hushed
      obtain ⟨rest, rfl, behind⟩ := hushed.of_header (by simp [key, colon, test.inline]) (by simp)
      obtain ⟨_, front, back, rfl, branches, final⟩ := behind.of_append
      obtain ⟨_, ts', us', rfl, one, two⟩ := branches.of_append
      obtain ⟨vs', rfl, three⟩ := final.of_header (by simp [otherwise, second]) (by simp)
      obtain ⟨_, body', ⟨header, echo⟩ | ⟨⟩ | ⟨⟩ | ⟨⟩⟩ := ihs one fun _ => rfl
      obtain ⟨_, more', ⟨⟩ | ⟨⟩ | ⟨each⟩ | ⟨⟩⟩ := iha two nofun
      obtain ⟨_, last', ⟨header', echo'⟩ | ⟨⟩ | ⟨⟩ | ⟨⟩⟩ := ihl three fun _ => rfl
      obtain ⟨cond', test', part⟩ := test.part (ρ := ρ)
      have stmt :=
        Builds.choiceElse ((ρ.kind a).trans key) test' ((ρ.kind b).trans colon) body' more'
        ((ρ.kind e).trans otherwise) ((ρ.kind c).trans second) last'
      rw [header'] at stmt
      have close : Close.moved φ ⟨(ρ.token e).pos, .ofSuffix []⟩ =
          Close.moved φ (Close.plain ⟨e.pos, .ofSuffix s'.header⟩) := congrArg Close.at (ρ.pos e)
      obtain ⟨plain, moved, others⟩ := nested_echo each rfl close echo'
      refine ⟨_, by simpa using stmt, .compound ?_⟩
      exact ArmEcho.ifStmt ⟨ρ.pos a, part, header, echo⟩ plain moved others
  | noArm =>
      intro _ _ us hushed _
      cases hushed.of_nil
      exact ⟨_, .noArm, .arms .nil⟩
  | @arm a b cs ts us cond s arms key test colon _ _ ihs iha =>
      intro _ _ ws hushed _
      have row : a :: (cs ++ b :: (ts ++ us)) = (a :: (cs ++ [b])) ++ (ts ++ us) := by simp
      rw [row] at hushed
      obtain ⟨rest, rfl, behind⟩ := hushed.of_header (by simp [key, colon, test.inline]) (by simp)
      obtain ⟨_, ts', us', rfl, one, two⟩ := behind.of_append
      obtain ⟨_, body', ⟨header, echo⟩ | ⟨⟩ | ⟨⟩ | ⟨⟩⟩ := ihs one fun _ => rfl
      obtain ⟨_, more', ⟨⟩ | ⟨⟩ | ⟨each⟩ | ⟨⟩⟩ := iha two nofun
      obtain ⟨cond', test', part⟩ := test.part (ρ := ρ)
      have branches := Builds.arm ((ρ.kind a).trans key) test' ((ρ.kind b).trans colon) body' more'
      exact ⟨_, by simpa using branches, .arms (.cons ⟨ρ.pos a, part, header, echo⟩ each)⟩
  | noLine =>
      intro _ _ us hushed _
      cases hushed.of_nil
      exact ⟨_, .noLine, .lines (by simp) rfl⟩
  | blank ends _ ih =>
      intro _ _ us hushed _
      exact emptied hushed ends rfl fun rest => ih rest nofun
  | remark kind ends _ ih =>
      intro _ _ us hushed _
      exact emptied (hushed.of_comment kind) ends rfl fun rest => ih rest nofun
  | @compound ts us stmt entries _ _ ihs ihl =>
      intro _ _ ws hushed _
      obtain ⟨v, followed⟩ := stmt
      obtain ⟨_, ts', us', rfl, one, two⟩ := hushed.of_append
      obtain ⟨_, first', ⟨⟩ | ⟨echo⟩ | ⟨⟩ | ⟨⟩⟩ := ihs one nofun
      obtain ⟨_, more', ⟨⟩ | ⟨⟩ | ⟨⟩ | ⟨quiet, moved⟩⟩ := ihl two nofun
      have lines := Builds.compound first' more'
      rw [Reader.blockGroup_of_quiet (echo.quiet _ (.head _))] at lines
      refine ⟨_, lines, .lines (List.forall_mem_cons.mpr ⟨echo.quiet, quiet⟩) ?_⟩
      have cut := congrArg (List.map (Form.moved φ)) (Reader.pruned_blockGroup (v, followed))
      rw [List.map_map, List.map_map] at cut
      rw [List.flatMap_cons, List.flatMap_cons, List.map_append, List.map_append, moved]
      exact congrArg (· ++ _) (echo.forms.trans cut.symm)
  | @stmts ts us vs entries first _ ih =>
      intro _ _ ws hushed _
      obtain ⟨_, ts', us', rfl, one, two⟩ := hushed.of_append
      obtain ⟨vs', first', echo⟩ := first.hushed one
      obtain ⟨_, more', ⟨⟩ | ⟨⟩ | ⟨⟩ | ⟨quiet, moved⟩⟩ := ih two nofun
      refine ⟨_, .stmts first' more', .lines (List.forall_mem_cons.mpr ⟨echo.quiet, quiet⟩) ?_⟩
      simp [List.flatMap_cons, Entry.forms, echo.forms, moved]

/-- What is read from a hushed row of tokens. -/
theorem Reader.statements_of_hushed {types b : Bool} {ts us : List Token} {vs : List Node}
    (read : Reader.statements types ts = .ok vs) (hushed : Hushed ρ false ts us b) :
    ∃ ws, Reader.statements types us = .ok ws ∧ Echo φ ws vs := by
  obtain ⟨used, rest, entries, rfl, stop, builds, rfl⟩ := Reader.statements_eq_ok read
  obtain ⟨_, us, vs, rfl, front, back⟩ := hushed.of_append
  obtain ⟨_, builds', ⟨⟩ | ⟨⟩ | ⟨⟩ | ⟨quiet, moved⟩⟩ := builds.hushed front nofun
  have stop' : (vs.headD .ended).kind = .eof := by
    cases rest with
    | nil => rw [back.of_nil]; rfl
    | cons t rest =>
        have eof : t.kind = .eof := stop
        obtain ⟨t', _, rfl, kind, _⟩ := back.of_layout (by rw [eof]; rfl) (by rw [eof]; nofun)
          (by rw [eof]; nofun)
        exact kind.trans eof
  refine ⟨_, Reader.statements_of_builds builds' stop',
    .of_forms (Block.ofEntries_of_quiet quiet) ?_⟩
  rw [Block.formsOf_ofEntries, Block.formsOf_ofEntries, moved]

/-! ## Sources without comments -/

/-- Without comments on the side, a source is read as its statements. -/
theorem File.ofStream_eq_ok {path : String} {options : Options} {stream : TokenStream} {f : File}
    (lines : stream.lineComments = []) (suffixes : stream.suffixComments = []) :
    File.ofStream path options stream = .ok f ↔
      ∃ vs, Reader.statements options.types stream.tokens = .ok vs ∧
        f = ⟨path, options.dialect, vs, .none⟩ := by
  constructor
  · intro read
    obtain ⟨vs, statements, done⟩ := Outcome.bind_eq_ok.mp read
    rw [lines, suffixes, attach_nil] at done
    cases done
    exact ⟨vs, statements, rfl⟩
  · rintro ⟨vs, statements, rfl⟩
    refine Outcome.bind_eq_ok.mpr ⟨vs, statements, ?_⟩
    rw [lines, suffixes, attach_nil]
    rfl

/-- A source without comments is read as its statements, and nothing is attached to them. -/
theorem File.ofChars_eq_ok {path : String} {options : Options} {source : List Char}
    {stream : TokenStream} {f : File} (scanned : TokenStream.ofChars source = .ok stream)
    (none : stream.remarks = []) :
    File.ofChars path options source = .ok f ↔
      ∃ vs, Reader.statements options.types stream.tokens = .ok vs ∧
        f = ⟨path, options.dialect, vs, .none⟩ := by
  obtain ⟨⟨_, lines⟩, suffixes⟩ : (commentsOf stream.tokens = [] ∧ stream.lineComments = []) ∧
      stream.suffixComments = [] := by
    simpa only [TokenStream.remarks, List.append_eq_nil_iff] using none
  have start : File.ofChars path options source = File.ofStream path options stream := by
    rw [File.ofChars, scanned]
    rfl
  rw [start]
  exact File.ofStream_eq_ok lines suffixes

end Starlark
