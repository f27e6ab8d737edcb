import Starlark.Proofs.Lexeme.Order
import Starlark.Proofs.Plain
import Starlark.Proofs.Reader.Complete.Statement
import Starlark.Proofs.Rescan
import Starlark.Proofs.Seam.Node
import Starlark.Proofs.Source
import Starlark.Proofs.Spelling

/-!
# Expressions are read back

The text of a portable tree, on a line of its own, is a file with one statement,
which says what the tree says (`Node.ofText_format`).

Printing a tree plays its script on a sheet. The sheet is tidy (`Node.fits`) and
its lines end only inside brackets (`Node.evenAs`), so its text is cut into
the words of the script again (`Lexeme.scan_scraps`). These words spell the tree
(`Portable.said`), and what is spelled is read (`Reader.statements_of_builds`).
-/

set_option autoImplicit false

namespace Starlark

/-! ## The sheet of a tree -/

/-- The text of a node is the text of its sheet. -/
theorem Node.toList_format {spacing : Spacing} {v : Node}
    (words : ∀ w ∈ (v.script .low).words, Firm w.text) (quiet : (v.script .low).comments = []) :
    (v.format spacing).toList = ((v.script .low).write (.blank spacing)).text := by
  have shows := (Shows.blank spacing).run words (by simp [quiet])
  rw [← v.print_eq_run] at shows
  rw [Node.format, Page.text, String.toList_ofList]
  exact shows.text

/-- `load` is a keyword only in front of a parenthesis. -/
theorem Word.Stable.ne_load {w : Word} (stable : w.Stable) : w.kind ≠ .keyword .load := by
  intro load
  have kind : Lexeme.Margin.wordKind w.text [] = .keyword .load := by
    rw [← load, ← stable []]
    simp [kindOf, piece, load]
  unfold Lexeme.Margin.wordKind at kind
  split at kind
  · cases kind
  · rename_i other _
    cases kind
    exact other rfl
  · cases kind

/-- The words of a script that writes a tidy sheet are sound. -/
theorem Script.sound_of_tidy {script : Script} {s : Sheet} {dots : Bool}
    (tidy : (script.write s).Tidy dots) : ∀ w ∈ script.words, w.Sound := by
  intro w member
  obtain ⟨xs, added, words⟩ := script.write_adds s
  rw [← words] at member
  obtain ⟨x, inside, found⟩ := List.mem_filterMap.mp member
  refine tidy.sound x (added ▸ List.mem_append_right _ inside) w ?_
  split at found
  · rename_i mark
    rw [mark, Option.some.inj found]
  · cases found

/-- What a script that begins with a word writes on a line of its own is cut into its words, if it
is tidy and its lines end only inside brackets. -/
theorem Script.scan_write {script : Script} {spacing : Spacing} {w : Word}
    (nests : Nests false 0 script 0) (tidy : (script.write (.blank spacing)).Tidy false)
    (first : script.head? = some w) (gap : Nat) :
    ∃ ts : List Token, ∃ line stop : Token, ts.map Token.word = script.words ∧
      (ts.headD .ended).kind ≠ .keyword .load ∧ line.kind = .newline ∧ stop.kind = .eof ∧
        Lexeme.scan (Scrap.textOf (script.write (.blank spacing)).scraps ++
          (List.replicate gap ' ' ++ ['\n'])) = .ok ((ts ++ [line, stop]).map Lexeme.token) := by
  have calm : (Sheet.blank spacing).Calm := ⟨rfl, rfl⟩
  obtain ⟨_, _, xs, added, nested⟩ := nests.writes (.blank spacing) calm nofun
  obtain ⟨ys, added', words⟩ := script.write_adds (.blank spacing)
  obtain ⟨zs, begun⟩ := Script.write_of_head? first calm.due
  generalize script.write (.blank spacing) = s at added tidy added' begun
  have same : xs = ⟨0, .word w⟩ :: zs := by
    rw [begun] at added
    exact added.symm
  have again : ys = xs := by
    rw [added] at added'
    exact added'.symm
  subst again same
  have scraps : s.scraps = ⟨0, .word w⟩ :: zs := begun
  cases nested with
  | word stable nested =>
      obtain ⟨ts, line, stop, spelled, isLine, isStop, scanned⟩ := Lexeme.scan_scraps gap (stable _)
        nested (scraps ▸ tidy.chain) (scraps ▸ tidy.sound)
      refine ⟨ts, line, stop, spelled.trans words, ?_, isLine, isStop, scraps ▸ scanned⟩
      cases ts with
      | nil => cases spelled
      | cons t ts =>
          have head : t.word = w := (List.cons.inj spelled).1
          rw [List.headD_cons, Token.kind_of_word head]
          exact stable.ne_load

/-- The text of a portable tree, on a line of its own, is cut into the words of its script. -/
theorem Portable.scan_format {v : Node} (portable : Portable .test v) (spacing : Spacing) :
    ∃ ts : List Token, ∃ line stop : Token, ts.map Token.word = (v.script .low).words ∧
      (ts.headD .ended).kind ≠ .keyword .load ∧ line.kind = .newline ∧ stop.kind = .eof ∧
        Lexeme.scan ((v.format spacing).toList ++ ['\n']) =
          .ok ((ts ++ [line, stop]).map Lexeme.token) := by
  have even := (v.even_of_isTest portable.plays portable.quiet portable.named .low).outside
  have empty : (Sheet.blank spacing).Tidy false := ⟨.nil, nofun⟩
  have begins : Edge.Holds false (.begins Role.test.opens) (.blank spacing) := .inr ⟨rfl, nofun⟩
  obtain ⟨tidy, _⟩ := v.fits .test rfl portable.plays (.inr portable.sharp) .low _ empty begins
  obtain ⟨w, first, _⟩ := v.leads portable.plays portable.quiet .low
  have firm : ∀ w ∈ (v.script .low).words, Firm w.text := fun w member =>
    (Script.sound_of_tidy tidy w member).firm
  rw [Node.toList_format firm even.quiet, Sheet.text, List.append_assoc]
  exact Script.scan_write even tidy first _

/-! ## Reading it back -/

/-- A small statement on a line of its own is a file of one statement. -/
theorem File.ofStream_smallStmt {path : String} {options : Options} {ts : List Token}
    {line stop : Token} {x : Node} (small : SmallStmt ts x) (isLine : line.kind = .newline)
    (isStop : stop.kind = .eof) :
    ofStream path options ⟨ts ++ [line, stop], [], []⟩ =
      .ok ⟨path, options.dialect, [x], .none⟩ := by
  have stmts : StmtLine (ts ++ [line]) [x] := .mk small (.done isLine)
  have builds : Builds options.types (ts ++ [line] ++ []) (.lines [.group [x] true]) :=
    .stmts stmts .noLine
  have read : Reader.statements options.types (ts ++ [line] ++ [] ++ [stop]) = .ok [x] :=
    Reader.statements_of_builds builds isStop
  have tokens : ts ++ [line] ++ [] ++ [stop] = ts ++ [line, stop] := by simp
  rw [tokens] at read
  rw [ofStream, read]
  show Except.ok (⟨path, options.dialect, (attach [x] [] []).1,
    ⟨(attach [x] [] []).2.2, [], (attach [x] [] []).2.1⟩⟩ : File) = _
  rw [attach_nil]
  rfl

/-- An expression on a line of its own is a file of one statement. -/
theorem File.ofStream_expression {path : String} {options : Options} {ts : List Token}
    {line stop : Token} {x : Node} (spells : Spells .expression ts [x])
    (other : (ts.headD .ended).kind ≠ .keyword .load) (isLine : line.kind = .newline)
    (isStop : stop.kind = .eof) :
    ofStream path options ⟨ts ++ [line, stop], [], []⟩ =
      .ok ⟨path, options.dialect, [x], .none⟩ :=
  ofStream_smallStmt (.value spells other) isLine isStop

theorem TokenStream.ofLexemes_tokens (ts : List Token) :
    ofLexemes (ts.map Lexeme.token) = ⟨ts, [], []⟩ := by
  induction ts with
  | nil => rfl
  | cons t ts ih =>
      simp only [ofLexemes, TokenStream.mk.injEq] at ih ⊢
      simpa [Lexeme.token?, Lexeme.lineComment?, Lexeme.suffixComment?] using ih

/-- A portable tree is read back from its text: on a line of its own the text is a file of one
statement, without comments, which says what the tree says. -/
theorem Node.ofText_format {v : Node} (portable : Portable .test v) (spacing : Spacing)
    (path : String) (options : Options) :
    ∃ x, File.ofText path options (v.format spacing ++ "\n") =
        .ok ⟨path, options.dialect, [x], .none⟩ ∧
      x.skeleton = v.skeleton ∧ x.remarks = [] := by
  obtain ⟨ts, line, stop, words, other, isLine, isStop, scanned⟩ := portable.scan_format spacing
  obtain ⟨x, spells, same⟩ := (portable.said .low).one words
  refine ⟨x, ?_, same, (spells.inert x (List.mem_singleton_self x)).remarks⟩
  have chars : File.ofChars path options ((v.format spacing).toList ++ ['\n']) =
      .ok ⟨path, options.dialect, [x], .none⟩ := by
    rw [File.ofChars, TokenStream.ofChars, scanned]
    show File.ofStream path options (.ofLexemes _) = _
    rw [TokenStream.ofLexemes_tokens]
    exact File.ofStream_expression (.single spells) other isLine isStop
  rw [File.ofText, String.toList_append]
  show (File.ofChars path options ((v.format spacing).toList ++ ['\n'])).mapError _ = _
  rw [chars]
  rfl

/-- The tree of `a - (b - "\"")`, with a line break behind the first sign. -/
def Node.nestedDifference : Node :=
  .bare (.binary false (.bare (.ident .nowhere "a")) .nowhere "-" true
    (.bare (.binary false (.bare (.ident .nowhere "b")) .nowhere "-" false
      (.bare (.string ⟨.nowhere, "\"", false, .nowhere, ""⟩)))))

/-- A difference on the right of a difference keeps its parentheses, also where the lines are
joined by a backslash. -/
theorem Node.ofText_format_nestedDifference :
    nestedDifference.format .grouped = "a - \\\n(b - \"\\\"\")" ∧
    ∃ x, File.ofText "a.bzl" ⟨.bzl, false⟩ (nestedDifference.format .grouped ++ "\n") =
        .ok ⟨"a.bzl", .bzl, [x], .none⟩ ∧
      x.skeleton = nestedDifference.skeleton ∧ x.remarks = [] := by
  refine ⟨by cbv, Node.ofText_format ?_ .grouped "a.bzl" ⟨.bzl, false⟩⟩
  have inner : Portable .test (.bare (.binary false (.bare (.ident .nowhere "b")) .nowhere "-" false
      (.bare (.string ⟨.nowhere, "\"", false, .nowhere, ""⟩)))) :=
    .binary (by decide) (.ident (by decide)) .string fun is => absurd is (by decide)
  exact .binary (by decide) (.ident (by decide)) inner fun is => absurd is (by decide)

end Starlark
