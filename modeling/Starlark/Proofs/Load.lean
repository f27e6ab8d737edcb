import Starlark.Proofs.Literal.Print
import Starlark.Proofs.LogicalLine

/-!
# Loads are read back

A `load` is printed as a call whose arguments are strings, some of them behind
a local name. Read again it is a `load` of the same module that binds the same
symbols to the same names, in the same order, whatever characters the symbols
consist of and however the parts are laid out (`File.loads_of_formatWith`).

The first word makes this a case of its own. It is a keyword only in front of
a parenthesis, so the scanner reads it as one for what follows it on the sheet;
from the parenthesis on the sheet is that of every sequence.
-/

set_option autoImplicit false

namespace Starlark

/-! ## What is written -/

theorem StringLit.even_script (lit : StringLit) : lit.script.Even false := by
  have note : (Script.note lit.token).Even false := .ofSilent rfl
  exact (Script.Even.onlyIf note).append (.word (fun _ => rfl) fun _ => rfl)

@[simp] theorem StringLit.words_eq (lit : StringLit) :
    lit.script.words = [⟨.string, lit.spelling⟩] := by
  simp [script, Script.words]

/-- A value without a token is spelled anew, and the spelling is one string. -/
theorem StringLit.lexical_ofValue (value : String) : (StringLit.ofValue value).Lexical := by
  intro kept
  simp [isKept, ofValue] at kept

namespace Binding

/-- A symbol that can stand in a `load`: the local name is an identifier, unless it is the symbol
itself and not printed. -/
def IsNamed (b : Binding) : Prop :=
  isIdentifier b.bound.text = true ∨ b.bound.text = b.symbol.text

/-- The words of a symbol of a `load`. -/
def words (b : Binding) : List Word :=
  if b.bound.text = b.symbol.text then
    [⟨.string, (StringLit.ofValue b.symbol.text).spelling⟩]
  else
    [.name b.bound.text, .sign "=", ⟨.string, (StringLit.ofValue b.symbol.text).spelling⟩]

variable {b : Binding}

theorem words_part (b : Binding) : b.part.script.words = b.words := by
  have sign : (Script.operator "=").words = [.sign "="] := rfl
  unfold part words
  split
  · simp [Script.words_framed]
  · simp [Script.words_framed, Script.words_operation, sign, Script.words]

theorem comments_of_remarks (quiet : b.remarks = []) :
    b.bound.comments = .none ∧ b.symbol.comments = .none := by
  obtain ⟨bound, symbol⟩ := List.append_eq_nil_iff.mp quiet
  exact ⟨Comments.eq_none bound, Comments.eq_none symbol⟩

/-- A symbol leaves the brackets as they are. -/
theorem even_part (quiet : b.remarks = []) (named : b.IsNamed) : b.part.script.Even false := by
  obtain ⟨bound, symbol⟩ := comments_of_remarks quiet
  have literal := (StringLit.ofValue b.symbol.text).even_script
  unfold part
  split
  next same =>
    rw [bound, symbol]
    exact literal.framed
  next other =>
    have known := named.resolve_right other
    have name : (b.bound.text != "load") = true := by
      rw [bne_iff_ne]
      intro load
      rw [load] at known
      exact absurd known (by decide)
    rw [bound, symbol]
    have local' : (Script.word (.name b.bound.text)).Even false :=
      .name (Word.sound_name known) name
    exact (Script.Even.operation (by decide) (fun _ => rfl) local'.framed literal.framed).framed

/-- A symbol fits among the parts of a sequence. -/
theorem isPart_part (named : b.IsNamed) : Fits.IsPart false b.part.script := by
  have literal {p : Char → Bool} (quote : p '"' = true) : Fits false (.takes p)
      (StringLit.ofValue b.symbol.text).script (.takes (closes true)) :=
    Fits.string (StringLit.lexical_ofValue _) quote
  have narrow : Edge.Implies false (.takes (closes true)) (.takes (closes false)) :=
    Fits.ofTakes fun _ => closes_of_false
  unfold part
  split
  next => exact ((literal rfl).bare fun _ => ⟨_, rfl⟩).after narrow
  next other =>
    have sound := Word.sound_name (named.resolve_right other)
    have local' : Fits false (.takes (opens true)) (.word (.name b.bound.text))
        (.takes (closes true)) :=
      Fits.name sound fun _ letter _ => Fits.opens_of_letter letter
    have left : Fits false (.takes (opens true))
        (Script.framed b.bound.comments false false (.word (.name b.bound.text)))
        (.takes (closes true)) :=
      (local'.bare fun _ => ⟨_, rfl⟩).before (Fits.beginsOfTakes fun _ => id)
    have right : Fits false (.begins (opens true)) (Script.framed b.symbol.comments false false
        (StringLit.ofValue b.symbol.text).script) (.takes (closes true)) :=
      (literal rfl).bare fun _ => ⟨_, rfl⟩
    exact ((Fits.operation (.inr (.inr (by decide))) left right).bare
      fun _ => ⟨_, rfl⟩).after narrow

end Binding

namespace Script

variable {label : StringLit} {bindings : List Binding} {compact : Bool} {spacing : Spacing}

/-- What stands behind the first word of a `load`. -/
def loadArguments (label : StringLit) (bindings : List Binding) (compact : Bool) : Script :=
  sequence .call (⟨false, framed .none false false label.script⟩ :: bindings.map Binding.part) []
    ⟨compact, !compact⟩

/-- The script of a `load` without comments. -/
def load (label : StringLit) (bindings : List Binding) (compact : Bool) : Script :=
  framed .none false false (key .load ++ loadArguments label bindings compact)

theorem even_loadArguments (quiet : ∀ b ∈ bindings, b.remarks = [])
    (named : ∀ b ∈ bindings, b.IsNamed) : (loadArguments label bindings compact).Even false := by
  refine .sequence nofun (List.forall_mem_cons.mpr ⟨label.even_script.framed.inside, ?_⟩)
  exact List.forall_mem_map.mpr fun b member =>
    (Binding.even_part (quiet b member) (named b member)).inside

theorem comments_load (quiet : ∀ b ∈ bindings, b.remarks = [])
    (named : ∀ b ∈ bindings, b.IsNamed) : (load label bindings compact).comments = [] := by
  have even : (loadArguments label bindings compact).Even false := even_loadArguments quiet named
  have none := even.outside.quiet
  simp [load, framed, comments, onlyIf, key, Comments.none, none]

/-- A `load` is written tidily. -/
theorem tidy_load (lexical : label.Lexical) (named : ∀ b ∈ bindings, b.IsNamed)
    (spacing : Spacing) : ((load label bindings compact).write (.blank spacing)).Tidy false := by
  have first : Fits.IsPart false (framed .none false false label.script) :=
    ((Fits.string lexical rfl).bare fun _ => ⟨_, rfl⟩).after (Fits.ofTakes fun _ => closes_of_false)
  have parts : Fits false (.takes (closes true)) (loadArguments label bindings compact)
      (.takes everyChar) := by
    refine Fits.sequence nofun rfl (List.forall_mem_cons.mpr ⟨first, ?_⟩)
    exact List.forall_mem_map.mpr fun b member => Binding.isPart_part (named b member)
  have word : Fits false (.takes everyChar) (key .load) (.takes (closes true)) := Fits.keyword rfl
  have whole : Fits false (.begins everyChar) (load label bindings compact) (.takes everyChar) :=
    (word.seq parts).bare fun _ => ⟨_, rfl⟩
  exact (whole (.blank spacing) ⟨.nil, nofun⟩ (.inr ⟨rfl, nofun⟩)).1

theorem write_framed {body : Script} {s : Sheet} (free : s.due = false)
    (calm : (body.write s).Calm) : (framed .none false false body).write s = body.write s := by
  have start : (breakIfDue ++ leading []).write s = s := write_of_isSilent rfl free
  have stop : (onlyIf true (queue [])).write (body.write s) = body.write s :=
    write_of_isSilent rfl calm.due
  show (onlyIf true (queue [])).write (body.write ((breakIfDue ++ leading []).write s)) = _
  rw [start, stop]

/-- The sheet of a `load`: the keyword, and brackets from the parenthesis on. -/
theorem write_load (quiet : ∀ b ∈ bindings, b.remarks = []) (named : ∀ b ∈ bindings, b.IsNamed)
    (spacing : Spacing) :
    ((load label bindings compact).write (.blank spacing)).Calm ∧
      ∃ xs, ((load label bindings compact).write (.blank spacing)).scraps =
          ⟨0, .word (.keyword .load)⟩ :: ⟨0, .word (.symbol .lparen)⟩ :: xs ∧
        Nested 0 (⟨0, .word (.symbol .lparen)⟩ :: xs) 0 := by
  have even : (loadArguments label bindings compact).Even false := even_loadArguments quiet named
  have first : (loadArguments label bindings compact).head? = some (.symbol .lparen) := rfl
  let begun := (Sheet.blank spacing).put (.word (.keyword .load))
  obtain ⟨calm, _, ys, added, nested⟩ := even.outside.writes begun ⟨rfl, rfl⟩ nofun
  obtain ⟨xs, starts⟩ := @write_of_head? _ _ first begun rfl
  obtain rfl : ys = ⟨0, .word (.symbol .lparen)⟩ :: xs :=
    List.append_cancel_left (added.symm.trans starts)
  have whole : (load label bindings compact).write (.blank spacing) =
      (loadArguments label bindings compact).write begun := write_framed rfl calm
  rw [whole]
  exact ⟨calm, xs, added, nested⟩

/-- Behind the module stand the symbols, each behind a comma. -/
theorem words_load (label : StringLit) (bindings : List Binding) (compact : Bool) :
    ∃ trail, (load label bindings compact).words = .keyword .load :: .symbol .lparen ::
      ((⟨.string, label.spelling⟩ :: followed trail (bindings.map Binding.words)) ++
        [.symbol .rparen]) := by
  obtain ⟨trail, between, _⟩ := words_inside .call
    (⟨false, framed .none false false label.script⟩ :: bindings.map Binding.part) []
    ⟨compact, !compact⟩
  have each : (fun x : Part => x.script.words) ∘ Binding.part = Binding.words :=
    funext Binding.words_part
  refine ⟨trail, ?_⟩
  rw [load, words_framed, words_append, loadArguments, words_sequence, between, List.map_cons,
    List.map_map, each, separated, words_framed, StringLit.words_eq]
  rfl

/-- The text of a `load` on a line of its own is cut into its words. -/
theorem scan_load (lexical : label.Lexical) (quiet : ∀ b ∈ bindings, b.remarks = [])
    (named : ∀ b ∈ bindings, b.IsNamed) (spacing : Spacing) :
    ∃ ts : List Token, ∃ line stop : Token,
      ts.map Token.word = (load label bindings compact).words ∧
      line.kind = .newline ∧ stop.kind = .eof ∧
        Lexeme.scan (Scrap.textOf ((load label bindings compact).write (.blank spacing)).scraps ++
          ['\n']) = .ok ((ts ++ [line, stop]).map Lexeme.token) := by
  have tidy : ((load label bindings compact).write (.blank spacing)).Tidy false :=
    tidy_load lexical named spacing
  obtain ⟨ys, added, words⟩ := (load label bindings compact).write_adds (.blank spacing)
  obtain ⟨_, xs, scraps, nested⟩ := @write_load label bindings compact quiet named spacing
  obtain rfl : ys = _ := added.symm.trans scraps
  obtain ⟨ts, line, stop, spelled, isLine, isStop, scanned⟩ := @Lexeme.scan_scraps
    (⟨0, .word (.symbol .lparen)⟩ :: xs) (.keyword .load) 0
      (by simp [Scrap.text, Mark.text]; rfl) nested
    (scraps ▸ tidy.chain) (scraps ▸ tidy.sound)
  exact ⟨ts, line, stop, spelled.trans words, isLine, isStop, scraps ▸ scanned⟩

end Script

/-! ## What is read -/

/-- A token with the spelling of a literal is read as its value. -/
theorem StringLit.ofToken_of_word {lit : StringLit} {t : Token}
    (same : t.word = ⟨.string, lit.spelling⟩) :
    StringLit.ofToken t = .ok ⟨t.pos, lit.value, lit.triple, t.stop, t.text⟩ := by
  have text : t.text = String.ofList lit.spelling := by
    rw [← String.ofList_toList (s := t.text)]
    exact congrArg String.ofList (congrArg Word.text same)
  rw [ofToken, text, lit.decode_spelling]

/-- What a `load` says of a symbol: its name, and the name it is bound to. -/
def Binding.texts (b : Binding) : String × String := (b.symbol.text, b.bound.text)

theorem Reader.symbolOf_of_word {value : String} {t : Token}
    (same : t.word = ⟨.string, (StringLit.ofValue value).spelling⟩) :
    ∃ x, Reader.symbolOf t = .ok x ∧ x.text = value := by
  simp only [symbolOf, StringLit.ofToken_of_word same, bind, Except.bind, pure, Except.pure]
  exact ⟨_, rfl, rfl⟩

/-- Tokens with the words of a symbol are read as the symbol. -/
theorem Binding.tokens_of_words {b : Binding} {ts : List Token}
    (words : ts.map Token.word = b.words) : ∃ c, BindingTokens ts c ∧ c.texts = b.texts := by
  unfold Binding.words at words
  split at words
  next same =>
    obtain ⟨t, rfl, spelled⟩ := List.map_eq_singleton_iff.mp words
    obtain ⟨x, read, text⟩ := Reader.symbolOf_of_word spelled
    refine ⟨⟨x, x⟩, .symbol (Token.kind_of_word spelled) read, ?_⟩
    rw [texts, texts, text, same]
  next =>
    obtain ⟨t, e, us, rfl, named, eq, _, words⟩ := exists_of_assigned words
    obtain ⟨s, rfl, spelled⟩ := List.map_eq_singleton_iff.mp words
    obtain ⟨x, read, text⟩ := Reader.symbolOf_of_word spelled
    refine ⟨_, .renamed (Token.isName_of_word named) eq (Token.kind_of_word spelled) read, ?_⟩
    rw [texts, texts, text, Token.text_of_word named]

/-- Tokens with the words of symbols are read as a list of them. -/
theorem Binding.listed_of_words {bindings : List Binding} {trail : Bool} {ts : List Token}
    (words : ts.map Token.word = followed trail (bindings.map Binding.words)) :
    ∃ bs, Reader.Listed BindingTokens ts bs ∧ bs.map texts = bindings.map texts := by
  induction bindings generalizing ts with
  | nil =>
      cases trail with
      | false =>
          obtain rfl := List.map_eq_nil_iff.mp words
          exact ⟨[], .none, rfl⟩
      | true =>
          obtain ⟨c, rfl, comma⟩ := List.map_eq_singleton_iff.mp words
          exact ⟨[], .comma (Token.kind_of_symbol comma), rfl⟩
  | cons b bindings ih =>
      obtain ⟨c, rest, rfl, comma, words⟩ := List.map_eq_cons_iff.mp words
      obtain ⟨us, more, rfl, first, words⟩ := List.map_eq_append_iff.mp words
      obtain ⟨d, tokens, same⟩ := tokens_of_words first
      obtain ⟨bs, listed, all⟩ := ih words
      refine ⟨d :: bs, .item (Token.kind_of_symbol comma) tokens listed, ?_⟩
      rw [List.map_cons, List.map_cons, same, all]

/-! ## There and back -/

/-- Tokens with the words of a `load` are read as a `load` of the same module and symbols. -/
theorem SmallStmt.load_of_words {label : StringLit} {bindings : List Binding} {compact : Bool}
    {ts : List Token} (words : ts.map Token.word = (Script.load label bindings compact).words) :
    ∃ p label' bs close compact',
      SmallStmt ts (.bare (.load p label' .none bs close compact')) ∧
        label'.value = label.value ∧ bs.map Binding.texts = bindings.map Binding.texts := by
  obtain ⟨trail, same⟩ := Script.words_load label bindings compact
  rw [same] at words
  obtain ⟨a, rest, rfl, key, words⟩ := List.map_eq_cons_iff.mp words
  obtain ⟨b, inside, d, rfl, opening, words, closing⟩ := exists_of_enclosed words
  obtain ⟨c, us, rfl, module, words⟩ := List.map_eq_cons_iff.mp words
  obtain ⟨bs, listed, all⟩ := Binding.listed_of_words words
  exact ⟨_, _, bs, _, _, .load (Token.kind_of_keyword key) (Token.kind_of_symbol opening)
    (Token.kind_of_word module) (StringLit.ofToken_of_word module) listed
    (Token.kind_of_symbol closing), rfl, all⟩

/-- A `load` without comments is printed by the script of a `load`. -/
theorem Node.script_load {c : Comments} {p : Position} {label : StringLit} {comments : Comments}
    {bindings : List Binding} {close : Close} {compact : Bool}
    (quiet : (Node.mk c (.load p label comments bindings close compact)).remarks = []) :
    (Node.mk c (.load p label comments bindings close compact)).script .low =
      .load label bindings compact := by
  simp only [remarks_mk, Form.remarks, Form.held, List.append_eq_nil_iff] at quiet
  obtain ⟨own, ⟨⟨module, _⟩, last⟩, _⟩ := quiet
  rw [Node.script, Form.script, Comments.eq_none own, Comments.eq_none module,
    Comments.eq_none last]
  rfl

/-- A text that scans as one small statement is read as the file of that statement. -/
theorem File.ofText_of_smallStmt {path : String} {options : Options} {text : String}
    {ts : List Token} {line stop : Token} {x : Node}
    (scanned : Lexeme.scan text.toList = .ok ((ts ++ [line, stop]).map Lexeme.token))
    (small : SmallStmt ts x) (isLine : line.kind = .newline) (isStop : stop.kind = .eof) :
    ofText path options text = .ok ⟨path, options.dialect, [x], .none⟩ := by
  have chars : ofChars path options text.toList = .ok ⟨path, options.dialect, [x], .none⟩ := by
    rw [ofChars, TokenStream.ofChars, scanned]
    show ofStream path options (.ofLexemes _) = _
    rw [TokenStream.ofLexemes_tokens]
    exact ofStream_smallStmt small isLine isStop
  rw [ofText, chars]
  rfl

/-- A file with a `load` and nothing else is read back from its text, in every layout and every
dialect: one `load` of the same module, which binds the same symbols to the same names. -/
theorem File.loads_of_formatWith {c : Comments} {p : Position} {label : StringLit}
    {comments : Comments} {bindings : List Binding} {close : Close} {compact : Bool}
    (quiet : (Node.mk c (.load p label comments bindings close compact)).remarks = [])
    (lexical : label.Lexical)
    (named : ∀ b ∈ bindings, isIdentifier b.bound.text = true ∨ b.bound.text = b.symbol.text)
    (place : String) (dialect : Dialect) (spacing : Spacing) (path : String) (options : Options) :
    ∃ p' label' bindings' close' compact',
      File.ofText path options (formatWith spacing
        ⟨place, dialect, [.mk c (.load p label comments bindings close compact)], .none⟩) =
          .ok ⟨path, options.dialect, [.bare (.load p' label' .none bindings' close' compact')],
            .none⟩ ∧
      label'.value = label.value ∧
      bindings'.map (·.symbol.text) = bindings.map (·.symbol.text) ∧
      bindings'.map (·.bound.text) = bindings.map (·.bound.text) := by
  obtain ⟨own, symbols⟩ : c.toList = [] ∧ ∀ b ∈ bindings, b.remarks = [] := by
    simp only [Node.remarks_mk, Form.remarks, Form.held, List.append_eq_nil_iff] at quiet
    exact ⟨quiet.1, List.flatMap_eq_nil_iff.mp quiet.2.1.1.2⟩
  have script := Node.script_load quiet
  have tidy : ((Script.load label bindings compact).write (.blank spacing)).Tidy false :=
    Script.tidy_load lexical named spacing
  have calm : ((Script.load label bindings compact).write (.blank spacing)).Calm :=
    (Script.write_load symbols named spacing).1
  have none : (Script.load label bindings compact).comments = [] :=
    Script.comments_load symbols named
  obtain ⟨ts, line, stop, words, isLine, isStop, scanned⟩ :=
    @Script.scan_load label bindings compact lexical symbols named spacing
  obtain ⟨p', label', bindings', close', compact', small, value, same⟩ :=
    SmallStmt.load_of_words words
  have text : (formatWith spacing
      ⟨place, dialect, [.mk c (.load p label comments bindings close compact)], .none⟩).toList =
        Scrap.textOf ((Script.load label bindings compact).write (.blank spacing)).scraps ++
          ['\n'] := by
    rw [← script] at tidy calm none ⊢
    exact toList_formatWith_of_calm rfl rfl rfl (Comments.eq_none own) none tidy calm
  refine ⟨p', label', bindings', close', compact', ?_, value, ?_, ?_⟩
  · exact ofText_of_smallStmt (text ▸ scanned) small isLine isStop
  · have symbols := congrArg (List.map Prod.fst) same
    rwa [List.map_map, List.map_map] at symbols
  · have bound := congrArg (List.map Prod.snd) same
    rwa [List.map_map, List.map_map] at bound

/-- The module and the symbols may hold quotes and line ends, and a symbol that keeps its name need
not be an identifier. -/
theorem File.loads_of_formatWith_renamed :
    formatWith .grouped ⟨"a.bzl", .bzl, [.bare (.load .nowhere (.ofValue "a\"b") .none
      [⟨⟨.nowhere, "x\ny", .none⟩, ⟨.nowhere, "z", .none⟩⟩,
        ⟨⟨.nowhere, "for", .none⟩, ⟨.nowhere, "for", .none⟩⟩] (.at .nowhere) true)], .none⟩ =
      "load(\"a\\\"b\", z = \"x\\ny\", \"for\")\n" ∧
    ∃ p' label' bindings' close' compact',
      File.ofText "a.bzl" ⟨.bzl, false⟩ (formatWith .grouped ⟨"a.bzl", .bzl,
        [.bare (.load .nowhere (.ofValue "a\"b") .none
          [⟨⟨.nowhere, "x\ny", .none⟩, ⟨.nowhere, "z", .none⟩⟩,
            ⟨⟨.nowhere, "for", .none⟩, ⟨.nowhere, "for", .none⟩⟩] (.at .nowhere) true)], .none⟩) =
          .ok ⟨"a.bzl", .bzl, [.bare (.load p' label' .none bindings' close' compact')], .none⟩ ∧
      label'.value = "a\"b" ∧ bindings'.map (·.symbol.text) = ["x\ny", "for"] ∧
      bindings'.map (·.bound.text) = ["z", "for"] :=
  ⟨by cbv, loads_of_formatWith (Node.remarks_eq_nil _ (by cbv)) (StringLit.lexical_ofValue _)
    (by decide) "a.bzl" .bzl .grouped "a.bzl" ⟨.bzl, false⟩⟩

/-- A token that is kept although it is no string to the scanner spoils a `load`. -/
theorem File.refuses_formatWith_load :
    ¬ ∀ (label : StringLit) (bindings : List Binding) (compact : Bool),
      (Node.bare (.load .nowhere label .none bindings (.at .nowhere) compact)).remarks = [] →
      (∀ b ∈ bindings, isIdentifier b.bound.text = true ∨ b.bound.text = b.symbol.text) →
      ∃ f, File.ofText "a.bzl" ⟨.bzl, false⟩ (formatWith .grouped ⟨"a.bzl", .bzl,
        [.bare (.load .nowhere label .none bindings (.at .nowhere) compact)], .none⟩) = .ok f := by
  intro reads
  obtain ⟨f, read⟩ := reads ⟨.nowhere, "a\"b", false, .nowhere, "\"a\"b\""⟩ [] true
    (Node.remarks_eq_nil _ (by cbv)) nofun
  have text : formatWith .grouped ⟨"a.bzl", .bzl, [.bare (.load .nowhere
      ⟨.nowhere, "a\"b", false, .nowhere, "\"a\"b\""⟩ .none [] (.at .nowhere) true)], .none⟩ =
      "load(\"a\"b\")\n" := by cbv
  have refused : (File.ofText "a.bzl" ⟨.bzl, false⟩ "load(\"a\"b\")\n").toOption.isNone = true := by
    cbv
  rw [text] at read
  rw [read] at refused
  cases refused

end Starlark
