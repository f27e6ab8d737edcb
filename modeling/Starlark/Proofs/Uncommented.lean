import Starlark.Proofs.Lexeme.Blanked

/-!
# Comments do not count

Comments are tokens in some places and wait on the side in others, they open
bodies, they are statements of their own and they are moved between statements.
None of this reaches the rest of the tree: a source with blanks in the place of
its comments is read as the tree of the source, without the comments and the
comment blocks, and everything else is where it was (`File.ofChars_uncommented`).
-/

set_option autoImplicit false

namespace Starlark

/-- The text of a source with blanks in the place of its comments, from the `#` to the end of the
line and one for each byte. -/
def TokenStream.uncommented (stream : TokenStream) (source : List Char) : List Char :=
  Lexeme.blanked (stream.remarks.map fun c => c.start.offset) 0 false source

/-- The file without its comments and comment blocks. -/
def File.pruned (f : File) : File :=
  { f with statements := prunedList f.statements, comments := .none }

theorem Echo.eq_prunedList {vs ws : List Node} (echo : Echo .still ws vs) : ws = prunedList vs := by
  have same := echo.movedList_eq
  rwa [movedList_still, movedList_still] at same

theorem prunedList_attach (vs : List Node) (line suffix : List Comment) :
    prunedList (attach vs line suffix).1 = prunedList vs := by
  rw [prunedList, prunedList, plainList_eq_map, plainList_eq_map, plain_attach]

namespace Lexeme

/-- The comments of a stream stand where its lexemes that are comments start. -/
theorem exists_remark {ls : List Lexeme} {p : Position} :
    (∃ c ∈ (TokenStream.ofLexemes ls).remarks, c.start = p) ↔
      ∃ l ∈ ls, l.isComment = true ∧ l.start = p := by
  simp only [TokenStream.remarks, TokenStream.ofLexemes, List.mem_append,
    mem_commentsOf, mem_tokens]
  simp only [List.mem_filterMap]
  constructor
  · rintro ⟨c, (⟨t, member, kind, rfl⟩ | ⟨l, member, same⟩) | ⟨l, member, same⟩, rfl⟩
    · exact ⟨.token t, member, by simp [isComment, kind], rfl⟩
    · cases l <;> cases same
      exact ⟨_, member, rfl, rfl⟩
    · cases l <;> cases same
      exact ⟨_, member, rfl, rfl⟩
  · rintro ⟨l, member, comment, rfl⟩
    cases l with
    | token t =>
        have kind : t.kind = .comment := by simpa [isComment] using comment
        exact ⟨t.comment, .inl (.inl ⟨t, member, kind, rfl⟩), rfl⟩
    | lineComment c => exact ⟨c, .inl (.inr ⟨_, member, rfl⟩), rfl⟩
    | suffixComment c => exact ⟨c, .inr ⟨_, member, rfl⟩, rfl⟩

theorem marks_remarks (ls : List Lexeme) :
    Marks ((TokenStream.ofLexemes ls).remarks.map fun c => c.start.offset) 0 ls where
  all l member comment := by
    obtain ⟨c, inside, start⟩ := exists_remark.mpr ⟨l, member, comment, rfl⟩
    exact List.mem_map.mpr ⟨c, inside, by rw [start]⟩
  only o member _ := by
    obtain ⟨c, inside, rfl⟩ := List.mem_map.mp member
    obtain ⟨l, among, comment, start⟩ := exists_remark.mp ⟨c, inside, rfl⟩
    exact ⟨l, among, comment, by rw [start]⟩

theorem remarks_eq_nil {ls : List Lexeme} (none : ∀ l ∈ ls, l.isComment = false) :
    (TokenStream.ofLexemes ls).remarks = [] := by
  rw [List.eq_nil_iff_forall_not_mem]
  intro c member
  obtain ⟨l, among, comment, _⟩ := exists_remark.mp ⟨c, member, rfl⟩
  rw [none l among] at comment
  cases comment

end Lexeme

/-- A source with blanks in the place of its comments is read, and as the tree of the source
without comments and comment blocks. -/
theorem File.ofChars_uncommented {path : String} {options : Options} {source : List Char} {f : File}
    (read : File.ofChars path options source = .ok f) :
    ∃ stream, TokenStream.ofChars source = .ok stream ∧
      File.ofChars path options (stream.uncommented source) = .ok f.pruned := by
  obtain ⟨stream, scanned, built⟩ := Outcome.bind_eq_ok.mp read
  refine ⟨stream, scanned, ?_⟩
  obtain ⟨vs, statements, done⟩ := Outcome.bind_eq_ok.mp built
  obtain ⟨ls, success, rfl⟩ := Outcome.map_eq_ok.mp scanned
  have mutes := (Lexeme.scans_of_scanFrom success).mutes (Lexeme.marks_remarks ls)
  obtain ⟨ls', b, scans, none, hushed⟩ :=
    @Lexeme.Mutes.scans _ _ _ _ mutes .initial [] rfl (.inl ⟨_, rfl⟩)
  obtain ⟨ws, statements', echo⟩ := Reader.statements_of_hushed statements hushed
  have scanned' : TokenStream.ofChars ((TokenStream.ofLexemes ls).uncommented source) =
      .ok (.ofLexemes ls') := Outcome.map_eq_ok.mpr ⟨ls', scans.scanFrom, rfl⟩
  have whole : f.pruned = ⟨path, options.dialect, prunedList vs, .none⟩ := by
    cases done
    exact congrArg (File.mk path options.dialect · .none) (prunedList_attach vs _ _)
  refine (File.ofChars_eq_ok scanned' (Lexeme.remarks_eq_nil none)).mpr ⟨ws, statements', ?_⟩
  rw [whole, echo.eq_prunedList]

/-- A comment block, a comment below a header, one inside brackets and one at the end of a body. -/
theorem File.ofChars_uncommented_block :
    ∃ f, File.ofChars "BUILD"
      ⟨.build, false⟩ "# é\n\nif x: # a\n # b\n f( # c\n )\n# d".toList = .ok f ∧
      ∃ stream, TokenStream.ofChars "# é\n\nif x: # a\n # b\n f( # c\n )\n# d".toList = .ok stream ∧
        File.ofChars "BUILD" ⟨.build, false⟩
          (stream.uncommented "# é\n\nif x: # a\n # b\n f( # c\n )\n# d".toList) =
            .ok f.pruned := by
  obtain ⟨f, read⟩ : ∃ f, File.ofChars "BUILD" ⟨.build, false⟩
      "# é\n\nif x: # a\n # b\n f( # c\n )\n# d".toList = .ok f := Outcome.exists_eq_ok (by cbv)
  exact ⟨f, read, File.ofChars_uncommented read⟩

end Starlark
