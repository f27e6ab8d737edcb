import Starlark.Proofs.Lexeme.Tiling
import Starlark.Proofs.Word

/-!
# What a piece of the source sees behind it

How far a piece of code reaches is decided by its own text and the one character
behind it: changing the source further on does not move its end
(`Cuts.of_head`). A blank ends every piece, so putting a blank in the place of
that character does not move the end either (`pieceAt_of_head`).
-/

set_option autoImplicit false

namespace Starlark.Lexeme

section Heads

variable {c d : Char} {text rest rest' : List Char} {piece : Piece}

/-- A number looks at one character behind its end. -/
theorem numberExtent_of_head (reaches : numberExtent (text ++ d :: rest) = text.length) :
    numberExtent (text ++ d :: rest') = text.length := by
  have last {more more' : List Char} (zero : numberExtent (d :: more) = 0) :
      numberExtent (d :: more') = 0 := by
    refine numberExtent_eq_zero ?_
    by_contra digit
    have longer := numberExtent_pos (d := d) (by simpa using digit) more
    omega
  fun_induction numberExtent text with
  | case1 => exact last reaches
  | case2 c digit =>
      simp only [List.cons_append, List.nil_append, numberExtent, digit, if_true,
        List.length_singleton] at reaches ⊢
      split at reaches
      · omega
      next noSign =>
        have ends : numberExtent (d :: rest) = 0 := by omega
        rw [if_neg noSign, last ends]
  | case3 c other =>
      simp only [List.cons_append, List.nil_append, numberExtent, other, List.length_singleton]
        at reaches
      split at reaches <;> simp at reaches
  | case4 c e text sign ih =>
      simp only [List.cons_append, numberExtent, sign, if_true, List.length_cons] at reaches ⊢
      have inner := ih (by omega)
      omega
  | case5 c e text sign digit ih =>
      simp only [List.cons_append, numberExtent, sign, digit, if_true, List.length_cons]
        at reaches ih ⊢
      have inner := ih (by simpa using reaches)
      simp only [Bool.false_eq_true, if_false]
      omega
  | case6 c e text sign other => simp [numberExtent, sign, other] at reaches

/-- A string looks at one character behind its end, and only if it is empty. -/
theorem stringExtent_of_head {quote : Char}
    (reaches : stringExtent quote (text ++ d :: rest) = .ok text.length) :
    stringExtent quote (text ++ d :: rest') = .ok text.length := by
  refine stringExtent_append (stringExtent_of_append reaches) ?_
  rintro rfl same
  obtain rfl : d = quote := by simpa using same
  -- with a third quote the string would not end here
  rw [stringExtent, if_pos (by simp)] at reaches
  obtain ⟨k, _, width⟩ := Outcome.map_eq_ok.mp reaches
  simp at width

/-- An operator that is longer by two begins with one that is longer by one. -/
theorem take_mem_operators {signs longer : List Char} (known : signs ∈ operators)
    (member : longer ∈ operators) (front : signs <+: longer) (long : signs.length < longer.length) :
    longer.take (signs.length + 1) ∈ operators := by
  have all : ∀ signs ∈ operators, ∀ longer ∈ operators, signs.isPrefixOf longer = true →
      signs.length < longer.length → longer.take (signs.length + 1) ∈ operators := by decide
  exact all signs known longer member (List.isPrefixOf_iff_prefix.mpr front) long

/-- Whether an operator could be longer is told by the next character. -/
theorem IsLongest.of_head (longest : IsLongest text (text ++ d :: rest)) :
    IsLongest text (text ++ d :: rest') := by
  obtain ⟨known, _, most⟩ := longest
  refine ⟨known, List.prefix_append _ _, fun signs member front => ?_⟩
  by_contra longer
  have inside : text <+: signs :=
    List.prefix_of_prefix_length_le (List.prefix_append _ _) front (by omega)
  have one := take_mem_operators known member inside (by omega)
  have shown : signs.take (text.length + 1) = text ++ [d] := by
    obtain ⟨more, same⟩ := front
    have taken := congrArg (List.take (text.length + 1)) same
    rw [List.take_append_of_le_length (by omega)] at taken
    rw [taken, List.take_append]
    simp
  rw [shown] at one
  have bound := most _ one ⟨rest, by simp⟩
  simp at bound

/-- A piece of code looks at one character behind its end. -/
theorem Cuts.of_head (cuts : Cuts c (text ++ d :: rest) piece text.length) :
    Cuts c (text ++ d :: rest') piece text.length := by
  generalize source : text ++ d :: rest = all at cuts
  generalize width : text.length = n at cuts
  cases cuts with
  | string quoted extent =>
      subst source width
      exact .string quoted (stringExtent_of_head extent)
  | @raw quote more n raw same quoted extent =>
      subst source
      cases text with
      | nil => cases width
      | cons e text =>
          obtain ⟨rfl, rfl⟩ := List.cons.inj same
          obtain rfl : text.length = n := by simpa using width
          exact .raw raw rfl quoted (stringExtent_of_head extent)
  | number starts =>
      subst source
      rw [← width, ← numberExtent_of_head width.symm]
      refine .number ?_
      cases text with
      | nil => exact starts
      | cons e text => exact starts
  | word letter noDigit plain =>
      subst source
      have split :
          (text ++ d :: rest).takeWhile isWordChar ++ (text ++ d :: rest).dropWhile isWordChar =
          text ++ d :: rest := List.takeWhile_append_dropWhile
      obtain ⟨taken, left⟩ := List.append_inj split width.symm
      have all : ∀ e ∈ text, isWordChar e = true := by
        intro e member
        rw [← taken] at member
        exact List.mem_takeWhile_imp member
      have next : isWordChar d = false := by
        have head := @List.head_dropWhile_not _ isWordChar (text ++ d :: rest) (by simp [left])
        simpa [left] using head
      have extent : wordExtent (text ++ d :: rest') = text.length := by
        rw [wordExtent, takeWhile_append_of_head all (by simp [next])]
      rw [← width, ← extent]
      refine .word letter noDigit fun raw => ?_
      have bare := plain raw
      cases text with
      | nil => exact bare
      | cons e text => exact bare
  | @operator signs found noNumber =>
      subst source
      have longest := isLongest_of_operatorText? found
      have long : signs.length = text.length + 1 := by
        rcases length_of_mem_operators longest.1 with one | one | one <;> omega
      obtain rfl : signs = c :: text := by
        rw [List.prefix_iff_eq_take.mp longest.2.1, long]
        simp
      rw [← width]
      refine .operator (@IsLongest.of_head d (c :: text) rest rest' longest).operatorText? ?_
      cases text with
      | nil => exact noNumber
      | cons e text => exact noNumber

/-- A blank ends any piece of code. -/
theorem ends_blank (code : piece.isCode = true) (text : List Char) :
    ends piece text ' ' = true := by
  have absent : ∀ signs ∈ operators, ' ' ∉ signs := by decide
  have operator : endsOperator text ' ' = true := by
    refine List.all_eq_true.mpr fun signs known => ?_
    rw [Bool.not_eq_true', Bool.eq_false_iff]
    intro front
    have inside :=
      (List.isPrefixOf_iff_prefix.mp front).subset (List.mem_append_right text (.head _))
    exact absent signs known inside
  cases piece with
  | string | number | word => rfl
  | operator => rw [ends, operator, show ' '.isDigit = false from rfl, Bool.and_false]; rfl
  | newline | continuation | comment => cases code

/-- Only a comment directly behind a piece of code is seen from there, as one blank. -/
theorem pieceAt_of_head (other : piece ≠ .comment)
    (head : rest'.head? = rest.head? ∨ rest'.head? = some ' ')
    (cut : pieceAt c (text ++ rest) = .ok (piece, text.length)) :
    pieceAt c (text ++ rest') = .ok (piece, text.length) := by
  have code (code : piece.isCode = true) :
      pieceAt c (text ++ rest') = .ok (piece, text.length) := by
    have cuts := cuts_of_pieceAt code cut
    obtain same | blank := head
    · cases rest with
      | nil =>
          rw [List.head?_eq_none_iff.mp same]
          exact cuts.pieceAt
      | cons d rest =>
          obtain ⟨more, rfl⟩ := List.head?_eq_some_iff.mp same
          exact cuts.of_head.pieceAt
    · exact (cuts.of_append.append (by rw [blank]; exact ends_blank code _)).pieceAt
  cases piece with
  | comment => exact absurd rfl other
  | string | number | word | operator => exact code rfl
  | newline =>
      obtain ⟨rfl, width⟩ := (Margin.pieceAt_line cut).1 rfl
      rw [width]
      rfl
  | continuation =>
      obtain ⟨rfl, width⟩ := (Margin.pieceAt_line cut).2 rfl
      obtain rfl | rfl := Margin.lineBreakWidth?_append width <;> rfl

end Heads

end Starlark.Lexeme
