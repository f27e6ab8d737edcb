import Starlark.Proofs.Grammar
import Starlark.Proofs.Lexeme.Order

/-!
# Words

A text is whole as a piece of some class when it is cut off as that piece with
nothing behind it. Every piece that is cut off a source is whole
(`Whole.of_cut`), and a whole text is cut off again in front of every character
that cannot continue it (`Whole.cut`). A word is a token without a place; a
word is sound when cutting a source can give it.
-/

set_option autoImplicit false

namespace Starlark

namespace Lexeme

open Outcome (map_eq_ok)

/-! ## Strings -/

/-- Induction along the body of a string, where a backslash goes with the
character behind it. -/
theorem escapeInduction {motive : List Char → Prop} (nil : motive []) (lone : motive ['\\'])
    (escaped : ∀ d rest, motive rest → motive ('\\' :: d :: rest))
    (plain : ∀ c rest, c ≠ '\\' → motive rest → motive (c :: rest)) : ∀ text, motive text
  | [] => nil
  | [c] =>
    if slash : c = '\\' then slash ▸ lone else plain c [] slash nil
  | c :: d :: rest =>
    if slash : c = '\\' then slash ▸ escaped d rest (escapeInduction nil lone escaped plain rest)
    else plain c (d :: rest) slash (escapeInduction nil lone escaped plain (d :: rest))

section Extents

variable {quote : Char} {text rest : List Char} {n : Nat}

theorem shortExtent_cons {c : Char} (plain : c ≠ '\\') (rest : List Char) :
    shortExtent quote (c :: rest) =
      if c = quote then .ok 1
      else if c = '\n' then .error .newlineInString
      else (· + 1) <$> shortExtent quote rest := by
  rw [shortExtent]
  · exact fun same => absurd same plain
  · exact fun _ _ same => absurd same plain

theorem longExtent_cons {c : Char} (plain : c ≠ '\\') (rest : List Char) :
    longExtent quote (c :: rest) =
      if c = quote ∧ [quote, quote].isPrefixOf rest then .ok 3
      else (· + 1) <$> longExtent quote rest := by
  rw [longExtent]
  exact fun _ _ same => absurd same plain

theorem longExtent_lone : ∃ cause, longExtent quote ['\\'] = .error cause := by
  refine ⟨.endInString, ?_⟩
  simp only [longExtent]
  split
  · simp_all
  · rfl

/-- A string on one line ends at its quote, whatever follows it. -/
theorem shortExtent_append (reaches : shortExtent quote text = .ok n) (rest : List Char) :
    shortExtent quote (text ++ rest) = .ok n := by
  induction text using escapeInduction generalizing n with
  | nil | lone => cases reaches
  | escaped d text ih =>
      obtain ⟨k, inner, rfl⟩ := map_eq_ok.mp reaches
      exact map_eq_ok.mpr ⟨k, ih inner, rfl⟩
  | plain c text plain ih =>
      rw [shortExtent_cons plain] at reaches
      rw [List.cons_append, shortExtent_cons plain]
      by_cases closes : c = quote
      · rw [if_pos closes] at reaches ⊢
        exact reaches
      by_cases breaks : c = '\n'
      · rw [if_neg closes, if_pos breaks] at reaches
        cases reaches
      rw [if_neg closes, if_neg breaks] at reaches ⊢
      obtain ⟨k, inner, rfl⟩ := map_eq_ok.mp reaches
      exact map_eq_ok.mpr ⟨k, ih inner, rfl⟩

theorem shortExtent_pos (reaches : shortExtent quote text = .ok n) : 0 < n := by
  induction text using escapeInduction with
  | nil | lone => cases reaches
  | escaped d text =>
      obtain ⟨k, _, rfl⟩ := map_eq_ok.mp reaches
      omega
  | plain c text plain =>
      rw [shortExtent_cons plain] at reaches
      split at reaches
      next =>
        cases reaches
        omega
      next =>
        split at reaches
        next => cases reaches
        next =>
          obtain ⟨k, _, rfl⟩ := map_eq_ok.mp reaches
          omega

/-- A string that is cut off at its end does not look further. -/
theorem shortExtent_of_append (reaches : shortExtent quote (text ++ rest) = .ok text.length) :
    shortExtent quote text = .ok text.length := by
  induction text using escapeInduction with
  | nil => exact absurd (shortExtent_pos reaches) (by simp)
  | lone =>
      cases rest with
      | nil => cases reaches
      | cons d rest =>
          obtain ⟨k, _, same⟩ := map_eq_ok.mp reaches
          simp at same
  | escaped d text ih =>
      obtain ⟨k, inner, same⟩ := map_eq_ok.mp reaches
      obtain rfl : k = text.length := by simpa using same
      exact map_eq_ok.mpr ⟨_, ih inner, rfl⟩
  | plain c text plain ih =>
      rw [List.cons_append, shortExtent_cons plain] at reaches
      rw [shortExtent_cons plain]
      by_cases closes : c = quote
      · rw [if_pos closes] at reaches ⊢
        exact reaches
      by_cases breaks : c = '\n'
      · rw [if_neg closes, if_pos breaks] at reaches
        cases reaches
      rw [if_neg closes, if_neg breaks] at reaches ⊢
      obtain ⟨k, inner, same⟩ := map_eq_ok.mp reaches
      obtain rfl : k = text.length := by simpa using same
      exact map_eq_ok.mpr ⟨_, ih inner, rfl⟩

theorem three_le_longExtent (reaches : longExtent quote text = .ok n) : 3 ≤ n := by
  induction text using escapeInduction generalizing n with
  | nil => cases reaches
  | lone =>
      obtain ⟨cause, fails⟩ := @longExtent_lone quote
      rw [fails] at reaches
      cases reaches
  | escaped d text ih =>
      obtain ⟨k, inner, rfl⟩ := map_eq_ok.mp reaches
      have bound := ih inner
      omega
  | plain c text plain ih =>
      rw [longExtent_cons plain] at reaches
      split at reaches
      next =>
        cases reaches
        omega
      next =>
        obtain ⟨k, inner, rfl⟩ := map_eq_ok.mp reaches
        have bound := ih inner
        omega

/-- So does one in triple quotes. -/
theorem longExtent_append (reaches : longExtent quote text = .ok n) (rest : List Char) :
    longExtent quote (text ++ rest) = .ok n := by
  induction text using escapeInduction generalizing n with
  | nil => cases reaches
  | lone =>
      obtain ⟨cause, fails⟩ := @longExtent_lone quote
      rw [fails] at reaches
      cases reaches
  | escaped d text ih =>
      obtain ⟨k, inner, rfl⟩ := map_eq_ok.mp reaches
      exact map_eq_ok.mpr ⟨k, ih inner, rfl⟩
  | plain c text plain ih =>
      rw [longExtent_cons plain] at reaches
      rw [List.cons_append, longExtent_cons plain]
      by_cases closes : c = quote ∧ [quote, quote].isPrefixOf text
      · obtain ⟨same, front⟩ := closes
        have still : [quote, quote].isPrefixOf (text ++ rest) = true := by
          rw [List.isPrefixOf_iff_prefix] at front ⊢
          exact front.trans (List.prefix_append text rest)
        rw [if_pos ⟨same, front⟩] at reaches
        rw [if_pos ⟨same, still⟩]
        exact reaches
      rw [if_neg closes] at reaches
      obtain ⟨k, inner, rfl⟩ := map_eq_ok.mp reaches
      -- the three closing quotes are still to come, so two characters are in sight
      have open' : ¬(c = quote ∧ [quote, quote].isPrefixOf (text ++ rest)) := by
        rintro ⟨same, front⟩
        have long := longExtent_le inner
        have bound := three_le_longExtent inner
        refine closes ⟨same, ?_⟩
        rw [List.isPrefixOf_iff_prefix] at front ⊢
        exact List.prefix_of_prefix_length_le front (List.prefix_append text rest)
          (by simp only [List.length_cons, List.length_nil]; omega)
      rw [if_neg open']
      exact map_eq_ok.mpr ⟨k, ih inner, rfl⟩

/-- What follows a string in triple quotes is not needed to find its end. -/
theorem longExtent_of_append (reaches : longExtent quote (text ++ rest) = .ok text.length) :
    longExtent quote text = .ok text.length := by
  induction text using escapeInduction with
  | nil => exact absurd (three_le_longExtent reaches) (by simp)
  | lone => exact absurd (three_le_longExtent reaches) (by simp)
  | escaped d text ih =>
      obtain ⟨k, inner, same⟩ := map_eq_ok.mp reaches
      obtain rfl : k = text.length := by simpa using same
      exact map_eq_ok.mpr ⟨_, ih inner, rfl⟩
  | plain c text plain ih =>
      rw [List.cons_append, longExtent_cons plain] at reaches
      rw [longExtent_cons plain]
      by_cases closes : c = quote ∧ [quote, quote].isPrefixOf (text ++ rest)
      · rw [if_pos closes] at reaches
        obtain ⟨same, front⟩ := closes
        have width : text.length = 2 := by
          injection reaches with width
          simp only [List.length_cons] at width
          omega
        rw [List.isPrefixOf_iff_prefix] at front
        have here := List.prefix_of_prefix_length_le front (List.prefix_append text rest)
          (by simp [width])
        rw [if_pos ⟨same, List.isPrefixOf_iff_prefix.mpr here⟩]
        exact reaches
      rw [if_neg closes] at reaches
      obtain ⟨k, inner, same⟩ := map_eq_ok.mp reaches
      obtain rfl : k = text.length := by simpa using same
      have open' : ¬(c = quote ∧ [quote, quote].isPrefixOf text) := by
        rintro ⟨same, front⟩
        refine closes ⟨same, ?_⟩
        rw [List.isPrefixOf_iff_prefix] at front ⊢
        exact front.trans (List.prefix_append text rest)
      rw [if_neg open']
      exact map_eq_ok.mpr ⟨_, ih inner, rfl⟩

/-- The same holds of every string. -/
theorem stringExtent_of_append (reaches : stringExtent quote (text ++ rest) = .ok text.length) :
    stringExtent quote text = .ok text.length := by
  unfold stringExtent at reaches ⊢
  by_cases opens : [quote, quote].isPrefixOf (text ++ rest) = true
  · rw [if_pos opens] at reaches
    obtain ⟨k, inner, same⟩ := map_eq_ok.mp reaches
    have bound := three_le_longExtent inner
    rw [List.isPrefixOf_iff_prefix] at opens
    have here := List.prefix_of_prefix_length_le opens (List.prefix_append text rest)
      (by simp only [List.length_cons, List.length_nil]; omega)
    rw [if_pos (List.isPrefixOf_iff_prefix.mpr here)]
    rw [List.drop_append_of_le_length (by omega)] at inner
    refine map_eq_ok.mpr ⟨k, ?_, same⟩
    have width : k = (text.drop 2).length := by
      rw [List.length_drop]
      omega
    rw [width] at inner ⊢
    exact longExtent_of_append inner
  · rw [if_neg opens] at reaches
    have short : ¬[quote, quote].isPrefixOf text = true := by
      intro front
      rw [List.isPrefixOf_iff_prefix] at front opens
      exact opens (front.trans (List.prefix_append text rest))
    rw [if_neg short]
    exact shortExtent_of_append reaches

/-- A whole string stays as it is, but an empty one only in front of anything but its quote. -/
theorem stringExtent_append (reaches : stringExtent quote text = .ok text.length)
    (next : text = [quote] → rest.head? ≠ some quote) :
    stringExtent quote (text ++ rest) = .ok text.length := by
  unfold stringExtent at reaches ⊢
  by_cases opens : [quote, quote].isPrefixOf text = true
  · have still : [quote, quote].isPrefixOf (text ++ rest) = true := by
      rw [List.isPrefixOf_iff_prefix] at opens ⊢
      exact opens.trans (List.prefix_append text rest)
    rw [if_pos opens] at reaches
    rw [if_pos still]
    obtain ⟨k, inner, same⟩ := map_eq_ok.mp reaches
    have bound : 2 ≤ text.length := (List.isPrefixOf_iff_prefix.mp opens).length_le
    rw [List.drop_append_of_le_length bound]
    exact map_eq_ok.mpr ⟨k, longExtent_append inner rest, same⟩
  · rw [if_neg opens] at reaches
    have short : ¬[quote, quote].isPrefixOf (text ++ rest) = true := by
      intro front
      rcases text with _ | ⟨c, _ | ⟨d, text⟩⟩
      · cases reaches
      · -- an empty string, and the character behind it is no quote
        cases rest with
        | nil => simp at front
        | cons d rest =>
            obtain ⟨rfl, rfl⟩ : quote = c ∧ quote = d := by simpa using front
            exact next rfl rfl
      · exact opens (by simpa using front)
    rw [if_neg short]
    exact shortExtent_append reaches rest

end Extents

/-! ## Numbers, words and operators -/

/-- What follows a number is not needed to find its end. -/
theorem numberExtent_of_append {text rest : List Char}
    (reaches : numberExtent (text ++ rest) = text.length) : numberExtent text = text.length := by
  fun_induction numberExtent text with
  | case1 | case2 => rfl
  | case3 c other =>
      exfalso
      cases rest with
      | nil => simp [numberExtent, other] at reaches
      | cons d rest =>
          simp only [List.cons_append, List.nil_append, numberExtent, other] at reaches
          split at reaches <;> simp at reaches
  | case4 c d text sign ih =>
      simp only [List.cons_append, numberExtent, sign, if_true, List.length_cons] at reaches ⊢
      have inner := ih (by omega)
      omega
  | case5 c d text sign digit ih =>
      simp only [List.cons_append, numberExtent, sign, digit, if_true, List.length_cons]
        at reaches ih ⊢
      have inner := ih (by simpa using reaches)
      omega
  | case6 c d text sign other =>
      simp [numberExtent, sign, other] at reaches

theorem numberExtent_eq_zero {rest : List Char}
    (next : rest.head?.all (fun d => !isNumberChar d) = true) : numberExtent rest = 0 := by
  rcases rest with _ | ⟨c, _ | ⟨d, rest⟩⟩
  · rfl
  · simp_all [numberExtent]
  · have other : isNumberChar c = false := by simpa using next
    have noExponent : (c == 'e' || c == 'E') = false := by
      by_contra letter
      rw [Bool.not_eq_false, Bool.or_eq_true, beq_iff_eq, beq_iff_eq] at letter
      rcases letter with rfl | rfl <;> cases other
    simp [numberExtent, noExponent, other]

/-- A number ends where neither a character of numbers nor a sign follows. -/
theorem numberExtent_append {text rest : List Char} (whole : numberExtent text = text.length)
    (next : rest.head?.all (fun d => !isNumberChar d && d != '+' && d != '-') = true) :
    numberExtent (text ++ rest) = text.length := by
  have ends : numberExtent rest = 0 := by
    refine numberExtent_eq_zero ?_
    cases rest <;> simp_all
  fun_induction numberExtent text with
  | case1 => exact ends
  | case2 c digit =>
      cases rest with
      | nil => simp [numberExtent, digit]
      | cons d rest =>
          have noSign : (d == '+' || d == '-') = false := by simp_all
          simp [numberExtent, digit, noSign, ends]
  | case3 c other => simp at whole
  | case4 c d text sign ih =>
      have inner := ih (by simpa using whole)
      simp [numberExtent, sign, inner]
  | case5 c d text sign digit ih =>
      have inner := ih (by simpa using whole)
      simp only [List.cons_append, List.length_cons] at inner
      simp [numberExtent, sign, digit, inner]
  | case6 c d text sign other => simp at whole

theorem takeWhile_append_of_head {p : Char → Bool} {text rest : List Char}
    (all : ∀ c ∈ text, p c = true) (next : rest.head?.all (fun d => !p d) = true) :
    (text ++ rest).takeWhile p = text := by
  rw [List.takeWhile_append_of_pos all]
  cases rest with
  | nil => simp
  | cons d rest =>
      have other : p d = false := by simpa using next
      simp [other]

/-- Every operator and punctuation mark. -/
def operators : List (List Char) := Symbol.all.map Symbol.signs ++ augmentedSigns

/-- The operators are the texts that are read as one. -/
theorem isSome_ofOperator? {signs : List Char} :
    (Token.Kind.ofOperator? signs).isSome = true ↔ signs ∈ operators := by
  unfold Token.Kind.ofOperator? operators
  cases found : Symbol.ofSigns? signs with
  | none =>
      have none : ∀ x ∈ Symbol.all, x.signs ≠ signs := by
        simpa [Symbol.ofSigns?] using found
      have absent : signs ∉ Symbol.all.map Symbol.signs := by
        simpa using none
      by_cases augmented : signs ∈ augmentedSigns <;> simp [augmented, absent]
  | some x =>
      have present : signs ∈ Symbol.all.map Symbol.signs := by
        have same := List.find?_some found
        have member := List.mem_of_find?_eq_some found
        rw [beq_iff_eq] at same
        exact List.mem_map.mpr ⟨x, member, same⟩
      simp [present]

/-- The scanner looks for an operator of three characters first, then of two and of one. -/
theorem operatorText?_eq {text : List Char} :
    operatorText? text =
      if text.take 3 ∈ operators then some (text.take 3)
      else if text.take 2 ∈ operators then some (text.take 2)
      else if text.take 1 ∈ operators then some (text.take 1)
      else none := by
  simp only [operatorText?, List.findSome?_cons, List.findSome?_nil, isSome_ofOperator?]
  by_cases three : text.take 3 ∈ operators
  · simp [three]
  by_cases two : text.take 2 ∈ operators
  · simp [three, two]
  by_cases one : text.take 1 ∈ operators <;> simp [three, two, one]

theorem length_of_mem_operators {signs : List Char} (member : signs ∈ operators) :
    signs.length = 1 ∨ signs.length = 2 ∨ signs.length = 3 := by
  revert signs
  decide

/-- An operator that starts a text, and no longer one does. -/
def IsLongest (text source : List Char) : Prop :=
  text ∈ operators ∧ text <+: source ∧
    ∀ signs ∈ operators, signs <+: source → signs.length ≤ text.length

/-- The operator that is found is the longest one at the front. -/
theorem isLongest_of_operatorText? {text source : List Char}
    (found : operatorText? source = some text) : IsLongest text source := by
  have taken {signs : List Char} {width : Nat} (front : signs <+: source)
      (same : signs.length = width) : signs = source.take width := by
    rw [← same]
    exact List.prefix_iff_eq_take.mp front
  rw [operatorText?_eq] at found
  split at found
  next member =>
    cases found
    refine ⟨member, List.take_prefix 3 source, fun signs known front => ?_⟩
    have bound := front.length_le
    have width := length_of_mem_operators known
    rw [List.length_take]
    omega
  next three =>
    split at found
    next member =>
      cases found
      refine ⟨member, List.take_prefix 2 source, fun signs known front => ?_⟩
      have bound := front.length_le
      rcases length_of_mem_operators known with width | width | width
      · rw [List.length_take]
        omega
      · rw [List.length_take]
        omega
      · exact absurd (taken front width ▸ known) three
    next two =>
      split at found
      next member =>
        cases found
        refine ⟨member, List.take_prefix 1 source, fun signs known front => ?_⟩
        have bound := front.length_le
        rcases length_of_mem_operators known with width | width | width
        · rw [List.length_take]
          omega
        · exact absurd (taken front width ▸ known) two
        · exact absurd (taken front width ▸ known) three
      next => cases found

/-- The longest operator at the front is found. -/
theorem IsLongest.operatorText? {text source : List Char} (longest : IsLongest text source) :
    operatorText? source = some text := by
  obtain ⟨known, front, most⟩ := longest
  cases found : Lexeme.operatorText? source with
  | none =>
      have same := List.prefix_iff_eq_take.mp front
      rw [operatorText?_eq] at found
      split_ifs at found with three two one
      rcases length_of_mem_operators known with width | width | width
      · exact absurd (width ▸ same ▸ known) one
      · exact absurd (width ▸ same ▸ known) two
      · exact absurd (width ▸ same ▸ known) three
  | some other =>
      obtain ⟨known', front', most'⟩ := isLongest_of_operatorText? found
      have same : other.length = text.length :=
        Nat.le_antisymm (most other known' front') (most' text known front)
      rw [List.prefix_iff_eq_take.mp front', List.prefix_iff_eq_take.mp front, same]

/-- A character that, behind a text, begins no longer operator. -/
def endsOperator (text : List Char) (d : Char) : Bool :=
  operators.all fun signs => !(text ++ [d]).isPrefixOf signs

theorem IsLongest.of_append {text rest : List Char} (longest : IsLongest text (text ++ rest)) :
    IsLongest text text :=
  ⟨longest.1, List.prefix_rfl, fun _ _ front => front.length_le⟩

/-- An operator is the longest one where what follows does not make it longer. -/
theorem IsLongest.append {text rest : List Char} (known : text ∈ operators)
    (next : rest.head?.all (endsOperator text) = true) : IsLongest text (text ++ rest) := by
  refine ⟨known, List.prefix_append text rest, fun signs member front => ?_⟩
  by_contra longer
  cases rest with
  | nil =>
      have bound := front.length_le
      rw [List.append_nil] at bound
      omega
  | cons d rest =>
      have ends : endsOperator text d = true := by simpa using next
      have free := List.all_eq_true.mp ends signs member
      have inside : text ++ [d] <+: signs := by
        refine List.prefix_of_prefix_length_le ?_ front (by simp; omega)
        rw [show text ++ d :: rest = text ++ [d] ++ rest by simp]
        exact List.prefix_append _ rest
      rw [List.isPrefixOf_iff_prefix.mpr inside] at free
      cases free

/-! ## Pieces of code -/

/-- Whether a piece is a token of code. -/
def Piece.isCode : Piece → Bool
  | .string | .number | .word | .operator => true
  | _ => false

/-- Whether a number begins at the character `c` in front of `rest`. -/
def startsNumber (c : Char) (rest : List Char) : Bool :=
  c.isDigit || (c == '.' && rest.head?.any Char.isDigit)

/-- The pieces of code that begin at the character `c` in front of `rest`. -/
inductive Cuts (c : Char) (rest : List Char) : Piece → Nat → Prop
  | string {n : Nat} (quoted : isQuote c = true) (extent : stringExtent c rest = .ok n) :
      Cuts c rest .string n
  | raw {quote : Char} {more : List Char} {n : Nat} (raw : c = 'r' ∨ c = 'R')
      (same : rest = quote :: more) (quoted : isQuote quote = true)
      (extent : stringExtent quote more = .ok n) : Cuts c rest .string (n + 1)
  | number (starts : startsNumber c rest = true) : Cuts c rest .number (numberExtent rest)
  | word (letter : isWordChar c = true) (noDigit : c.isDigit = false)
      (plain : c = 'r' ∨ c = 'R' → rest.head?.all (fun d => !isQuote d) = true) :
      Cuts c rest .word (wordExtent rest)
  | operator {signs : List Char} (found : operatorText? (c :: rest) = some signs)
      (noNumber : startsNumber c rest = false) : Cuts c rest .operator (signs.length - 1)

/-- Whether a character begins something other than a word, a number or an operator. -/
def isMark (c : Char) : Bool := c == '\n' || c == '\\' || c == '#' || isQuote c

theorem isMark_of_isWordChar {c : Char} (letter : isWordChar c = true) : isMark c = false := by
  by_contra mark
  simp only [isMark, isQuote, Bool.not_eq_false, Bool.or_eq_true, beq_iff_eq] at mark
  rcases mark with ((rfl | rfl) | rfl) | rfl | rfl <;> cases letter

theorem isMark_of_startsNumber {c : Char} {rest : List Char} (starts : startsNumber c rest = true) :
    isMark c = false := by
  by_contra mark
  simp only [isMark, isQuote, Bool.not_eq_false, Bool.or_eq_true, beq_iff_eq] at mark
  rcases mark with ((rfl | rfl) | rfl) | rfl | rfl <;> cases starts

theorem head_of_mem_operators {c : Char} {signs : List Char} (known : c :: signs ∈ operators) :
    isMark c = false ∧ isWordChar c = false ∧ isSpace c = false := by
  have all : ∀ signs ∈ operators,
      signs.head?.all (fun c => !isMark c && (!isWordChar c && !isSpace c)) = true := by
    decide
  simpa using all _ known

theorem cons_mem_operators {c : Char} {rest signs : List Char}
    (found : operatorText? (c :: rest) = some signs) :
    ∃ more, signs = c :: more ∧ c :: more ∈ operators := by
  obtain ⟨known, front, _⟩ := isLongest_of_operatorText? found
  cases signs with
  | nil => exact absurd known (by decide)
  | cons d more =>
      obtain rfl : d = c := (List.cons_prefix_cons.mp front).1
      exact ⟨more, rfl, known⟩

variable {piece : Piece} {c : Char} {rest : List Char} {n : Nat}

/-- A character that is no mark starts a number, a word or an operator. -/
theorem pieceAt_of_not_isMark (plain : isMark c = false) :
    pieceAt c rest =
      if startsNumber c rest then .ok (.number, numberExtent rest)
      else if isWordChar c then
        match rest with
        | quote :: more =>
          if (c == 'r' || c == 'R') && isQuote quote then
            (Piece.string, · + 1) <$> stringExtent quote more
          else .ok (.word, wordExtent rest)
        | [] => .ok (.word, 0)
      else
        match operatorText? (c :: rest) with
        | some text => .ok (.operator, text.length - 1)
        | none => .error (.character c) := by
  simp only [isMark, Bool.or_eq_false_iff, beq_eq_false_iff_ne] at plain
  obtain ⟨⟨⟨line, slash⟩, hash⟩, quote⟩ := plain
  unfold pieceAt startsNumber
  rw [if_neg line, if_neg slash, if_neg hash, quote]
  rfl

theorem startsNumber_of_isWordChar (letter : isWordChar c = true) :
    startsNumber c rest = c.isDigit := by
  have noDot : (c == '.') = false := by
    rw [beq_eq_false_iff_ne]
    rintro rfl
    cases letter
  simp [startsNumber, noDot]

/-- Code that the scanner cuts off is a piece, by cases of its first character. -/
theorem cuts_of_pieceAt (code : piece.isCode = true) (cut : pieceAt c rest = .ok (piece, n)) :
    Cuts c rest piece n := by
  by_cases mark : isMark c = true
  · -- a line end, a backslash and a comment are no code
    unfold pieceAt at cut
    split at cut
    next =>
      cases cut
      cases code
    split at cut
    next =>
      split at cut
      next =>
        cases cut
        cases code
      next => cases cut
    split at cut
    next =>
      cases cut
      cases code
    next line slash hash =>
      have quoted : isQuote c = true := by simpa [isMark, line, slash, hash] using mark
      rw [if_pos quoted] at cut
      obtain ⟨k, extent, same⟩ := map_eq_ok.mp cut
      cases same
      exact .string quoted extent
  rw [pieceAt_of_not_isMark (by simpa using mark)] at cut
  split at cut
  next starts =>
    cases cut
    exact .number starts
  next noNumber =>
    split at cut
    next letter =>
      have noDigit : c.isDigit = false := by
        rw [startsNumber_of_isWordChar letter] at noNumber
        simpa using noNumber
      split at cut
      next quote more =>
        split at cut
        next raw =>
          obtain ⟨k, extent, same⟩ := map_eq_ok.mp cut
          cases same
          rw [Bool.and_eq_true, Bool.or_eq_true, beq_iff_eq, beq_iff_eq] at raw
          exact .raw raw.1 rfl raw.2 extent
        next plain =>
          cases cut
          refine .word letter noDigit fun raw => ?_
          simpa [raw] using plain
      next =>
        cases cut
        exact .word letter noDigit fun _ => rfl
    next =>
      split at cut
      next found =>
        cases cut
        exact .operator found (by simpa using noNumber)
      next => cases cut

/-- A piece is what the scanner cuts off, by cases of its kind. -/
theorem Cuts.pieceAt (cuts : Cuts c rest piece n) : pieceAt c rest = .ok (piece, n) := by
  cases cuts with
  | string quoted extent =>
      have other : c ≠ '\n' ∧ c ≠ '\\' ∧ c ≠ '#' := by
        simp only [isQuote, Bool.or_eq_true, beq_iff_eq] at quoted
        rcases quoted with rfl | rfl <;> decide
      unfold Lexeme.pieceAt
      rw [if_neg other.1, if_neg other.2.1, if_neg other.2.2, if_pos quoted, extent]
      rfl
  | @raw quote more n raw same quoted extent =>
      have letter : isWordChar c = true ∧ c.isDigit = false := by
        rcases raw with rfl | rfl <;> decide
      rw [pieceAt_of_not_isMark (isMark_of_isWordChar letter.1),
        startsNumber_of_isWordChar letter.1, letter.2, if_neg (by simp), if_pos letter.1, same]
      simp [raw, quoted, extent]
  | number starts => rw [pieceAt_of_not_isMark (isMark_of_startsNumber starts), if_pos starts]
  | word letter noDigit plain =>
      rw [pieceAt_of_not_isMark (isMark_of_isWordChar letter), startsNumber_of_isWordChar letter,
        noDigit, if_neg (by simp), if_pos letter]
      cases rest with
      | nil => rfl
      | cons quote more =>
          have noRaw : ((c == 'r' || c == 'R') && isQuote quote) = false := by
            by_contra raw
            rw [Bool.not_eq_false, Bool.and_eq_true, Bool.or_eq_true, beq_iff_eq,
              beq_iff_eq] at raw
            have bare := plain raw.1
            simp [raw.2] at bare
          simp [noRaw]
  | @operator signs found noNumber =>
      obtain ⟨_, _, known⟩ := cons_mem_operators found
      obtain ⟨plain, noLetter, _⟩ := head_of_mem_operators known
      rw [pieceAt_of_not_isMark plain, noNumber, noLetter, found]
      simp

/-! ## Whole texts -/

/-- Whether a character ends a whole text that it stands behind. -/
def ends (piece : Piece) (text : List Char) (d : Char) : Bool :=
  match piece with
  | .word => !isWordChar d && !isQuote d
  | .number => !isNumberChar d && d != '+' && d != '-'
  | .string => !isQuote d
  | .operator => endsOperator text d && !(text == ['.'] && d.isDigit)
  | _ => true

variable {text : List Char}

theorem numberExtent_pos {d : Char} (digit : isNumberChar d = true) (rest : List Char) :
    0 < numberExtent (d :: rest) := by
  cases rest with
  | nil => simp [numberExtent, digit]
  | cons e rest =>
      simp only [numberExtent, digit]
      split
      · omega
      · simp

/-- A piece of code that is cut off a source is cut off also where the source ends
behind it. -/
theorem Cuts.of_append (cuts : Cuts c (text ++ rest) piece text.length) :
    Cuts c text piece text.length := by
  generalize source : text ++ rest = all at cuts
  generalize width : text.length = n at cuts
  cases cuts with
  | string quoted extent =>
      subst source width
      exact .string quoted (stringExtent_of_append extent)
  | @raw quote more n raw same quoted extent =>
      subst source
      cases text with
      | nil => cases width
      | cons d text =>
          obtain ⟨rfl, rfl⟩ := List.cons.inj same
          obtain rfl : text.length = n := by simpa using width
          exact .raw raw rfl quoted (stringExtent_of_append extent)
  | number starts =>
      subst source
      have whole := numberExtent_of_append width.symm
      rw [← width, ← whole]
      refine .number ?_
      simp only [startsNumber, Bool.or_eq_true, Bool.and_eq_true] at starts ⊢
      rcases starts with digit | ⟨dot, next⟩
      · exact .inl digit
      · cases text with
        | nil =>
            -- the digit behind the point would belong to the number
            cases rest with
            | nil => cases next
            | cons d rest =>
                have digit : isNumberChar d = true := by
                  simp only [isNumberChar, Char.isAlphanum, Bool.or_eq_true]
                  exact .inl (.inl (.inr (by simpa using next)))
                have bound := numberExtent_pos digit rest
                simp only [List.nil_append, List.length_nil] at width
                omega
        | cons d text => exact .inr ⟨dot, next⟩
  | word letter noDigit plain =>
      subst source
      have same : (text ++ rest).takeWhile isWordChar = text := by
        have front : (text ++ rest).takeWhile isWordChar <+: text ++ rest :=
          List.takeWhile_prefix _
        rw [List.prefix_iff_eq_take.mp front]
        have length : ((text ++ rest).takeWhile isWordChar).length = text.length := width.symm
        rw [length, List.take_left]
      have all : text.takeWhile isWordChar = text := by
        rw [List.takeWhile_eq_self_iff]
        intro d member
        rw [← same] at member
        exact List.mem_takeWhile_imp member
      have extent : wordExtent text = text.length := by rw [wordExtent, all]
      rw [← width, ← extent]
      refine .word letter noDigit fun raw => ?_
      have bare := plain raw
      cases text with
      | nil => rfl
      | cons d text => exact bare
  | @operator signs found noNumber =>
      subst source
      have longest := isLongest_of_operatorText? found
      have long : signs.length = text.length + 1 := by
        rcases length_of_mem_operators longest.1 with one | one | one <;> omega
      obtain rfl : signs = c :: text := by
        rw [List.prefix_iff_eq_take.mp longest.2.1, long]
        simp
      have still : IsLongest (c :: text) (c :: text) := @IsLongest.of_append _ rest longest
      rw [← width]
      refine .operator still.operatorText? ?_
      cases text with
      | nil => simp_all [startsNumber]
      | cons d text => exact noNumber

/-- A whole piece of code is cut off in front of every character that ends it. -/
theorem Cuts.append (cuts : Cuts c text piece text.length)
    (next : rest.head?.all (ends piece (c :: text)) = true) :
    Cuts c (text ++ rest) piece text.length := by
  have other {quote : Char} (quoted : isQuote quote = true)
      (next : rest.head?.all (fun d => !isQuote d) = true) : rest.head? ≠ some quote := by
    intro starts
    simp [starts, quoted] at next
  generalize width : text.length = n at cuts
  cases cuts with
  | string quoted extent =>
      subst width
      exact .string quoted (stringExtent_append extent fun _ => other quoted next)
  | @raw quote more n raw same quoted extent =>
      subst same
      obtain rfl : more.length = n := by simpa using width
      exact .raw raw rfl quoted (stringExtent_append extent fun _ => other quoted next)
  | number starts =>
      rw [← width, ← numberExtent_append width.symm next]
      refine .number ?_
      cases text with
      | nil => simp_all [startsNumber]
      | cons d text => exact starts
  | word letter noDigit plain =>
      have all : ∀ d ∈ text, isWordChar d = true := by
        rw [← List.takeWhile_eq_self_iff]
        exact (List.takeWhile_prefix isWordChar).eq_of_length width.symm
      have letters : rest.head?.all (fun d => !isWordChar d) = true := by
        cases rest <;> simp_all [ends]
      have extent : wordExtent (text ++ rest) = text.length := by
        rw [wordExtent, takeWhile_append_of_head all letters]
      rw [← width, ← extent]
      refine .word letter noDigit fun raw => ?_
      cases text with
      | nil => cases rest <;> simp_all [ends]
      | cons d text => exact plain raw
  | @operator signs found noNumber =>
      have longest := isLongest_of_operatorText? found
      have long : signs.length = text.length + 1 := by
        rcases length_of_mem_operators longest.1 with one | one | one <;> omega
      obtain rfl : signs = c :: text := by
        rw [List.prefix_iff_eq_take.mp longest.2.1, long]
        simp
      have clear : rest.head?.all (endsOperator (c :: text)) = true := by
        cases rest <;> simp_all [ends]
      have still := IsLongest.append longest.1 clear
      rw [← width]
      refine .operator still.operatorText? ?_
      cases text with
      | nil =>
          cases rest with
          | nil => simp_all [startsNumber]
          | cons d rest =>
              simp_all [startsNumber, ends]
              tauto
      | cons d text => exact noNumber

theorem Cuts.mem_operators (cuts : Cuts c text .operator text.length) : c :: text ∈ operators := by
  generalize width : text.length = n at cuts
  cases cuts with
  | @operator signs found _ =>
      have longest := isLongest_of_operatorText? found
      have long : signs.length = text.length + 1 := by
        rcases length_of_mem_operators longest.1 with one | one | one <;> omega
      have same : signs = c :: text := by
        rw [List.prefix_iff_eq_take.mp longest.2.1, long]
        simp
      exact same ▸ longest.1

theorem Cuts.isSpace (cuts : Cuts c rest piece n) : isSpace c = false := by
  by_contra space
  simp only [Lexeme.isSpace, Bool.not_eq_false, Bool.or_eq_true, beq_iff_eq] at space
  cases cuts with
  | string quoted | word quoted => rcases space with (rfl | rfl) | rfl <;> cases quoted
  | raw raw => rcases space with (rfl | rfl) | rfl <;> simp at raw
  | number starts => rcases space with (rfl | rfl) | rfl <;> cases starts
  | operator found =>
      obtain ⟨_, _, known⟩ := cons_mem_operators found
      have solid := (head_of_mem_operators known).2.2
      rcases space with (rfl | rfl) | rfl <;> cases solid

/-- A lexeme of a source is a layout token, or a piece that has been cut off. -/
theorem Scans.mem {m : Margin} {source : List Char} {ls : List Lexeme} (scans : Scans m source ls)
    {l : Lexeme} (member : l ∈ ls) :
    (∃ m kind, l = Margin.layoutToken m kind ∧ kind.isInline = false ∧ kind ≠ .comment) ∨
      ∃ m piece c text rest, pieceAt c (text ++ rest) = .ok (piece, text.length) ∧
        Margin.lexeme? m piece (c :: text) rest = some l := by
  induction scans with
  | finish =>
      left
      simp only [Margin.finish, List.mem_append, List.mem_map, List.mem_singleton] at member
      rcases member with (newline | ⟨_, _, unindent⟩) | eof
      · split at newline
        · cases newline
        · exact ⟨_, _, List.mem_singleton.mp newline, rfl, by decide⟩
      · exact ⟨_, _, unindent.symm, rfl, by decide⟩
      · exact ⟨_, _, eof, rfl, by decide⟩
  | step _ _ indentation cut _ ih =>
      rw [List.mem_append, List.mem_append] at member
      rcases member with (layout | here) | later
      · obtain ⟨_, _, _, kinds⟩ := Margin.indentation_eq_ok indentation
        rcases kinds l layout with same | same
        · exact .inl ⟨_, _, same, rfl, by decide⟩
        · exact .inl ⟨_, _, same, rfl, by decide⟩
      · exact .inr ⟨_, _, _, _, _, cut, Option.mem_toList.mp here⟩
      · exact ih later

end Lexeme

/-! ## Words -/

/-- A token without a place. -/
structure Word where
  kind : Token.Kind
  text : List Char
  deriving DecidableEq

namespace Word

open Lexeme

def keyword (k : Keyword) : Word := ⟨.keyword k, k.letters⟩

def symbol (s : Symbol) : Word := ⟨.symbol s, s.signs⟩

/-- A name. -/
def name (text : String) : Word := ⟨.ident, text.toList⟩

/-- A sign or an operator that is a single token. -/
def sign (op : String) : Word :=
  ⟨(Token.Kind.ofKeyword? op.toList).getD (Margin.operatorKind op.toList), op.toList⟩

/-- What a word is cut off as. -/
def piece (w : Word) : Piece :=
  match w.kind with
  | .ident | .keyword _ => .word
  | .number => .number
  | .string => .string
  | _ => .operator

/-- The kind of a piece of code in front of some text. -/
def kindOf (piece : Piece) (text rest : List Char) : Token.Kind :=
  match piece with
  | .word => Margin.wordKind text rest
  | .number => .number
  | .string => .string
  | _ => Margin.operatorKind text

/-- A word that can be cut off a source. -/
def Sound (w : Word) : Prop :=
  ∃ c text, w.text = c :: text ∧ Cuts c text w.piece text.length ∧
    ∃ rest, kindOf w.piece w.text rest = w.kind

/-- Code is cut off as what its kind says. -/
theorem piece_kindOf {piece : Piece} (code : piece.isCode = true) (text rest : List Char) :
    Word.piece ⟨kindOf piece text rest, text⟩ = piece := by
  cases piece with
  | word =>
      show Word.piece ⟨Margin.wordKind text rest, text⟩ = .word
      unfold Margin.wordKind
      split
      · split <;> rfl
      · rfl
      · rfl
  | operator =>
      rcases Margin.operatorKind_cases text with same | ⟨sign, same⟩ <;>
        simp only [Word.piece, kindOf, same]
  | number | string => rfl
  | newline | continuation | comment => cases code

end Word

/-- The word that a token is. -/
def Token.word (t : Token) : Word := ⟨t.kind, t.text.toList⟩

namespace Lexeme

/-- The token that a piece of code is. -/
theorem lexeme?_of_isCode {m : Margin} {piece : Piece} (code : piece.isCode = true)
    (text rest : List Char) :
    m.lexeme? piece text rest =
      some (.token (.mkAt (Word.kindOf piece text rest) m.pos text)) := by
  cases piece with
  | newline | continuation | comment => cases code
  | word | number | string | operator => rfl

/-- The tokens of a source that stand inside a line are sound words. -/
theorem Scans.sound {m : Margin} {source : List Char} {ls : List Lexeme} (scans : Scans m source ls)
    {t : Token} (member : Lexeme.token t ∈ ls) (inline : t.kind.isInline = true) :
    t.word.Sound := by
  rcases scans.mem member with ⟨m, kind, same, other, -⟩ | ⟨m, piece, c, text, rest, cut, found⟩
  · cases same
    simp [Token.mkAt, other] at inline
  · have code : piece.isCode = true := by
      cases piece with
      | newline | continuation | comment =>
          simp only [Margin.lexeme?] at found
          (repeat' split at found) <;> cases found <;> cases inline
      | word | number | string | operator => rfl
    rw [lexeme?_of_isCode code] at found
    cases found
    have word : (Token.mkAt (Word.kindOf piece (c :: text) rest) m.pos (c :: text)).word =
        ⟨Word.kindOf piece (c :: text) rest, c :: text⟩ := by
      simp [Token.word, Token.mkAt]
    rw [word]
    have same := Word.piece_kindOf code (c :: text) rest
    refine ⟨c, text, rfl, ?_, rest, ?_⟩
    · rw [same]
      exact (cuts_of_pieceAt code cut).of_append
    · rw [same]

end Lexeme

end Starlark
