import Starlark.Quoted
import Starlark.Proofs.Word

/-!
# Canonical spellings

The canonical spelling of a string is read back as the string (`decode_encode`),
and it is a whole string literal, however a source goes on behind it
(`cuts_encodeChars`).

`Spells` says how a body is put together from the spellings of characters. Both
results are inductions on it: the spelling of each character is passed as a
whole, and none of them closes the literal.
-/

set_option autoImplicit false

namespace Starlark.Quoted

open Lexeme (shortExtent longExtent stringExtent Cuts)

/-! ## Characters -/

/-- The octal digits of a number below 512. -/
def octalDigits (n : Nat) : List Char :=
  [Nat.digitChar (n / 64), Nat.digitChar (n / 8 % 8), Nat.digitChar (n % 8)]

theorem digitChar_octal {n : Nat} (small : n < 8) :
    isOctal (Nat.digitChar n) = true ∧ digitValue (Nat.digitChar n) = n := by
  interval_cases n <;> decide

theorem octalDigits_isOctal {n : Nat} (small : n < 512) :
    ∀ d ∈ octalDigits n, isOctal d = true := by
  have first := (digitChar_octal (n := n / 64) (by omega)).1
  have second := (digitChar_octal (n := n / 8 % 8) (by omega)).1
  have third := (digitChar_octal (n := n % 8) (by omega)).1
  simp [octalDigits, first, second, third]

theorem valueOf_octalDigits {n : Nat} (small : n < 512) : valueOf 8 (octalDigits n) = n := by
  simp only [valueOf, octalDigits, List.foldl_cons, List.foldl_nil,
    (digitChar_octal (n := n / 64) (by omega)).2, (digitChar_octal (n := n / 8 % 8) (by omega)).2,
    (digitChar_octal (n := n % 8) (by omega)).2]
  omega

/-- The spelling of a character is the character, or a backslash and what follows it. -/
theorem encodeChar_cases (triple : Bool) (c : Char) :
    (encodeChar triple c = [c] ∧ c ≠ '\\' ∧ (triple = false → c ≠ '\n')) ∨
      (∃ d, encodeChar triple c = ['\\', d] ∧ simpleEscape? d = some c ∧ d ≠ '\n') ∨
      (encodeChar triple c = '\\' :: octalDigits c.toNat ∧ c.toNat < 160) := by
  unfold encodeChar
  split_ifs with slash line plain ret tab control
  · exact .inr (.inl ⟨'\\', rfl, by rw [slash]; rfl, by decide⟩)
  · exact .inl ⟨by rw [line], slash, fun short => absurd plain (by simp [short])⟩
  · exact .inr (.inl ⟨_, rfl, line ▸ rfl, by decide⟩)
  · exact .inr (.inl ⟨_, rfl, ret ▸ rfl, by decide⟩)
  · exact .inr (.inl ⟨_, rfl, tab ▸ rfl, by decide⟩)
  · refine .inr (.inr ⟨rfl, ?_⟩)
    simp only [isControl, Bool.or_eq_true, Bool.and_eq_true, decide_eq_true_eq] at control
    omega
  · exact .inl ⟨rfl, slash, fun _ => line⟩

/-- The spelling of a character other than a quote does not begin with a quote. -/
theorem encodeChar_eq_cons {triple : Bool} {c : Char} (other : c ≠ '"') :
    ∃ d more, encodeChar triple c = d :: more ∧ d ≠ '"' := by
  rcases encodeChar_cases triple c with ⟨same, _⟩ | ⟨d, same, _⟩ | ⟨same, _⟩
  · exact ⟨c, [], same, other⟩
  · exact ⟨'\\', _, same, by decide⟩
  · exact ⟨'\\', _, same, by decide⟩

/-! ## Bodies -/

/-- The spelling of a value between quotes. A quote stands unescaped only between
triple quotes, and in front of something else. -/
inductive Spells (triple : Bool) : List Char → List Char → Prop
  | nil : Spells triple [] []
  | char {c : Char} {value body : List Char} (other : c ≠ '"') (more : Spells triple value body) :
      Spells triple (c :: value) (encodeChar triple c ++ body)
  | escaped {value body : List Char} (more : Spells triple value body) :
      Spells triple ('"' :: value) ('\\' :: '"' :: body)
  | quote {d : Char} {value body : List Char} (long : triple = true) (other : d ≠ '"')
      (more : Spells triple value (d :: body)) :
      Spells triple ('"' :: value) ('"' :: d :: body)
  | quotes {d : Char} {value body : List Char} (long : triple = true) (other : d ≠ '"')
      (more : Spells triple value (d :: body)) :
      Spells triple ('"' :: '"' :: value) ('"' :: '"' :: d :: body)

variable {triple : Bool} {value body : List Char}

theorem encodeBody_cons {c : Char} (other : c ≠ '"') (rest : List Char) :
    encodeBody triple (c :: rest) = encodeChar triple c ++ encodeBody triple rest := by
  rw [encodeBody]
  · exact fun _ _ same _ => other same
  · exact fun _ _ same _ => other same
  · exact fun same _ => other same

/-- What is printed between the quotes spells the value, by induction on the value. -/
theorem spells_encodeBody (triple : Bool) (value : List Char) :
    Spells triple value (encodeBody triple value) := by
  have front {c : Char} (other : c ≠ '"') (rest : List Char) :
      ∃ d more, encodeBody triple (c :: rest) = d :: more ∧ d ≠ '"' := by
    obtain ⟨d, more, same, free⟩ := @encodeChar_eq_cons triple c other
    exact ⟨d, more ++ encodeBody triple rest, by rw [encodeBody_cons other, same]; rfl, free⟩
  fun_induction encodeBody triple value with
  | case1 => exact .nil
  | case2 c rest long ih =>
      simp only [Bool.and_eq_true, bne_iff_ne] at long
      obtain ⟨d, more, same, free⟩ := front long.2 rest
      rw [same] at ih ⊢
      exact .quotes long.1 free ih
  | case3 c rest _ ih => exact .escaped ih
  | case4 c rest _ long ih =>
      simp only [Bool.and_eq_true, bne_iff_ne] at long
      obtain ⟨d, more, same, free⟩ := front long.2 rest
      rw [same] at ih ⊢
      exact .quote long.1 free ih
  | case5 c rest _ _ ih => exact .escaped ih
  | case6 => exact .escaped .nil
  | case7 c rest _ alone lone ih =>
      have other : c ≠ '"' := by
        rintro rfl
        cases rest with
        | nil => exact lone rfl rfl
        | cons d rest => exact alone d rest rfl rfl
      exact .char other ih

/-! ## Reading back -/

theorem unescape_cons {c : Char} (plain : c ≠ '\\') (offset : Nat) (rest : List Char) :
    unescape offset (c :: rest) = (c :: ·) <$> unescape (offset + c.utf8Size) rest := by
  rw [unescape, if_neg plain]
  cases unescape (offset + c.utf8Size) rest <;> rfl

theorem unescape_escape {offset : Nat} {text front rest : List Char}
    (found : escape offset (front ++ rest) = .ok (text, front.length)) :
    unescape offset ('\\' :: (front ++ rest)) =
      (text ++ ·) <$> unescape (offset + 1 + Text.Utf8.size front) rest := by
  rw [unescape, if_pos rfl, found]
  simp only [bind, Except.bind, List.take_left', List.drop_left']
  cases unescape (offset + 1 + Text.Utf8.size front) rest <;> rfl

theorem escape_simple {c d : Char} (simple : simpleEscape? d = some c) (line : d ≠ '\n')
    (offset : Nat) (rest : List Char) : escape offset (d :: rest) = .ok ([c], 1) := by
  rw [escape]
  · rw [simple]
  · exact line

/-- An octal escape of three digits stands for its character. -/
theorem escape_octal {n : Nat} (small : n < 256) (offset : Nat) (rest : List Char) :
    escape offset (octalDigits n ++ rest) = .ok ([Char.ofNat n], 3) := by
  have octal := octalDigits_isOctal (n := n) (by omega)
  have letter : Nat.digitChar (n / 64) ≠ '\n' ∧ simpleEscape? (Nat.digitChar (n / 64)) = none := by
    have bound : n / 64 < 8 := by omega
    generalize n / 64 = k at bound
    interval_cases k <;> decide
  have digits : ((octalDigits n ++ rest).take 3).takeWhile isOctal = octalDigits n := by
    show (octalDigits n).takeWhile isOctal = octalDigits n
    exact List.takeWhile_eq_self_iff.mpr octal
  have value := valueOf_octalDigits (n := n) (by omega)
  show escape offset (Nat.digitChar (n / 64) :: _) = _
  rw [escape]
  · rw [letter.2, if_pos (octal _ (.head _))]
    simp only
    rw [show (Nat.digitChar (n / 64) :: _).take 3 = (octalDigits n ++ rest).take 3 from rfl, digits,
      value, if_neg (by omega)]
    rfl
  · exact letter.1

/-- The body of a canonical spelling denotes the value. -/
theorem Spells.unescape (spells : Spells triple value body) (offset : Nat) :
    unescape offset body = .ok value := by
  induction spells generalizing offset with
  | nil => rw [Quoted.unescape]
  | @char c value body other more ih =>
      rcases encodeChar_cases triple c with ⟨same, plain, _⟩ | ⟨d, same, simple, line⟩ |
        ⟨same, small⟩
      · rw [same, List.singleton_append, unescape_cons plain, ih]
        rfl
      · have found := escape_simple simple line offset body
        rw [same]
        exact (@unescape_escape offset [c] [d] body found).trans (by rw [ih]; rfl)
      · have found := escape_octal (n := c.toNat) (by omega) offset body
        rw [same, List.cons_append, unescape_escape found, ih, Char.ofNat_toNat]
        rfl
  | @escaped value body more ih =>
      have found := escape_simple (c := '"') (d := '"') rfl (by decide) offset body
      exact (@unescape_escape offset ['"'] ['"'] body found).trans (by rw [ih]; rfl)
  | quote _ _ _ ih =>
      rw [unescape_cons (by decide), ih]
      rfl
  | quotes _ _ _ ih =>
      rw [unescape_cons (by decide), unescape_cons (by decide), ih]
      rfl

/-! ## Extents -/

/-- A text that an extent counts as a whole, whatever follows. -/
def Passes (extent : List Char → Except Cause Nat) (text : List Char) : Prop :=
  ∀ rest, extent (text ++ rest) = (text.length + ·) <$> extent rest

namespace Passes

variable {extent : List Char → Except Cause Nat} {text more : List Char}

theorem nil : Passes extent [] := by
  intro rest
  cases same : extent rest <;> simp [same]

theorem append (first : Passes extent text) (second : Passes extent more) :
    Passes extent (text ++ more) := by
  intro rest
  rw [List.append_assoc, first, second]
  cases extent rest <;> simp [Nat.add_assoc]

theorem of_forall (each : ∀ c ∈ text, Passes extent [c]) : Passes extent text := by
  induction text with
  | nil => exact nil
  | cons c text ih =>
      obtain ⟨first, others⟩ := List.forall_mem_cons.mp each
      exact @append extent [c] text first (ih others)

/-- The spelling of a character is passed where escapes and plain characters are. -/
theorem encodeChar (slash : ∀ d, Passes extent ['\\', d])
    (plain : ∀ c, c ≠ '\\' → c ≠ '"' → (triple = false → c ≠ '\n') → Passes extent [c])
    {c : Char} (other : c ≠ '"') : Passes extent (Quoted.encodeChar triple c) := by
  rcases encodeChar_cases triple c with ⟨same, free, line⟩ | ⟨d, same, _⟩ | ⟨same, small⟩
  · rw [same]
    exact plain c free other line
  · rw [same]
    exact slash d
  · have octal := octalDigits_isOctal (n := c.toNat) (by omega)
    rw [same]
    refine append (slash (Nat.digitChar (c.toNat / 64))) (of_forall fun d member => ?_)
    have digit := octal d (List.mem_of_mem_tail member)
    refine plain d (fun same => ?_) (fun same => ?_) (fun _ same => ?_) <;> subst same <;>
      exact absurd digit (by decide)

end Passes

theorem passes_short_escape (d : Char) : Passes (shortExtent '"') ['\\', d] := by
  intro rest
  rw [List.cons_append, List.singleton_append, shortExtent]
  cases shortExtent '"' rest <;> simp [Nat.add_comm]

theorem passes_short_plain {c : Char} (slash : c ≠ '\\') (quote : c ≠ '"') (line : c ≠ '\n') :
    Passes (shortExtent '"') [c] := by
  intro rest
  rw [List.singleton_append, Lexeme.shortExtent_cons slash, if_neg quote, if_neg line]
  cases shortExtent '"' rest <;> simp [Nat.add_comm]

theorem passes_long_escape (d : Char) : Passes (longExtent '"') ['\\', d] := by
  intro rest
  rw [List.cons_append, List.singleton_append, longExtent]
  cases longExtent '"' rest <;> simp [Nat.add_comm]

theorem passes_long_plain {c : Char} (slash : c ≠ '\\') (quote : c ≠ '"') :
    Passes (longExtent '"') [c] := by
  intro rest
  rw [List.singleton_append, Lexeme.longExtent_cons slash, if_neg (fun both => quote both.1)]
  cases longExtent '"' rest <;> simp [Nat.add_comm]

/-- Nothing in the body of a canonical spelling closes a literal on one line. -/
theorem Spells.passes_short (spells : Spells false value body) : Passes (shortExtent '"') body := by
  generalize short : false = triple at spells
  induction spells with
  | nil => exact .nil
  | char other _ ih =>
      refine .append (.encodeChar passes_short_escape (fun c slash quote line => ?_) other) ih
      exact passes_short_plain slash quote (line short.symm)
  | escaped _ ih => exact .append (passes_short_escape '"') ih
  | quote long | quotes long => exact absurd (short.trans long) (by decide)

/-- A quote does not close a literal of several lines unless two more follow. -/
theorem passes_long_quote {text : List Char} (lone : ∀ rest, ¬['"', '"'] <+: text ++ rest)
    (more : Passes (longExtent '"') text) : Passes (longExtent '"') ('"' :: text) := by
  intro rest
  have runs : ¬('"' = '"' ∧ ['"', '"'].isPrefixOf (text ++ rest) = true) := by
    rintro ⟨_, front⟩
    exact lone rest (List.isPrefixOf_iff_prefix.mp front)
  rw [List.cons_append, Lexeme.longExtent_cons (by decide), if_neg runs, more]
  cases longExtent '"' rest with
  | error => rfl
  | ok n => exact congrArg Except.ok (by simp only [List.length_cons]; omega)

/-- Nothing in the body of a canonical spelling closes a literal of several lines. -/
theorem Spells.passes_long (spells : Spells triple value body) : Passes (longExtent '"') body := by
  induction spells with
  | nil => exact .nil
  | char other _ ih =>
      exact .append (.encodeChar passes_long_escape (fun c slash quote _ =>
        passes_long_plain slash quote) other) ih
  | escaped _ ih => exact .append (passes_long_escape '"') ih
  | quote _ other _ ih =>
      refine passes_long_quote (fun rest front => ?_) ih
      exact other (List.cons_prefix_cons.mp front).1.symm
  | quotes _ other _ ih =>
      refine passes_long_quote (fun rest front => ?_)
        (passes_long_quote (fun rest front => ?_) ih)
      · exact other (List.cons_prefix_cons.mp (List.cons_prefix_cons.mp front).2).1.symm
      · exact other (List.cons_prefix_cons.mp front).1.symm

/-! ## Literals -/

/-- The body of a literal on one line does not begin with a quote. -/
theorem Spells.head_short (spells : Spells false value body) : body.head? ≠ some '"' := by
  generalize short : false = triple at spells
  cases spells with
  | nil => simp
  | @char c value body other _ =>
      obtain ⟨d, more, same, free⟩ := @encodeChar_eq_cons triple c other
      simpa [same] using free
  | escaped => simp
  | quote long | quotes long => exact absurd (short.trans long) (by decide)

/-- A literal on one line does not begin with three quotes. -/
theorem Spells.not_triple (spells : Spells false value body) : ¬['"', '"'] <+: body ++ ['"'] := by
  intro front
  cases body with
  | nil => simp at front
  | cons c body =>
      have first := (List.cons_prefix_cons.mp front).1
      exact spells.head_short (by rw [← first]; rfl)

/-- A canonical spelling is a whole string literal. -/
theorem cuts_encodeChars (value : List Char) (triple : Bool) :
    ∃ text, encodeChars value triple = '"' :: text ∧ Cuts '"' text .string text.length := by
  have spells := spells_encodeBody triple value
  cases triple with
  | true =>
      refine ⟨_, rfl, .string rfl ?_⟩
      have extent : longExtent '"' (encodeBody true value ++ ['"', '"', '"']) =
          .ok ((encodeBody true value).length + 3) := spells.passes_long ['"', '"', '"']
      show (· + 2) <$> longExtent '"' (encodeBody true value ++ ['"', '"', '"']) = _
      rw [extent]
      simp [delimiter]
  | false =>
      refine ⟨_, rfl, .string rfl ?_⟩
      have extent : shortExtent '"' (encodeBody false value ++ ['"']) =
          .ok ((encodeBody false value).length + 1) := spells.passes_short ['"']
      have single : ['"', '"'].isPrefixOf (encodeBody false value ++ ['"']) = false := by
        rw [← Bool.not_eq_true, List.isPrefixOf_iff_prefix]
        exact spells.not_triple
      show stringExtent '"' (encodeBody false value ++ ['"']) = _
      rw [stringExtent, single, if_neg Bool.false_ne_true, extent]
      simp [delimiter]

/-- A printed literal has three quotes when it should. -/
theorem isTriple_encodeChars (value : List Char) (triple : Bool) :
    isTriple '"' (encodeChars value triple) = triple := by
  have spells := spells_encodeBody triple value
  cases triple with
  | true =>
      have behind : ['"', '"', '"'].isSuffixOf (encodeChars value true) = true := by
        rw [List.isSuffixOf_iff_suffix]
        exact List.suffix_append _ _
      rw [isTriple, behind]
      simp [encodeChars, delimiter]
  | false =>
      have single : ['"', '"', '"'].isPrefixOf (encodeChars value false) = false := by
        rw [← Bool.not_eq_true, List.isPrefixOf_iff_prefix]
        exact fun front => spells.not_triple (List.cons_prefix_cons.mp front).2
      rw [isTriple, single]
      simp

/-- Reading a printed literal gives its value back. -/
theorem decodeChars_encodeChars (value : List Char) (triple : Bool) :
    decodeChars (encodeChars value triple) = .ok (value, triple) := by
  have body (offset : Nat) := (spells_encodeBody triple value).unescape offset
  have same := isTriple_encodeChars value triple
  have last : (encodeChars value triple).getLast? = some '"' := by
    rw [encodeChars, List.getLast?_append]
    cases triple <;> rfl
  obtain ⟨text, begins, _⟩ := cuts_encodeChars value triple
  have long : text ≠ [] := by
    rintro rfl
    cases triple <;> simp [encodeChars, delimiter] at begins
  have inner : ((encodeChars value triple).drop (if triple then 3 else 1)).take
      ((encodeChars value triple).length - 2 * if triple then 3 else 1) =
        encodeBody triple value := by
    cases triple <;> simp [encodeChars, delimiter]
  rw [begins] at same last inner
  rw [begins, decodeChars]
  simp only [Bool.false_eq_true, if_false, List.drop_zero, ne_eq, not_true_eq_false, false_and,
    long, last, same, inner, body]
  · rfl
  · exact fun _ same => nomatch same
  · exact fun _ same => nomatch same

/-- The canonical spelling of a value is read back as the value. -/
theorem decode_encode (value : String) (triple : Bool) :
    decode (encode value triple) = .ok (value, triple) := by
  rw [decode, encode, String.toList_ofList, decodeChars_encodeChars]
  exact congrArg (fun text => Except.ok (text, triple)) String.ofList_toList

/-- Spelling a value loses nothing. The canonical spelling is read without a fault, as the value
between the quotes that were asked for, and it is the spelling of no other value. -/
theorem encode_loses_nothing (value : String) (triple : Bool) :
    decode (encode value triple) = .ok (value, triple) ∧
      ∀ other quotes, encode other quotes = encode value triple →
        other = value ∧ quotes = triple := by
  constructor
  · exact decode_encode value triple
  · intro other quotes same
    have read := decode_encode other quotes
    rw [same, decode_encode] at read
    cases read
    exact ⟨rfl, rfl⟩

end Starlark.Quoted
