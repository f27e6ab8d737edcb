import Starlark.Source

/-!
# Bytes and the text they hold

`decode` gives a text exactly when the bytes are its encoding
(`decode_eq_ok_iff`). Otherwise it gives the longest text whose encoding the
bytes begin with (`decode_eq_error`). Both come from what `charsFrom` finds:
where the bytes of a text stand it finds that text and goes on behind it, and
whatever it finds stands there.
-/

set_option autoImplicit false

namespace Starlark.Text.Utf8

theorem size_utf8Encode (text : List Char) : text.utf8Encode.size = size text := by
  induction text with
  | nil => rfl
  | cons c text ih =>
      rw [List.utf8Encode_cons, ByteArray.size_append, ih, size_cons, List.utf8Encode_singleton]
      simp

theorem size_utf8Encode_singleton (c : Char) : [c].utf8Encode.size = c.utf8Size := by
  rw [size_utf8Encode, size_cons, size_nil, Nat.add_zero]

theorem utf8DecodeChar?_at (front back : ByteArray) (c : Char) :
    (front ++ ([c].utf8Encode ++ back)).utf8DecodeChar? front.size = some c := by
  rw [ByteArray.utf8DecodeChar?_eq_utf8DecodeChar?_extract,
    ByteArray.extract_append_eq_right rfl ByteArray.size_append]
  exact List.utf8DecodeChar?_utf8Encode_singleton_append

/-- Where the bytes of a text stand, its characters are found, and then those behind it. -/
theorem charsFrom_utf8Encode (front : ByteArray) (text : List Char) (back : ByteArray) :
    charsFrom (front ++ (text.utf8Encode ++ back)) front.size =
      (text ++ (charsFrom (front ++ (text.utf8Encode ++ back)) (front.size + size text)).1,
        (charsFrom (front ++ (text.utf8Encode ++ back)) (front.size + size text)).2) := by
  induction text generalizing front with
  | nil => simp
  | cons c text ih =>
      rw [List.utf8Encode_cons, ByteArray.append_assoc]
      have positive := c.utf8Size_pos
      have inside : front.size < (front ++ ([c].utf8Encode ++ (text.utf8Encode ++ back))).size := by
        rw [ByteArray.size_append, ByteArray.size_append, size_utf8Encode_singleton]
        omega
      have behind := ih (front ++ [c].utf8Encode)
      rw [ByteArray.append_assoc, ByteArray.size_append, size_utf8Encode_singleton] at behind
      rw [charsFrom.eq_def _ front.size, dif_pos inside, utf8DecodeChar?_at]
      simp only [behind, size_cons, Nat.add_assoc, List.cons_append]

/-- The characters that are found stand there, and nothing follows if they are all. -/
theorem utf8Encode_charsFrom {bytes : ByteArray} {start : Nat} (inside : start ≤ bytes.size) :
    ∃ rest, bytes.extract start bytes.size = (charsFrom bytes start).1.utf8Encode ++ rest ∧
      ((charsFrom bytes start).2 = true → rest = ByteArray.empty) := by
  fun_induction charsFrom bytes start with
  | case1 start _ none =>
      exact ⟨bytes.extract start bytes.size, by simp, nofun⟩
  | case2 start _ c found chars complete same ih =>
      obtain ⟨rest, shown, ends⟩ := ih (ByteArray.le_size_of_utf8DecodeChar?_eq_some found)
      rw [same] at shown ends
      rw [ByteArray.utf8DecodeChar?_eq_utf8DecodeChar?_extract] at found
      obtain ⟨more, split⟩ := ByteArray.exists_of_utf8DecodeChar?_eq_some found
      have width : c.utf8Size = (String.utf8EncodeChar c).toByteArray.size := by simp
      have length :
          bytes.size - start = (String.utf8EncodeChar c).toByteArray.size + more.size := by
        rw [← ByteArray.size_append, ← split, ByteArray.size_extract, Nat.min_self]
      have behind : bytes.extract (start + c.utf8Size) bytes.size = more :=
        calc bytes.extract (start + c.utf8Size) bytes.size
          _ = (bytes.extract start bytes.size).extract c.utf8Size (bytes.size - start) := by
            rw [ByteArray.extract_extract, Nat.add_sub_cancel' inside, Nat.min_self]
          _ = more := by rw [split, ByteArray.extract_append_eq_right width length]
      refine ⟨rest, ?_, ends⟩
      rw [split, List.utf8Encode_cons, List.utf8Encode_singleton, ByteArray.append_assoc, ← shown,
        behind]
  | case3 start outside =>
      obtain rfl : start = bytes.size := Nat.le_antisymm inside (Nat.le_of_not_lt outside)
      exact ⟨ByteArray.empty, by simp, fun _ => rfl⟩

/-- Bytes are read as the text that they encode. -/
theorem decode_eq_ok_iff {bytes : ByteArray} {text : List Char} :
    decode bytes = .ok text ↔ bytes = text.utf8Encode := by
  constructor
  · intro done
    obtain ⟨rest, shown, ends⟩ := utf8Encode_charsFrom (Nat.zero_le bytes.size)
    unfold decode at done
    split at done
    · rename_i chars all
      cases done
      rw [all, ByteArray.extract_zero_size] at shown
      rw [all] at ends
      rw [shown, ends rfl, ByteArray.append_empty]
    · cases done
  · rintro rfl
    have found := charsFrom_utf8Encode .empty text .empty
    have ends : charsFrom text.utf8Encode text.utf8Encode.size = ([], true) := by
      rw [charsFrom, dif_neg (Nat.lt_irrefl _)]
    rw [ByteArray.empty_append, ByteArray.append_empty, ByteArray.size_empty, Nat.zero_add,
      ← size_utf8Encode, ends, List.append_nil] at found
    rw [decode, found]

theorem decode_toUTF8 (s : String) : decode s.toUTF8 = .ok s.toList :=
  decode_eq_ok_iff.mpr String.utf8Encode_toList.symm

/-- Bytes that are no text begin with a text, and with no longer one. -/
theorem decode_eq_error {bytes : ByteArray} {text : List Char}
    (fails : decode bytes = .error text) :
    (∃ rest, bytes = text.utf8Encode ++ rest) ∧
      ∀ other rest, bytes = other.utf8Encode ++ rest → other <+: text := by
  obtain ⟨rest, shown, -⟩ := utf8Encode_charsFrom (Nat.zero_le bytes.size)
  unfold decode at fails
  split at fails
  · cases fails
  · rename_i chars part
    cases fails
    rw [part, ByteArray.extract_zero_size] at shown
    refine ⟨⟨rest, shown⟩, fun other more same => ?_⟩
    have found := charsFrom_utf8Encode .empty other more
    rw [ByteArray.empty_append, ← same, ByteArray.size_empty, part] at found
    exact ⟨_, (congrArg Prod.fst found).symm⟩

/-- The beginning of a text is found by its number of bytes. -/
theorem takeBytes_append (front back : List Char) :
    takeBytes (size front) (front ++ back) = front := by
  induction front with
  | nil => simp [takeBytes]
  | cons c front ih =>
      obtain ⟨k, width⟩ := Nat.exists_eq_succ_of_ne_zero (Nat.ne_of_gt c.utf8Size_pos)
      have count : size (c :: front) = k + size front + 1 := by
        rw [size_cons, width]
        omega
      have left : k + size front + 1 - c.utf8Size = size front := by omega
      rw [count, List.cons_append, takeBytes, left, ih]

end Starlark.Text.Utf8

namespace Starlark.File

/-- A source is read alike from its text and from the bytes of its text. -/
theorem ofBytes_toUTF8 (path : String) (options : Options) (source : String) :
    ofBytes path options source.toUTF8 = ofText path options source := by
  rw [ofBytes, Text.Utf8.decode_toUTF8, ofText]

end Starlark.File
