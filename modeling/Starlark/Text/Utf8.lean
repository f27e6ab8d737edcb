/-!
# Text in UTF-8

Sources arrive as bytes. `decode` reads the whole of them as text, and where
they are not UTF-8 it gives the longest beginning that is, so that the fault
can be placed.
-/

set_option autoImplicit false

namespace Starlark.Text.Utf8

/-- The characters that `bytes` holds from `start` on, up to the first byte
that begins no character, and whether they reach the end of `bytes`. -/
def charsFrom (bytes : ByteArray) (start : Nat) : List Char × Bool :=
  if _inside : start < bytes.size then
    match bytes.utf8DecodeChar? start with
    | none => ([], false)
    | some c =>
      let (chars, complete) := charsFrom bytes (start + c.utf8Size)
      (c :: chars, complete)
  else ([], true)
termination_by bytes.size - start
decreasing_by
  have positive := c.utf8Size_pos
  omega

/-- The text that `bytes` hold, or else the longest beginning of them that is
text. -/
def decode (bytes : ByteArray) : Except (List Char) (List Char) :=
  match charsFrom bytes 0 with
  | (chars, true) => .ok chars
  | (chars, false) => .error chars

/-- How many bytes a text takes. -/
def size : List Char → Nat
  | [] => 0
  | c :: text => c.utf8Size + size text

@[simp] theorem size_nil : size [] = 0 := rfl

@[simp] theorem size_cons (c : Char) (text : List Char) :
    size (c :: text) = c.utf8Size + size text := rfl

/-- Two texts in turn take the bytes of both. -/
@[simp] theorem size_append (first second : List Char) :
    size (first ++ second) = size first + size second := by
  induction first with
  | nil => simp
  | cons c first ih => simp [ih, Nat.add_assoc]

/-- The beginning of a text that fills the first `count` bytes. -/
def takeBytes : Nat → List Char → List Char
  | 0, _ => []
  | _ + 1, [] => []
  | count + 1, c :: text => c :: takeBytes (count + 1 - c.utf8Size) text

end Starlark.Text.Utf8
