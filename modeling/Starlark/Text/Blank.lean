/-!
# White space

The characters with the White_Space property, and the two ways of trimming a
text of them. Comments end before the white space that closes their line, and
the comment's place on its line depends on what other than white space stands
before it.
-/

set_option autoImplicit false

namespace Starlark.Text

/-- Whether a character has the White_Space property. -/
def isBlank (c : Char) : Bool :=
  let n := c.toNat
  (0x9 ≤ n && n ≤ 0xD) || n == 0x20 || n == 0x85 || n == 0xA0 || n == 0x1680 ||
    (0x2000 ≤ n && n ≤ 0x200A) || n == 0x2028 || n == 0x2029 || n == 0x202F ||
    n == 0x205F || n == 0x3000

/-- A text without the white space at its end. -/
def trimEnd (text : List Char) : List Char := (text.reverse.dropWhile isBlank).reverse

/-- A text without the white space at either end. -/
def trim (text : List Char) : List Char := trimEnd (text.dropWhile isBlank)

end Starlark.Text
