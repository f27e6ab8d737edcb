/-!
# Cutting a text at a separator

Dotted names are cut at their dots and paths at their slashes.
-/

set_option autoImplicit false

namespace Starlark.Text

/-- The pieces of a text between the occurrences of a separator. -/
def splitOn (separator : Char) : List Char → List (List Char)
  | [] => [[]]
  | c :: rest =>
    if c = separator then [] :: splitOn separator rest
    else
      match splitOn separator rest with
      | [] => [[c]]
      | piece :: pieces => (c :: piece) :: pieces

end Starlark.Text
