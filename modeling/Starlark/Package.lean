import Starlark.Text.Split

/-!
# Package directories

A file belongs to the package of the directory it stands in. The directory is
read off the path by its components: empty components and `.` do not count,
except for a `.` in front, and a slash at the end changes nothing.
-/

set_option autoImplicit false

namespace Starlark.Package

/-- The components of a path, the root not counted. -/
def components (path : List Char) : List (List Char) :=
  match Text.splitOn '/' path with
  | [] => []
  | first :: rest =>
    let counts (piece : List Char) : Bool := piece != [] && piece != ['.']
    (if first != [] then [first] else []) ++ rest.filter counts

/-- The name of the directory that a path lies in; none at the root, and none
when the directory is only `.` or `..`. -/
def directoryName? (path : String) : Option String :=
  match (components path.toList).reverse with
  | _ :: directory :: _ =>
    if directory = ['.'] ∨ directory = ['.', '.'] then none else some (String.ofList directory)
  | _ => none

end Starlark.Package
