import Starlark.Dialect
import Starlark.Node.Edit

/-!
# Files

A file is a list of statements under a path, in a dialect. Comments that no
statement takes are kept on the file itself.
-/

set_option autoImplicit false

namespace Starlark

/-- A source file as a tree. -/
structure File where
  path : String
  dialect : Dialect
  statements : List Node
  /-- `before` holds the suffix comments that found no place, `after` the line
  comments behind the last statement. -/
  comments : Comments
  deriving Inhabited

namespace File

/-- A file without statements. -/
def new (path : String) (dialect : Dialect) : File := ⟨path, dialect, [], .none⟩

/-- The visits of a walk through all statements in turn. -/
def walk (f : File) : List Visit := f.statements.flatMap Node.walk

/-- Edits some statements in turn. -/
def editAll {σ : Type} (visit : Node.Visitor σ) : List Node → σ → List Node × σ
  | [], s => ([], s)
  | v :: rest, s =>
    let (v, s) := v.edit visit s
    let (rest, s) := editAll visit rest s
    (v :: rest, s)

/-- Edits all statements in turn. -/
def edit {σ : Type} (visit : Node.Visitor σ) (f : File) (s : σ) : File × σ :=
  let (statements, s) := editAll visit f.statements s
  ({ f with statements := statements }, s)

end File

end Starlark
