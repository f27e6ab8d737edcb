import Starlark.File
import Starlark.Node.Print

/-!
# Printing files

The text of a file: the comments that found no place, the statements, and the
comments behind the last statement.
-/

set_option autoImplicit false

namespace Starlark

/-- How a dialect spaces its statements. -/
def Dialect.spacing (d : Dialect) : Spacing := if d.listsTargets then .apart else .grouped

namespace File

/-- Writes a file. -/
def print (f : File) : Doc := fun p =>
  let p := p.commentLines f.comments.before
  let p := Page.statements (printList f.statements) p
  Page.breakIfDue (p.commentLines f.comments.after)

/-- The page that a file fills. -/
def page (spacing : Spacing) (f : File) : Page := f.print (.blank spacing)

/-- The text of a file under a given spacing. -/
def formatWith (spacing : Spacing) (f : File) : String := (f.page spacing).text

/-- The text of a file, spaced the way its dialect asks for unless `spacing`
says otherwise. -/
def format (spacing : Option Spacing) (f : File) : String :=
  f.formatWith (spacing.getD f.dialect.spacing)

end File

end Starlark
