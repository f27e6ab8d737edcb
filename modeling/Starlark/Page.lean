import Starlark.Comment
import Starlark.Text.Blank

/-!
# Pages

Printing writes onto a page. A page holds the text written so far, the left
margin, how many brackets are open, and the end-of-line comments that wait for
the next line break. It only grows at its end, except that spaces at the end
of a line are taken back when the line ends.

A doc is what writes onto a page. The margin and the number of open brackets
change only inside the docs `indented`, `marginAt` and `enclosed`, which put
them back.
-/

set_option autoImplicit false

namespace Starlark

/-- How statements at the top of a file are spaced. -/
inductive Spacing where
  /-- A blank line between any two, apart from neighbouring loads. -/
  | apart
  /-- Grouped the way the source groups them. -/
  | grouped
  deriving DecidableEq

/-- What has been printed so far. -/
structure Page where
  /-- The text, last character first. -/
  rev : List Char
  /-- End-of-line comments that wait for the next line break. -/
  pending : List Comment
  /-- The left margin in spaces. -/
  margin : Nat
  /-- How many brackets are open. -/
  depth : Nat
  /-- Whether a statement has ended and the next one has to start a new
  line. -/
  breakDue : Bool
  spacing : Spacing
  /-- The tokens of the strings that were spelled anew, last first. -/
  requoted : List String

/-- What writes onto a page. -/
abbrev Doc := Page → Page

namespace Page

/-- An empty page. -/
def blank (spacing : Spacing) : Page := ⟨[], [], 0, 0, false, spacing, []⟩

/-- The text of a page. -/
def text (p : Page) : String := String.ofList p.rev.reverse

/-- Writes characters. -/
def putChars (chars : List Char) : Doc := fun p => { p with rev := chars.reverse ++ p.rev }

/-- Writes a text. -/
def put (text : String) : Doc := putChars text.toList

/-- Writes spaces. -/
def pad (width : Nat) : Doc := putChars (List.replicate width ' ')

/-- The column at the end of the text, in characters. -/
def column (p : Page) : Nat := (p.rev.takeWhile (· != '\n')).length

/-- Takes back the spaces at the end. -/
def trim : Doc := fun p => { p with rev := p.rev.dropWhile (· == ' ') }

/-- Writes a comment. -/
def comment (c : Comment) : Doc := putChars (Text.trim c.text.toList)

/-- Ends a line and starts the next at the margin. -/
def lineBreak : Doc := fun p => pad p.margin (putChars ['\n'] p.trim)

/-- Writes the comments that wait at the end of a line, the second and later
ones on lines of their own. -/
def flush : Doc := fun p =>
  match p.pending with
  | [] => p
  | first :: rest =>
    rest.foldl (fun p c => comment c p.lineBreak)
      (comment first (put "  " { p with pending := [] }))

/-- Ends a line with its comments. -/
def newline : Doc := fun p => lineBreak (flush { p with breakDue := false })

/-- Asks for a new line before the next statement. -/
def softBreak : Doc := fun p => { p with breakDue := true }

/-- Ends the line if a new one has been asked for. -/
def breakIfDue : Doc := fun p => if p.breakDue then p.newline else p

/-- Breaks a line inside an expression, behind a backslash when no bracket is
open; such a line cannot end with a comment. -/
def breakInside : Doc := fun p =>
  if p.depth = 0 then pad p.margin (put " \\\n" p) else p.newline

/-- Leaves comments to wait for the next line break. -/
def queue (cs : List Comment) : Doc := fun p => { p with pending := p.pending ++ cs }

/-- Notes a string that was spelled anew. -/
def noteRequoted (token : String) : Doc := fun p => { p with requoted := token :: p.requoted }

/-- Writes comments, each on a line of its own that it ends. -/
def commentLines (cs : List Comment) : Doc := fun p =>
  cs.foldl (fun p c => newline (comment c p)) p

/-- Writes comments, each on a new line. -/
def linesOfComments (cs : List Comment) : Doc := fun p =>
  cs.foldl (fun p c => comment c p.newline) p

/-- Writes with the margin at a column. -/
def marginAt (margin : Nat) (doc : Doc) : Doc := fun p =>
  { doc { p with margin := margin } with margin := p.margin }

/-- Writes with the margin moved to the right. -/
def indented (width : Nat) (doc : Doc) : Doc := fun p => marginAt (p.margin + width) doc p

/-- Writes inside one more bracket. -/
def enclosed (doc : Doc) : Doc := fun p =>
  { doc { p with depth := p.depth + 1 } with depth := p.depth }

end Page

end Starlark
