import Starlark.File.Print
import Starlark.Source

/-!
# The journal

What reading, editing and printing report about their work, as records of two
levels: details of single steps, and one summary for each reading.
-/

set_option autoImplicit false

namespace Starlark

/-- What a record reports. -/
inductive Record where
  /-- A source was cut into tokens and side comments. -/
  | scanned (path : String) (tokens lineComments suffixComments : Nat)
  /-- A source was read. -/
  | read (path : String) (statements : Nat)
  /-- A source could not be read. -/
  | failed (failure : Failure)
  /-- An edit replaced a node. -/
  | replaced (kind byKind : String)
  /-- A string was spelled anew. -/
  | requoted (token : String)

namespace Record

/-- Whether a record is a detail rather than a summary. -/
def isDetail : Record → Bool
  | .scanned .. | .replaced .. | .requoted .. => true
  | .read .. | .failed .. => false

/-- The text of a record. -/
def message : Record → String
  | .scanned path tokens line suffix =>
    path ++ ": " ++ toString tokens ++ " tokens, " ++ toString line ++ " line comments, " ++
      toString suffix ++ " suffix comments"
  | .read path statements => "parsed " ++ path ++ ": " ++ toString statements ++ " statements"
  | .failed failure => failure.message
  | .replaced kind byKind => "edit: " ++ kind ++ " replaced by " ++ byKind
  | .requoted token => "requoting string literal " ++ token

end Record

namespace Journal

/-- The records of reading a source. Bytes that are not text leave none. -/
def ofReading (path : String) (options : Options) (bytes : ByteArray) : List Record :=
  match Text.Utf8.decode bytes with
  | .error _ => []
  | .ok source =>
    match TokenStream.ofChars source with
    | .error fault => [.failed ⟨fault, path⟩]
    | .ok stream =>
      let scanned := Record.scanned path stream.tokens.length stream.lineComments.length
        stream.suffixComments.length
      match File.ofStream path options stream with
      | .error fault => [scanned, .failed ⟨fault, path⟩]
      | .ok file => [scanned, .read path file.statements.length]

/-- A visitor that also records its replacements, last first. -/
def recording {σ : Type} (visit : Node.Visitor σ) : Node.Visitor (σ × List Record) :=
  fun v above (s, records) =>
    match visit v above s with
    | (some w, s) => (some w, s, .replaced v.kind w.kind :: records)
    | (none, s) => (none, s, records)

/-- The records of an edit, and the edited file. -/
def ofEdit {σ : Type} (visit : Node.Visitor σ) (f : File) (s : σ) : File × List Record :=
  let (f, _, records) := f.edit (recording visit) (s, [])
  (f, records.reverse)

/-- The records of printing a file. -/
def ofPrinting (spacing : Option Spacing) (f : File) : List Record :=
  (f.page (spacing.getD f.dialect.spacing)).requoted.reverse.map .requoted

end Journal

end Starlark
