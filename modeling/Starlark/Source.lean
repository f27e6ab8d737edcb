import Starlark.Attachment
import Starlark.File
import Starlark.Lexeme
import Starlark.Reader.Statement

/-!
# Sources

From the bytes of a source to its tree: decoding, cutting into tokens, reading
the statements, and attaching the comments that were kept on the side. The
first fault ends the reading, and no tree comes of it.
-/

set_option autoImplicit false

namespace Starlark

/-- How a source is to be read. -/
structure Options where
  /-- Recorded on the file; the grammar does not depend on it. -/
  dialect : Dialect
  /-- Whether parameters of a `def` may have types. -/
  types : Bool
  deriving DecidableEq

namespace File

/-- The file that a stream of tokens and side comments spells. -/
def ofStream (path : String) (options : Options) (stream : TokenStream) : Except Fault File := do
  let statements ← Reader.statements options.types stream.tokens
  let (statements, line, suffix) := attach statements stream.lineComments stream.suffixComments
  return ⟨path, options.dialect, statements, ⟨suffix, [], line⟩⟩

/-- The file that a text spells. -/
def ofChars (path : String) (options : Options) (source : List Char) : Except Fault File := do
  ofStream path options (← TokenStream.ofChars source)

/-- The file that a text spells. -/
def ofText (path : String) (options : Options) (source : String) : Except Failure File :=
  (ofChars path options source.toList).mapError (⟨·, path⟩)

/-- The file that the bytes of a source spell. -/
def ofBytes (path : String) (options : Options) (bytes : ByteArray) : Except Failure File :=
  match Text.Utf8.decode bytes with
  | .ok source => (ofChars path options source).mapError (⟨·, path⟩)
  | .error text => .error ⟨⟨Position.origin.advance text, .encoding⟩, path⟩

end File

end Starlark
