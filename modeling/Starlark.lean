import Starlark.Attachment
import Starlark.Block
import Starlark.Block.Trailing
import Starlark.Comment
import Starlark.Dialect
import Starlark.Fault
import Starlark.File
import Starlark.File.Print
import Starlark.Journal
import Starlark.Layout
import Starlark.Lexeme
import Starlark.Lexeme.Extent
import Starlark.Node
import Starlark.Node.Children
import Starlark.Node.Edit
import Starlark.Node.Parameter
import Starlark.Node.Print
import Starlark.Node.Span
import Starlark.Node.Walk
import Starlark.Package
import Starlark.Page
import Starlark.Position
import Starlark.Proofs.Block
import Starlark.Proofs.Grammar
import Starlark.Proofs.Grammar.Statement
import Starlark.Proofs.Lexeme
import Starlark.Proofs.Lexeme.Order
import Starlark.Proofs.Reader
import Starlark.Proofs.Reader.Expression
import Starlark.Proofs.Reader.Statement
import Starlark.Proofs.Pieces
import Starlark.Proofs.Remarks
import Starlark.Proofs.Source
import Starlark.Quoted
import Starlark.Reader
import Starlark.Reader.Expression
import Starlark.Reader.Statement
import Starlark.Revision
import Starlark.Rule
import Starlark.Source
import Starlark.Strength
import Starlark.Text.Blank
import Starlark.Text.Split
import Starlark.Text.Utf8
import Starlark.Token
import Starlark.Proofs.Script
import Starlark.Proofs.Sheet
import Starlark.Proofs.Shape
import Starlark.Proofs.Block.Forms
import Starlark.Proofs.Shape.Statement
import Starlark.Proofs.Plain
import Starlark.Proofs.Quoted
import Starlark.Proofs.Seam
import Starlark.Proofs.Lexeme.Tiling
import Starlark.Proofs.Labels
import Starlark.Proofs.Reader.Complete
import Starlark.Proofs.Portable
import Starlark.Proofs.Reader.Complete.Statement
import Starlark.Proofs.Skeleton
import Starlark.Proofs.Spelling
import Starlark.Proofs.Seam.Node
import Starlark.Proofs.Rescan
import Starlark.Proofs.RoundTrip
import Starlark.Proofs.Lexeme.Levels
import Starlark.Proofs.Relabel
import Starlark.Proofs.Hushed
import Starlark.Proofs.Columns
import Starlark.Proofs.Lexeme.Blanked
import Starlark.Proofs.Uncommented
import Starlark.Proofs.Unwrapped
import Starlark.Proofs.Span
import Starlark.Proofs.Span.Block
import Starlark.Proofs.Span.Statement
import Starlark.Proofs.Span.File
import Starlark.Proofs.Lexeme.Straight
import Starlark.Proofs.WellFormed
import Starlark.Proofs.Text.Utf8
import Starlark.Proofs.Types
import Starlark.Proofs.Failure
import Starlark.Proofs.Script.Sheltered
import Starlark.Proofs.Spacing
import Starlark.Proofs.Children
import Starlark.Proofs.Edit
import Starlark.Proofs.Literal
import Starlark.Proofs.Literal.Print
import Starlark.Proofs.Throughout
import Starlark.Proofs.Throughout.Statement
import Starlark.Proofs.Script.Brackets
import Starlark.Proofs.Parens
import Starlark.Proofs.Grove
import Starlark.Proofs.Slots
import Starlark.Proofs.Attachment
import Starlark.Proofs.LogicalLine
import Starlark.Proofs.Block.Trailing
import Starlark.Proofs.Load
import Starlark.Proofs.Reader.Rounds
import Starlark.Proofs.Reader.Progress
import Starlark.Proofs.Reader.Progress.Statement
import Starlark.Proofs.Lines
import Starlark.Proofs.Lines.Node
import Starlark.Proofs.Lines.Source
import Starlark.Proofs.Rule
import Starlark.Proofs.Package
import Starlark.Proofs.Attributes
import Starlark.Proofs.Page
import Starlark.Proofs.Lexeme.Spaced
