import NeonAudit.Audit.Check
import NeonAudit.Audit.Validate
import NeonAudit.Command
import NeonAudit.Config
import NeonAudit.Config.Lexeme
import NeonAudit.Document.Cursor
import NeonAudit.Document.Decode
import NeonAudit.Document.Encode
import NeonAudit.FileTree.Discovery
import NeonAudit.FileTree.Growth
import NeonAudit.Leaf
import NeonAudit.Main
import NeonAudit.Proofs.Audit.Agreement
import NeonAudit.Proofs.Audit.Count
import NeonAudit.Proofs.Audit.Encoding
import NeonAudit.Proofs.Audit.Once
import NeonAudit.Proofs.Audit.Outcome
import NeonAudit.Proofs.Containment.Missing
import NeonAudit.Proofs.Containment.Order
import NeonAudit.Proofs.Document.Blame
import NeonAudit.Proofs.Document.Chain
import NeonAudit.Proofs.Document.Collecting
import NeonAudit.Proofs.Document.Compact
import NeonAudit.Proofs.Document.Cursor.Advance
import NeonAudit.Proofs.Document.Cursor.Block
import NeonAudit.Proofs.Document.Cursor.Decode
import NeonAudit.Proofs.Document.Cursor.Ensures
import NeonAudit.Proofs.Document.Cursor.Inline
import NeonAudit.Proofs.Document.Cursor.Loop
import NeonAudit.Proofs.Document.Depth
import NeonAudit.Proofs.Document.Draft
import NeonAudit.Proofs.Document.ErrorLocation
import NeonAudit.Proofs.Document.ErrorPosition
import NeonAudit.Proofs.Document.Indexing
import NeonAudit.Proofs.Document.Inline
import NeonAudit.Proofs.Document.InlineLayout
import NeonAudit.Proofs.Document.Inset
import NeonAudit.Proofs.Document.KeyLines
import NeonAudit.Proofs.Document.Layout
import NeonAudit.Proofs.Document.Legible
import NeonAudit.Proofs.Document.LineEnd
import NeonAudit.Proofs.Document.Lines
import NeonAudit.Proofs.Document.Link
import NeonAudit.Proofs.Document.Multiline
import NeonAudit.Proofs.Document.Nested
import NeonAudit.Proofs.Document.Outline
import NeonAudit.Proofs.Document.PassesLineEnds
import NeonAudit.Proofs.Document.Relined
import NeonAudit.Proofs.Document.Repetition
import NeonAudit.Proofs.Document.RoundTrip
import NeonAudit.Proofs.Document.Separated
import NeonAudit.Proofs.Document.Shift
import NeonAudit.Proofs.Document.VacantLine
import NeonAudit.Proofs.Document.Whole
import NeonAudit.Proofs.Entries
import NeonAudit.Proofs.Equality
import NeonAudit.Proofs.Equality.Reordering
import NeonAudit.Proofs.Excerpt
import NeonAudit.Proofs.Excerpt.Window
import NeonAudit.Proofs.Excerpt.Words
import NeonAudit.Proofs.FileTree.Groups
import NeonAudit.Proofs.FileTree.Joined
import NeonAudit.Proofs.FileTree.Leaves
import NeonAudit.Proofs.FileTree.Named
import NeonAudit.Proofs.FileTree.Overlap
import NeonAudit.Proofs.FileTree.Permuted
import NeonAudit.Proofs.FileTree.Walk
import NeonAudit.Proofs.Leaf.Dotted
import NeonAudit.Proofs.Leaf.Place
import NeonAudit.Proofs.Literal.Bare
import NeonAudit.Proofs.Literal.DateTime
import NeonAudit.Proofs.Literal.Denoted
import NeonAudit.Proofs.Literal.Fault
import NeonAudit.Proofs.Literal.Grammar
import NeonAudit.Proofs.Literal.Integer
import NeonAudit.Proofs.Literal.Moment
import NeonAudit.Proofs.Literal.Number
import NeonAudit.Proofs.Literal.Offset
import NeonAudit.Proofs.Literal.Spelling
import NeonAudit.Proofs.Literal.Zone
import NeonAudit.Proofs.Location
import NeonAudit.Proofs.Message
import NeonAudit.Proofs.Number.Digits
import NeonAudit.Proofs.Number.Nearest
import NeonAudit.Proofs.Number.Shortest
import NeonAudit.Proofs.Result
import NeonAudit.Proofs.Rule
import NeonAudit.Proofs.Rule.Reading
import NeonAudit.Proofs.Text.Escape
import NeonAudit.Proofs.Text.EscapeGrammar
import NeonAudit.Proofs.Text.Utf8
import NeonAudit.Proofs.Text.Utf8.Spelling
import NeonAudit.Proofs.Text.Utf8.Start
import NeonAudit.Proofs.Token.Coverage
import NeonAudit.Proofs.Token.Cutting
import NeonAudit.Proofs.Token.Lexeme
import NeonAudit.Proofs.Token.LineFeed
import NeonAudit.Proofs.Token.Padding
import NeonAudit.Proofs.Token.Relined
import NeonAudit.Proofs.Token.SingleQuoted
import NeonAudit.Proofs.Token.Spelled
import NeonAudit.Proofs.Token.Vacant
import NeonAudit.Proofs.Verdict
import NeonAudit.Report.Json
import NeonAudit.Report.Text
import NeonAudit.Rule
import NeonAudit.Rule.Containment
import NeonAudit.Text.Utf8
import NeonAudit.Value.Indexed
