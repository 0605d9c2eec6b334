import CssLint.Text.Blank
import CssLint.Text.Bytes
import CssLint.Text.Position
import CssLint.Token.Basic
import CssLint.Token.Name
import CssLint.Token.Number
import CssLint.Token.Reader
import CssLint.Token.Lexeme
import CssLint.Number.Binary64
import CssLint.Number.Shortest
import CssLint.Number.Text
import CssLint.Json.Basic
import CssLint.Json.Number
import CssLint.Json.Printer
import CssLint.Json.Reader
import CssLint.Selector.Attribute
import CssLint.Selector.Fault
import CssLint.Selector.Name
import CssLint.Selector.Reader
import CssLint.Selector.Entries
import CssLint.Selector.Nesting
import CssLint.Selector.Standard
import CssLint.Sheet.Basic
import CssLint.Sheet.Item
import CssLint.Sheet.Notice
import CssLint.Sheet.Piece
import CssLint.Sheet.Reader
import CssLint.Rule.Effective
import CssLint.Config.Basic
import CssLint.Linter
import CssLint.Report.Layout
import CssLint.CommandLine.Options
import CssLint.CommandLine.Run
import CssLint.Main
import CssLint.Proofs.Text.Trim
import CssLint.Proofs.Selector.ReadBack
import CssLint.Proofs.JoinedTexts
import CssLint.Proofs.FlatSheets
import CssLint.Proofs.NestedSheets
import CssLint.Proofs.EnclosingRules
import CssLint.Proofs.Selector.Shape
import CssLint.Proofs.Selector.Tiling
import CssLint.Proofs.WrittenSheets
import CssLint.Proofs.Token.Tiles
import CssLint.Proofs.SourceTree
import CssLint.Proofs.Rule.Isolation
import CssLint.Proofs.EnclosedTexts
import CssLint.Proofs.Selector.Splitting
import CssLint.Proofs.Selector.Joined
import CssLint.Proofs.CarriageReturns
import CssLint.Proofs.UnmeasuredRules
import CssLint.Proofs.ExitStatus
import CssLint.Proofs.Selector.Composed
import CssLint.Proofs.CommentedRules
import CssLint.Proofs.Selector.QuotedValues
import CssLint.Proofs.Sheet.Lookahead
import CssLint.Proofs.TrimmedPreludes
import CssLint.Proofs.Text.Lines
import CssLint.Proofs.Selector.Substitution
import CssLint.Proofs.Rule.Traversal
import CssLint.Proofs.EntryWarnings
import CssLint.Proofs.Text.InsideCharacters
import CssLint.Proofs.Token.SlicedTokens
import CssLint.Proofs.Selector.SharedNames
import CssLint.Proofs.Config.Faults
import CssLint.Proofs.Sheet.RepeatedNotices
import CssLint.Proofs.Sheet.Walk
import CssLint.Proofs.ResolutionCounts
import CssLint.Proofs.Selector.Parts
import CssLint.Proofs.Token.HexEscapes
