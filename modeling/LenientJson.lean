import LenientJson.Command.World
import LenientJson.Items
import LenientJson.Main
import LenientJson.Path
import LenientJson.Stream
import LenientJson.Proofs.Number.Rounding
import LenientJson.Proofs.Number.ShortestDecimal
import LenientJson.Proofs.Number.PlainText
import LenientJson.Proofs.Words
import LenientJson.Proofs.Scan.Balance
import LenientJson.Proofs.Reading.Outcome
import LenientJson.Proofs.Reading.Pieces
import LenientJson.Proofs.Reading.Outlines
import LenientJson.Proofs.Values.Nesting
import LenientJson.Proofs.Reading.Levels
import LenientJson.Proofs.DepthLimit
import LenientJson.Proofs.Scan.Quotes
import LenientJson.Proofs.ScanModes
import LenientJson.Proofs.Values.Normal
import LenientJson.Proofs.Values.Reordering
import LenientJson.Proofs.Reading.Written
import LenientJson.Proofs.Reading.WireForm
import LenientJson.Proofs.RoundTrip
import LenientJson.Proofs.Values.Canonical
import LenientJson.Proofs.Reading.Canonical
import LenientJson.Proofs.Rewriting
import LenientJson.Proofs.Reading.Framed
import LenientJson.Proofs.SelfDelimiting
import LenientJson.Proofs.Reading.Places
import LenientJson.Proofs.Reading.Braces
import LenientJson.Proofs.Composition
import LenientJson.Proofs.ObjectStreams
import LenientJson.Proofs.ParsedValues
import LenientJson.Proofs.FreshMerge
import LenientJson.Proofs.Reading.Positions
import LenientJson.Proofs.ErrorLocations
import LenientJson.Proofs.Values.Trees
import LenientJson.Proofs.Reading.Layouts
import LenientJson.Proofs.LayoutFreedom
import LenientJson.Offsets.Checked
import LenientJson.Offsets.Cursor
import LenientJson.Offsets.Escape
import LenientJson.Offsets.Parser
import LenientJson.Proofs.Offsets.Access
import LenientJson.Proofs.Offsets.Cursors
import LenientJson.Proofs.Offsets.Scans
import LenientJson.Proofs.Offsets.Escaping
import LenientJson.Proofs.Offsets.Takes
import LenientJson.Proofs.Offsets.Items
import LenientJson.Proofs.Offsets.Documents
import LenientJson.Proofs.OffsetSafety
import LenientJson.Proofs.Values.Lookup
import LenientJson.Proofs.Values.Positions
import LenientJson.Proofs.Folding
import LenientJson.Proofs.NestedArrays
import LenientJson.Proofs.AtomicMerge
import LenientJson.Proofs.StandardJson
import LenientJson.Proofs.EscapedForm
import LenientJson.Proofs.Words.Patterns
import LenientJson.Proofs.NameWords
import LenientJson.Proofs.Number.Nearest
import LenientJson.Proofs.Words.Denotations
import LenientJson.Proofs.NumberWords
import LenientJson.Number.Expansion
import LenientJson.Proofs.Number.Trimming
import LenientJson.Proofs.Number.Placing
import LenientJson.Proofs.Number.RawTexts
import LenientJson.Proofs.Number.Spelling
import LenientJson.Proofs.PlainDoubles
import LenientJson.Proofs.LinesAndColumns
import LenientJson.Proofs.Offsets.ByteOrder
import LenientJson.Proofs.Rows
import LenientJson.Proofs.FiniteMaps
import LenientJson.Proofs.WordTexts
import LenientJson.Proofs.Offsets.BalancePoints
import LenientJson.Proofs.OpaqueLiterals
import LenientJson.Proofs.Offsets.Progress
import LenientJson.Proofs.Offsets.Calls
import LenientJson.Proofs.Termination
import LenientJson.Proofs.MatchingBrackets
import LenientJson.Proofs.Command.Spelling
import LenientJson.Proofs.Command.Selection
import LenientJson.Proofs.AllOrNothing
