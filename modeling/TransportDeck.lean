import TransportDeck.CommandLine
import TransportDeck.Decimal.Exact
import TransportDeck.Decimal.Read
import TransportDeck.Deck.Basic
import TransportDeck.Deck.DeckError
import TransportDeck.Deck.Processing
import TransportDeck.Deck.Rejection
import TransportDeck.Deck.Summary
import TransportDeck.Diagnostics.Buffer
import TransportDeck.Diagnostics.Code
import TransportDeck.Diagnostics.Collector
import TransportDeck.Diagnostics.Event
import TransportDeck.Diagnostics.FileContext
import TransportDeck.Diagnostics.Warning
import TransportDeck.Files.Bytes
import TransportDeck.Files.Path
import TransportDeck.Files.Store
import TransportDeck.Grammar.Atoms
import TransportDeck.Grammar.Basic
import TransportDeck.Grammar.Geometry
import TransportDeck.Grammar.Lists
import TransportDeck.Grammar.Production
import TransportDeck.Grammar.Records
import TransportDeck.Grammar.SyntaxError
import TransportDeck.Input.Card
import TransportDeck.Input.Line
import TransportDeck.Input.ReadError
import TransportDeck.Input.Reader
import TransportDeck.Input.Version
import TransportDeck.Limits
import TransportDeck.Main
import TransportDeck.Node.Classifier
import TransportDeck.Node.Field
import TransportDeck.Node.FieldList
import TransportDeck.Node.Geometry
import TransportDeck.Node.Layout
import TransportDeck.Node.Nuclides
import TransportDeck.Node.NumberStyle
import TransportDeck.Node.Parameters
import TransportDeck.Node.Reconcile
import TransportDeck.Node.Rendered
import TransportDeck.Node.Shorthand
import TransportDeck.Node.Value
import TransportDeck.Number.Literal
import TransportDeck.Number.Render
import TransportDeck.Number.Tolerance
import TransportDeck.Output.Wrap
import TransportDeck.Output.Writer
import TransportDeck.Preferences
import TransportDeck.Record.Basic
import TransportDeck.Record.Cell
import TransportDeck.Record.Data
import TransportDeck.Record.Surface
import TransportDeck.Region.Algebra
import TransportDeck.Region.Basic
import TransportDeck.Region.Written
import TransportDeck.Source.Excerpt
import TransportDeck.Source.Position
import TransportDeck.Text.Blank
import TransportDeck.Text.Escape
import TransportDeck.Text.Json
import TransportDeck.Text.Printable
import TransportDeck.Token.Basic
import TransportDeck.Token.Kind
import TransportDeck.Token.Lexer
import TransportDeck.Token.Stream
import TransportDeck.Vocabulary
import TransportDeck.Proofs.Number.Comparison
import TransportDeck.Proofs.Reconcile.Conservation
import TransportDeck.Proofs.Reconcile.LegalRuns
import TransportDeck.Proofs.Reconcile.NewList
import TransportDeck.Proofs.Grammar.Reading
import TransportDeck.Proofs.Node.Source
import TransportDeck.Proofs.Node.GeometryTree
import TransportDeck.Proofs.Node.Echo
import TransportDeck.Proofs.Node.Runs
import TransportDeck.Proofs.Grammar.Atoms
import TransportDeck.Proofs.Grammar.Lists
import TransportDeck.Proofs.Grammar.Geometry
import TransportDeck.Proofs.Grammar.Settling
import TransportDeck.Proofs.Record.Source
import TransportDeck.Proofs.Grammar.Records
import TransportDeck.Proofs.Region.Algebra
import TransportDeck.Proofs.Region.Grafting
import TransportDeck.Proofs.Region.Reading
import TransportDeck.Proofs.Region.Writing
import TransportDeck.Proofs.Region.Emission
import TransportDeck.Proofs.Region.RoundTrip
import TransportDeck.Proofs.Deck.Reread
import TransportDeck.Proofs.Grammar.Parsing
import TransportDeck.Proofs.Number.Integers
import TransportDeck.Proofs.Region.Printing
import TransportDeck.Proofs.Region.Reparse
import TransportDeck.Proofs.Token.Partition
import TransportDeck.Proofs.Region.Origins
import TransportDeck.Proofs.Region.Sessions
import TransportDeck.Proofs.Number.Rounding
import TransportDeck.Proofs.Number.IntegerText
import TransportDeck.Proofs.Output.Width
import TransportDeck.Proofs.Deck.Comments
import TransportDeck.Proofs.Deck.LineStarts
import TransportDeck.Proofs.Deck.Replacement
import TransportDeck.Proofs.Deck.SoleRecords
import TransportDeck.Proofs.Grammar.CellReading
import TransportDeck.Proofs.Grammar.KeywordParameters
import TransportDeck.Proofs.Node.Additions
import TransportDeck.Proofs.Token.LongerTexts
import TransportDeck.Proofs.Deck.Policies
import TransportDeck.Proofs.Deck.Removal
import TransportDeck.Proofs.Grammar.OwnLists
import TransportDeck.Proofs.Record.EditedLists
import TransportDeck.Proofs.Record.Insertion
import TransportDeck.Proofs.Region.Operations
import TransportDeck.Proofs.Region.Arena
import TransportDeck.Proofs.Region.Scratch
import TransportDeck.Proofs.Region.Showing
import TransportDeck.Proofs.Region.Untouched
import TransportDeck.Proofs.Region.ChainEnds
import TransportDeck.Proofs.Region.NarrowedTrees
import TransportDeck.Proofs.Region.Numerals
import TransportDeck.Proofs.Region.NarrowedPhrases
import TransportDeck.Proofs.Region.NarrowedTexts
import TransportDeck.Proofs.Record.Narrowing
import TransportDeck.Proofs.Region.Comparing
import TransportDeck.Proofs.Grammar.Expressions
import TransportDeck.Proofs.Grammar.Nesting
import TransportDeck.Proofs.Grammar.WrittenItems
import TransportDeck.Proofs.Grammar.Expansion
import TransportDeck.Proofs.Input.Placement
import TransportDeck.Proofs.Output.Stability
import TransportDeck.Proofs.Node.EditedNumbers
import TransportDeck.Proofs.Output.Folding
import TransportDeck.Proofs.Token.Numerals
import TransportDeck.Proofs.Input.Targets
import TransportDeck.Proofs.Record.LetterCase
import TransportDeck.Proofs.Node.ParameterIndex
import TransportDeck.Proofs.Record.Lookup
import TransportDeck.Proofs.Grammar.Comments
import TransportDeck.Proofs.Record.Marks
import TransportDeck.Proofs.Input.CommentLines
import TransportDeck.Proofs.Record.ParticleLists
import TransportDeck.Proofs.Deck.Rejections
import TransportDeck.Proofs.Grammar.KnownRuns
import TransportDeck.Proofs.Grammar.MaterialReading
import TransportDeck.Proofs.Token.Nuclides
import TransportDeck.Proofs.Record.NuclideInsertion
