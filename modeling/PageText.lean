import PageText.Byte
import PageText.Text.Utf8
import PageText.Text.Utf16
import PageText.Number.Binary32
import PageText.Number.Numeral
import PageText.Error
import PageText.Object
import PageText.Object.Resolve
import PageText.Spelling.Name
import PageText.Spelling.Literal
import PageText.Spelling.Hex
import PageText.Token
import PageText.Operand
import PageText.Operation
import PageText.Number.Scientific
import PageText.Filter
import PageText.Filter.Zlib
import PageText.Geometry.Matrix
import PageText.Font.Encoding
import PageText.Font.GlyphName
import PageText.Text.Search
import PageText.Font.ToUnicode
import PageText.Font
import PageText.Graphics.Stack
import PageText.Operator
import PageText.Resources
import PageText.Resources.Load
import PageText.Document
import PageText.Document.Text
import PageText.Interpreter.Event
import PageText.Interpreter.Instruction
import PageText.Interpreter.Run
import PageText.Interpreter.Processor
import PageText.Extract.Options
import PageText.Extract.PlainText
import PageText.Extract.MarkedText
import PageText.CommandLine
import PageText.Main
import PageText.Proofs.Utf8
import PageText.Proofs.Spelling
import PageText.Proofs.Numeral
import PageText.Proofs.Lexeme
import PageText.Proofs.Writing
import PageText.Proofs.Instruction
import PageText.Proofs.Run
import PageText.Proofs.Limits
import PageText.Proofs.Binary32
import PageText.Proofs.Inlining
import PageText.Proofs.Shown
import PageText.Proofs.Derived
import PageText.Proofs.Failure
import PageText.Proofs.Scoping
import PageText.Proofs.Reload
import PageText.Proofs.Sharing
import PageText.Proofs.TextObject
import PageText.Proofs.History
import PageText.Proofs.Layout
import PageText.Proofs.Replacement
import PageText.Proofs.Search
import PageText.Proofs.Utf16
import PageText.Proofs.CharacterMap
import PageText.Proofs.TokenSequence
import PageText.Proofs.Position
import PageText.Proofs.Progress
import PageText.Proofs.MarkedContent
import PageText.Proofs.Artifact
import PageText.Proofs.Assembly
import PageText.Proofs.Separator
import PageText.Proofs.Sections
import PageText.Proofs.WordBreak
import PageText.Proofs.Matching
import PageText.Proofs.LiteralSpelling
import PageText.Proofs.InlineImage
import PageText.Proofs.StrayByte
import PageText.Proofs.HexFilter
import PageText.Proofs.TwoByteCodes
import PageText.Proofs.RangeArray
import PageText.Proofs.Double
import PageText.Proofs.Nearest
import PageText.Proofs.Decimal
import PageText.Proofs.Word
import PageText.Proofs.WidthArray
import PageText.Proofs.Differences
import PageText.Proofs.SpaceWidth
import PageText.Proofs.NameEscape
import PageText.Proofs.Links
import PageText.Proofs.GlyphName
import PageText.Proofs.StandIn
import PageText.Proofs.WordEdge
import PageText.Proofs.Readable
import PageText.Proofs.Nesting
import PageText.Proofs.WellFormed
