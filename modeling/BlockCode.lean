import BlockCode.Text.Alphabetic
import BlockCode.Text.Blank
import BlockCode.Text.Listing
import BlockCode.Text.Uppercase
import BlockCode.Number.Binary64
import BlockCode.Number.Shortest
import BlockCode.Token.Basic
import BlockCode.Token.Lexer
import BlockCode.Expr.Basic
import BlockCode.Expr.Error
import BlockCode.Expr.Literal
import BlockCode.Expr.Parser
import BlockCode.Fragment.Brackets
import BlockCode.Fragment.Glyphs
import BlockCode.Fragment.Negation
import BlockCode.Fragment.Prepare
import BlockCode.Json.Basic
import BlockCode.Json.Reader
import BlockCode.Program.Block
import BlockCode.Program.Drag
import BlockCode.Program.Saved
import BlockCode.Program.Shape
import BlockCode.Check.Constant
import BlockCode.Check.Expression
import BlockCode.Check.Validate
import BlockCode.Command.Arguments
import BlockCode.Command.Files
import BlockCode.Command.Run
import BlockCode.Form.Basic
import BlockCode.Form.Error
import BlockCode.Form.Operand
import BlockCode.Form.Slots
import BlockCode.Main
import BlockCode.Target.Cache
import BlockCode.Proofs.Expr.Grammar
import BlockCode.Proofs.Expr.Soundness
import BlockCode.Proofs.Expr.Completeness
import BlockCode.Proofs.Program.Outline
import BlockCode.Proofs.Program.Rebuild
import BlockCode.Proofs.Program.Graft
import BlockCode.Proofs.Program.Visible
import BlockCode.Proofs.Program.Drag
import BlockCode.Proofs.Check.Chain
import BlockCode.Proofs.Check.Surroundings
import BlockCode.Proofs.Check.Structure
import BlockCode.Proofs.Expr.Lexemes
import BlockCode.Proofs.Names.CodePoints
import BlockCode.Proofs.Check.Slots
import BlockCode.Proofs.Target.Steps
import BlockCode.Proofs.Target.Actions
import BlockCode.Proofs.Target.Openers
import BlockCode.Proofs.Target.Rendering
import BlockCode.Proofs.Target.Layout
import BlockCode.Proofs.Target.SingleLines
import BlockCode.Proofs.Target.Nesting
import BlockCode.Proofs.Target.LineEnds
import BlockCode.Proofs.Target.PythonLines
import BlockCode.Proofs.Target.Indentation
import BlockCode.Proofs.Program.WellFormed
import BlockCode.Proofs.Program.Forest
import BlockCode.Proofs.Program.Recovery
import BlockCode.Proofs.Check.Shape
import BlockCode.Proofs.Target.Shape
import BlockCode.Proofs.Target.Cache
import BlockCode.Proofs.Target.Fitting
import BlockCode.Proofs.Target.Spelled
import BlockCode.Proofs.Expr.Meaning
import BlockCode.Proofs.Expr.Written
import BlockCode.Proofs.Expr.Commas
import BlockCode.Proofs.Check.Calls
import BlockCode.Proofs.Target.ReadingBack
import BlockCode.Proofs.Target.VbaReader
import BlockCode.Proofs.Target.VbaMeaning
import BlockCode.Proofs.Json.Reading
import BlockCode.Proofs.Program.Saved
import BlockCode.Proofs.Expr.Width
import BlockCode.Proofs.Check.Constants
import BlockCode.Proofs.Target.VbaAscii
import BlockCode.Proofs.Target.AsciiNames
import BlockCode.Proofs.Program.Edits
import BlockCode.Proofs.Target.Sources
import BlockCode.Proofs.Target.OneLine
import BlockCode.Proofs.Target.PhysicalLines
import BlockCode.Proofs.Names.Reserved
import BlockCode.Proofs.Target.Capture
import BlockCode.Proofs.Expr.Apart
import BlockCode.Proofs.Expr.UserCalls
import BlockCode.Proofs.Form.Entered
import BlockCode.Proofs.Form.Pieces
import BlockCode.Proofs.Form.Targets
import BlockCode.Proofs.Form.Calls
import BlockCode.Proofs.Form.Acceptance
import BlockCode.Proofs.Program.Insertion
import BlockCode.Proofs.Command.EveryTarget
import BlockCode.Proofs.Program.Landing
import BlockCode.Proofs.Program.Moving
import BlockCode.Proofs.Program.Hiding
import BlockCode.Proofs.Program.DropInPlace
import BlockCode.Proofs.Program.Repair
import BlockCode.Proofs.Check.Closing
import BlockCode.Proofs.Fragment.Quotes
import BlockCode.Proofs.Fragment.Folding
import BlockCode.Proofs.Fragment.Balance
import BlockCode.Proofs.Fragment.Negations
import BlockCode.Proofs.Fragment.Stability
import BlockCode.Proofs.Fragment.Typing
import BlockCode.Proofs.Check.Brackets
import BlockCode.Proofs.Expr.Operands
import BlockCode.Proofs.Form.Strings
import BlockCode.Proofs.Fragment.Trailing
import BlockCode.Proofs.Fragment.Joining
import BlockCode.Proofs.Program.Content
import BlockCode.Proofs.Names.Resolving
import BlockCode.Proofs.Target.Counting
import BlockCode.Proofs.Target.Literals
import BlockCode.Proofs.Expr.Slices
import BlockCode.Proofs.Expr.Spans
import BlockCode.Proofs.Target.Passages
import BlockCode.Proofs.Target.RandomImport
import BlockCode.Proofs.Target.Numerals
import BlockCode.Proofs.Target.PrintedNumerals
import BlockCode.Proofs.Target.NumberLines
import BlockCode.Proofs.Target.ShownNumbers
import BlockCode.Proofs.Form.Elements
import BlockCode.Proofs.Expr.Lossless
