import Stencil.Search
import Stencil.Text.Basic
import Stencil.Text.Blank
import Stencil.Text.Fold
import Stencil.Text.Split
import Stencil.Text.Escape
import Stencil.Text.Offset
import Stencil.Text.Case
import Stencil.Numeral.Integer
import Stencil.Numeral.Double
import Stencil.Text.Utf8
import Stencil.Condition.Comparison
import Stencil.Condition.Token
import Stencil.Condition.Basic
import Stencil.Condition.Parse
import Stencil.Document.Fragment
import Stencil.Document.Basic
import Stencil.Document.Name
import Stencil.Keyword
import Stencil.Bracket
import Stencil.CallSite
import Stencil.Worklist
import Stencil.Block
import Stencil.Text.Order
import Stencil.Table
import Stencil.State
import Stencil.Artifacts
import Stencil.Function
import Stencil.Registry
import Stencil.Library.Argument
import Stencil.Library.Variables
import Stencil.Library.Chance
import Stencil.Library.Texts
import Stencil.Library.Artifacts
import Stencil.Library
import Stencil.Evaluation.Error
import Stencil.Evaluation.Session
import Stencil.Evaluation.Basic
import Stencil.Delivery
import Stencil.Config
import Stencil.CommandLine
import Stencil.FileTree
import Stencil.Program
import Stencil.Main
import Stencil.Proofs.Span
import Stencil.Proofs.Bracket
import Stencil.Proofs.Balanced
import Stencil.Proofs.Keyword
import Stencil.Proofs.Inside
import Stencil.Proofs.CallSite
import Stencil.Proofs.Block
import Stencil.Proofs.Spelling
import Stencil.Proofs.Extraction
import Stencil.Proofs.Step
import Stencil.Proofs.Worklist
import Stencil.Proofs.Run
import Stencil.Proofs.Growth
import Stencil.Proofs.Escape
import Stencil.Proofs.Work
import Stencil.Proofs.Outcome
import Stencil.Proofs.Bounds
import Stencil.Proofs.Inert
import Stencil.Proofs.Markers
import Stencil.Proofs.Place
import Stencil.Proofs.Branches
import Stencil.Proofs.Grammar
import Stencil.Proofs.Token
import Stencil.Proofs.WellFormed
import Stencil.Proofs.Nesting
import Stencil.Proofs.Once
import Stencil.Proofs.Content
import Stencil.Proofs.Shown
import Stencil.Proofs.Legible
import Stencil.Proofs.Called
import Stencil.Proofs.Reading
import Stencil.Proofs.Order
import Stencil.Proofs.Unescape
import Stencil.Proofs.Arguments
import Stencil.Proofs.Draft
import Stencil.Proofs.Meaning
import Stencil.Proofs.Selection
import Stencil.Proofs.Closed
import Stencil.Proofs.Lines
import Stencil.Proofs.Limits
import Stencil.Proofs.Offset
import Stencil.Proofs.Ranges
import Stencil.Proofs.Tagged
import Stencil.Proofs.Scan
import Stencil.Proofs.Longest
import Stencil.Proofs.Composition
import Stencil.Proofs.Rendered
import Stencil.Proofs.Intact
import Stencil.Proofs.Sequence
import Stencil.Proofs.Success
import Stencil.Proofs.Answer
import Stencil.Proofs.Artifacts
import Stencil.Proofs.Separator
import Stencil.Proofs.Derivation
import Stencil.Proofs.Reader
import Stencil.Proofs.Comparison
import Stencil.Proofs.Calling
import Stencil.Proofs.Compared
import Stencil.Proofs.Formula
import Stencil.Proofs.Alike
import Stencil.Proofs.Checked
import Stencil.Proofs.Tiling
import Stencil.Proofs.Retrieval
import Stencil.Proofs.Strictness
import Stencil.Proofs.Agreement
import Stencil.Proofs.ByteRun
import Stencil.Proofs.ExchangedText
import Stencil.Proofs.Slots
import Stencil.Proofs.Occurrence
import Stencil.Proofs.Delivery
import Stencil.Proofs.Settings
import Stencil.Proofs.Exit
import Stencil.Proofs.Pairing
import Stencil.Proofs.Flat
import Stencil.Proofs.Joined
import Stencil.Proofs.Unmarked
import Stencil.Proofs.Candidates
import Stencil.Proofs.SlicedCondition
import Stencil.Proofs.PartialCall
import Stencil.Proofs.Frame
import Stencil.Proofs.Integer
import Stencil.Proofs.Pieces
import Stencil.Proofs.Quoted
import Stencil.Proofs.Request
