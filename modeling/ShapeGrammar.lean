import ShapeGrammar.Command.Arguments
import ShapeGrammar.Command.Folder
import ShapeGrammar.Command.Path
import ShapeGrammar.Command.Report
import ShapeGrammar.Command.Run
import ShapeGrammar.Derivation.Basic
import ShapeGrammar.Derivation.Expansion
import ShapeGrammar.Derivation.Queue
import ShapeGrammar.Derivation.Source
import ShapeGrammar.Derivation.Tree
import ShapeGrammar.Distance.Envelope
import ShapeGrammar.Distance.Field
import ShapeGrammar.Distance.Score
import ShapeGrammar.Expr.Basic
import ShapeGrammar.Expr.Param
import ShapeGrammar.Expr.Parser
import ShapeGrammar.Expr.Token
import ShapeGrammar.Geometry.Matrix
import ShapeGrammar.Geometry.Vector
import ShapeGrammar.Grammar.ActionSpace
import ShapeGrammar.Grammar.Attribute
import ShapeGrammar.Grammar.Basic
import ShapeGrammar.Grammar.Error
import ShapeGrammar.Grammar.Source
import ShapeGrammar.Grammar.Validity
import ShapeGrammar.Image.Basic
import ShapeGrammar.Image.Camera
import ShapeGrammar.Image.Drawing
import ShapeGrammar.Image.Raster
import ShapeGrammar.Image.Resample
import ShapeGrammar.Json.Decode
import ShapeGrammar.Json.Printer
import ShapeGrammar.Json.Reader
import ShapeGrammar.Json.Rounding
import ShapeGrammar.Json.Value
import ShapeGrammar.Main
import ShapeGrammar.Number.Binary
import ShapeGrammar.Number.Machine
import ShapeGrammar.Number.Scalar
import ShapeGrammar.Number.Shortest
import ShapeGrammar.Number.Text
import ShapeGrammar.Operator.Apply
import ShapeGrammar.Operator.Basic
import ShapeGrammar.Operator.Emission
import ShapeGrammar.Operator.Split
import ShapeGrammar.Png.Checksum
import ShapeGrammar.Png.Decoder
import ShapeGrammar.Png.Encoder
import ShapeGrammar.Png.Inflate
import ShapeGrammar.Proofs.Derivation.BreadthFirst
import ShapeGrammar.Proofs.Derivation.Budget
import ShapeGrammar.Proofs.Derivation.Call
import ShapeGrammar.Proofs.Derivation.Canonical
import ShapeGrammar.Proofs.Derivation.Clipping
import ShapeGrammar.Proofs.Derivation.Commitment
import ShapeGrammar.Proofs.Derivation.Faults
import ShapeGrammar.Proofs.Derivation.Following
import ShapeGrammar.Proofs.Derivation.Guided
import ShapeGrammar.Proofs.Derivation.Kept
import ShapeGrammar.Proofs.Derivation.Lockstep
import ShapeGrammar.Proofs.Derivation.Reading
import ShapeGrammar.Proofs.Derivation.Rederivation
import ShapeGrammar.Proofs.Derivation.Sizes
import ShapeGrammar.Proofs.Derivation.Stages
import ShapeGrammar.Proofs.Derivation.Truncation
import ShapeGrammar.Proofs.Derivation.WellFormed
import ShapeGrammar.Proofs.Distance.Buffers
import ShapeGrammar.Proofs.Distance.Envelope
import ShapeGrammar.Proofs.Distance.Field
import ShapeGrammar.Proofs.Distance.Score
import ShapeGrammar.Proofs.Expr.Blanks
import ShapeGrammar.Proofs.Expr.Height
import ShapeGrammar.Proofs.Expr.Lexical
import ShapeGrammar.Proofs.Expr.Literal
import ShapeGrammar.Proofs.Expr.Naming
import ShapeGrammar.Proofs.Expr.Notation
import ShapeGrammar.Proofs.Grammar.Choices
import ShapeGrammar.Proofs.Grammar.Decision
import ShapeGrammar.Proofs.Grammar.Digits
import ShapeGrammar.Proofs.Grammar.Levels
import ShapeGrammar.Proofs.Grammar.Redrawing
import ShapeGrammar.Proofs.Grammar.Source
import ShapeGrammar.Proofs.Grammar.Validity
import ShapeGrammar.Proofs.Image.Addressing
import ShapeGrammar.Proofs.Image.Visibility
import ShapeGrammar.Proofs.Json.Decode
import ShapeGrammar.Proofs.Json.Document
import ShapeGrammar.Proofs.Json.Leaf
import ShapeGrammar.Proofs.Json.Number
import ShapeGrammar.Proofs.Json.Rounding
import ShapeGrammar.Proofs.Number.Arithmetic
import ShapeGrammar.Proofs.Number.Bits
import ShapeGrammar.Proofs.Number.Comparison
import ShapeGrammar.Proofs.Number.Evaluable
import ShapeGrammar.Proofs.Number.Exact
import ShapeGrammar.Proofs.Number.Nearest
import ShapeGrammar.Proofs.Number.Operations
import ShapeGrammar.Proofs.Number.Real
import ShapeGrammar.Proofs.Number.Rounding
import ShapeGrammar.Proofs.Number.Separation
import ShapeGrammar.Proofs.Number.Shortest
import ShapeGrammar.Proofs.Operator.Emission
import ShapeGrammar.Proofs.Operator.Partition
import ShapeGrammar.Proofs.Operator.Source
import ShapeGrammar.Proofs.Random.Below
import ShapeGrammar.Proofs.Random.Evenness
import ShapeGrammar.Proofs.Random.Interval
import ShapeGrammar.Proofs.Random.Mixing
import ShapeGrammar.Proofs.Random.Seeds
import ShapeGrammar.Proofs.Search.Balance
import ShapeGrammar.Proofs.Search.Choice
import ShapeGrammar.Proofs.Search.Commitment
import ShapeGrammar.Proofs.Search.Counts
import ShapeGrammar.Proofs.Search.Decided
import ShapeGrammar.Proofs.Search.Exchange
import ShapeGrammar.Proofs.Search.Guided
import ShapeGrammar.Proofs.Search.Pool
import ShapeGrammar.Proofs.Search.Report
import ShapeGrammar.Proofs.Search.Rounds
import ShapeGrammar.Proofs.Search.Searched
import ShapeGrammar.Proofs.Search.Select
import ShapeGrammar.Proofs.Search.Settled
import ShapeGrammar.Proofs.Search.Shuffle
import ShapeGrammar.Proofs.Search.Statistics
import ShapeGrammar.Proofs.Search.Tree
import ShapeGrammar.Proofs.Shape.Box
import ShapeGrammar.Proofs.Shape.Faces
import ShapeGrammar.Random.Generator
import ShapeGrammar.Search.Acceptance
import ShapeGrammar.Search.Config
import ShapeGrammar.Search.ConfigSource
import ShapeGrammar.Search.Evaluator
import ShapeGrammar.Search.Exchange
import ShapeGrammar.Search.Guided
import ShapeGrammar.Search.Pool
import ShapeGrammar.Search.Proposal
import ShapeGrammar.Search.RunningStats
import ShapeGrammar.Search.Session
import ShapeGrammar.Search.Tree
import ShapeGrammar.Shape.Basic
import ShapeGrammar.Shape.Faces
import ShapeGrammar.Table
import ShapeGrammar.Text.CharClass
import ShapeGrammar.Text.CharTables
