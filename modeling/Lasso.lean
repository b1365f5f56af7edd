import Lasso.Text.Blank
import Lasso.Text.Utf8
import Lasso.Text.Numeral
import Lasso.Source.Span
import Lasso.Source.Basic
import Lasso.Source.SpanMap
import Lasso.SExpr.Basic
import Lasso.SExpr.Token
import Lasso.SExpr.Reader
import Lasso.SExpr.Interpreter
import Lasso.Formula.Operator
import Lasso.Formula.Basic
import Lasso.Formula.NormalForm
import Lasso.Formula.Table
import Lasso.Formula.Reader
import Lasso.Graph.Literal
import Lasso.Graph.Basic
import Lasso.Graph.Reach
import Lasso.Graph.Render
import Lasso.Graph.Clauses
import Lasso.Sat.Entailed
import Lasso.Sat.Exhaustive
import Lasso.Sat.Queue
import Lasso.Sat.Search
import Lasso.Sat.Conflict
import Lasso.Sat.Strategy
import Lasso.Sat.Solver
import Lasso.Sat.Session
import Lasso.Machine.Encoding
import Lasso.Machine.Timing
import Lasso.Machine.Condition
import Lasso.Machine.Basic
import Lasso.Machine.Reader
import Lasso.Bounded.Loop
import Lasso.Bounded.Cache
import Lasso.Bounded.Encoder
import Lasso.Bounded.Straight
import Lasso.Bounded.Looping
import Lasso.Bounded.Semantics
import Lasso.Bounded.Trace
import Lasso.Bounded.Checker
import Lasso.Bounded.Induction
import Lasso.Terminal.Escape
import Lasso.Terminal.Grid
import Lasso.Report.TraceTable
import Lasso.Report.Check
import Lasso.Report.Selection
import Lasso.Number.Binary
import Lasso.Number.Decimal
import Lasso.Settings.Duration
import Lasso.Settings.Value
import Lasso.Settings.File
import Lasso.Settings.Basic
import Lasso.Command.Script
import Lasso.Settings.Load
import Lasso.Command.Flag
import Lasso.Command.Basic
import Lasso.Command.Run
import Lasso.Main
import Lasso.Yaml.Cursor
import Lasso.Yaml.Scalar
import Lasso.Yaml.Scanner
import Lasso.Yaml.Node
import Lasso.Settings.Date
import Lasso.Settings.Scalar
import Lasso.Proofs.Graph.Construction
import Lasso.Proofs.Graph.Satisfaction
import Lasso.Proofs.Graph.Dimacs
import Lasso.Proofs.Machine.Encoding
import Lasso.Proofs.Machine.Allocation
import Lasso.Proofs.Machine.Timing
import Lasso.Proofs.Machine.NextForm
import Lasso.Proofs.Machine.Condition
import Lasso.Proofs.Machine.Conversion
import Lasso.Proofs.Machine.Path
import Lasso.Proofs.Machine.Reader
import Lasso.Proofs.Machine.ModelFile
import Lasso.Proofs.Formula.Fragment
import Lasso.Proofs.Formula.LoopingWord
import Lasso.Proofs.Formula.EarlyJudgement
import Lasso.Proofs.Bounded.Value
import Lasso.Proofs.Bounded.Encoder
import Lasso.Proofs.Bounded.Construction
import Lasso.Proofs.Bounded.Looping
import Lasso.Proofs.Bounded.Straight
import Lasso.Proofs.Bounded.Fairness
import Lasso.Proofs.Bounded.Semantics
import Lasso.Proofs.Bounded.LoopingWord
import Lasso.Proofs.Bounded.Induction
import Lasso.Proofs.Bounded.LoopingPath
import Lasso.Proofs.Bounded.Locality
import Lasso.Proofs.Bounded.Witness
import Lasso.Proofs.Bounded.Checker
import Lasso.Proofs.Bounded.Incremental
import Lasso.Proofs.Machine.Run
import Lasso.Proofs.Bounded.Replay
import Lasso.Proofs.Bounded.History
import Lasso.Proofs.Bounded.LoopEncoding
import Lasso.Proofs.Bounded.InductionSoundness
import Lasso.Proofs.Bounded.SingleLoop
import Lasso.Proofs.Formula.NormalForm
import Lasso.Proofs.Bounded.ShortestCounterexample
import Lasso.Proofs.Bounded.Counter
import Lasso.Proofs.Bounded.InductionCompleteness
import Lasso.Proofs.Bounded.StraightPath
import Lasso.Proofs.Machine.Rejection
import Lasso.Proofs.Bounded.Failure
import Lasso.Proofs.Bounded.IncrementalAgreement
import Lasso.Proofs.Bounded.Rejection
import Lasso.Proofs.Bounded.Memory
import Lasso.Proofs.Bounded.Mirror
import Lasso.Proofs.Bounded.Recursion
import Lasso.Proofs.Bounded.HistoryIndependence
import Lasso.Proofs.SExpr.Token
import Lasso.Proofs.SExpr.Reader
import Lasso.Proofs.SExpr.Printing
import Lasso.Proofs.SExpr.Slice
import Lasso.Proofs.Formula.Table
import Lasso.Proofs.Formula.Reading
import Lasso.Proofs.Formula.Printing
import Lasso.Proofs.Formula.Interpretation
import Lasso.Proofs.Formula.Calls
import Lasso.Proofs.Formula.Nodes
import Lasso.Proofs.Formula.NodeNormalForm
import Lasso.Proofs.Formula.NodeReading
import Lasso.Proofs.Formula.Interning
import Lasso.Proofs.Formula.Reparsing
import Lasso.Proofs.Formula.Mistake
import Lasso.Proofs.Machine.Image
import Lasso.Proofs.Machine.Ledger
import Lasso.Proofs.Bounded.SimpleInduction
import Lasso.Proofs.Bounded.LoopAgreement
import Lasso.Proofs.Machine.Naming
import Lasso.Proofs.Bounded.Blame
import Lasso.Proofs.Bounded.Translation
import Lasso.Proofs.Graph.Cone
import Lasso.Proofs.Machine.Forms
import Lasso.Proofs.Bounded.Compatible
import Lasso.Proofs.Bounded.Horizon
import Lasso.Proofs.SExpr.Occurrence
import Lasso.Proofs.Machine.Reading
import Lasso.Proofs.Machine.Accepted
import Lasso.Proofs.Bounded.Comments
import Lasso.Proofs.SExpr.Identity
import Lasso.Proofs.Formula.Access
import Lasso.Proofs.Machine.Access
import Lasso.Proofs.Machine.Safety
import Lasso.Proofs.SExpr.Extent
import Lasso.Proofs.Formula.Renormalisation
import Lasso.Proofs.Bounded.StraightMonotone
import Lasso.Proofs.Graph.Canonical
import Lasso.Proofs.Source.Position
import Lasso.Proofs.Bounded.Walk
import Lasso.Proofs.Terminal.Alignment
import Lasso.Proofs.Graph.Likeness
import Lasso.Proofs.Machine.Likeness
import Lasso.Proofs.Machine.Commutation
import Lasso.Proofs.Machine.Shifting
import Lasso.Proofs.Machine.Journal
import Lasso.Proofs.Graph.Traversal
import Lasso.Proofs.Machine.Dependence
import Lasso.Proofs.Bounded.Solution
