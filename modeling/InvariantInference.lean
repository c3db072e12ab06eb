import InvariantInference.Assignment
import InvariantInference.Binary64
import InvariantInference.Binary64.Decimal
import InvariantInference.CallGraph
import InvariantInference.Candidate
import InvariantInference.Clause
import InvariantInference.CommandLine.Request
import InvariantInference.CommandLine.Response
import InvariantInference.Config
import InvariantInference.Configuration
import InvariantInference.Diagnostic
import InvariantInference.Dictionary
import InvariantInference.Engine
import InvariantInference.Engine.Round
import InvariantInference.Event
import InvariantInference.Event.Trace
import InvariantInference.Expr
import InvariantInference.Expr.Parser
import InvariantInference.Expr.Printer
import InvariantInference.Json
import InvariantInference.Ledger
import InvariantInference.Main
import InvariantInference.Manifest.Program
import InvariantInference.Manifest.Run
import InvariantInference.Manifest.Shape
import InvariantInference.Model.Facts
import InvariantInference.Model.Script
import InvariantInference.Model.Session
import InvariantInference.Program
import InvariantInference.Proofs.Assignment
import InvariantInference.Proofs.Assignment.Indexed
import InvariantInference.Proofs.CallGraph
import InvariantInference.Proofs.CallGraph.Views
import InvariantInference.Proofs.Candidate
import InvariantInference.Proofs.Dictionary
import InvariantInference.Proofs.Engine.Attribution
import InvariantInference.Proofs.Engine.Bound
import InvariantInference.Proofs.Engine.Causes
import InvariantInference.Proofs.Engine.Completeness
import InvariantInference.Proofs.Engine.Discipline
import InvariantInference.Proofs.Engine.EventLog
import InvariantInference.Proofs.Engine.Fixpoint
import InvariantInference.Proofs.Engine.Flush
import InvariantInference.Proofs.Engine.History
import InvariantInference.Proofs.Engine.Independence
import InvariantInference.Proofs.Engine.Invariant
import InvariantInference.Proofs.Engine.Justification
import InvariantInference.Proofs.Engine.Log
import InvariantInference.Proofs.Engine.Maximality
import InvariantInference.Proofs.Engine.Outcomes
import InvariantInference.Proofs.Engine.Plain
import InvariantInference.Proofs.Engine.Queueing
import InvariantInference.Proofs.Engine.Refinement
import InvariantInference.Proofs.Engine.Resolution
import InvariantInference.Proofs.Engine.Reverification
import InvariantInference.Proofs.Engine.Rounds
import InvariantInference.Proofs.Engine.Schedules
import InvariantInference.Proofs.Engine.Sessions
import InvariantInference.Proofs.Engine.Setup
import InvariantInference.Proofs.Engine.Simulation
import InvariantInference.Proofs.Engine.Timeouts
import InvariantInference.Proofs.Except
import InvariantInference.Proofs.Expr.Acceptance
import InvariantInference.Proofs.Expr.Derivation
import InvariantInference.Proofs.Expr.Grammar
import InvariantInference.Proofs.Expr.Reading
import InvariantInference.Proofs.Expr.RoundTrip
import InvariantInference.Proofs.Expr.Shift
import InvariantInference.Proofs.Expr.Spans
import InvariantInference.Proofs.Ledger
import InvariantInference.Proofs.Manifest.Embedded
import InvariantInference.Proofs.Manifest.Texts
import InvariantInference.Proofs.Model.Assumptions
import InvariantInference.Proofs.Model.Closure
import InvariantInference.Proofs.Model.Horn
import InvariantInference.Proofs.Model.Hypothesis
import InvariantInference.Proofs.Model.Mentions
import InvariantInference.Proofs.Model.Propagation
import InvariantInference.Proofs.Model.Recall
import InvariantInference.Proofs.Model.Recursion
import InvariantInference.Proofs.Model.Redundancy
import InvariantInference.Proofs.Model.Retention
import InvariantInference.Proofs.Model.Sites
import InvariantInference.Proofs.Model.Soundness
import InvariantInference.Proofs.Model.Valuation
import InvariantInference.Proofs.Model.Walk
import InvariantInference.Proofs.Session.Calls
import InvariantInference.Proofs.Token.Munch
import InvariantInference.Proofs.Token.Slices
import InvariantInference.Proofs.Token.Spelling
import InvariantInference.Proofs.Toml.Origin
import InvariantInference.Proofs.Toml.Quotation
import InvariantInference.Proofs.Toml.Readers
import InvariantInference.Proofs.Worklist
import InvariantInference.Proofs.Worklist.Indexed
import InvariantInference.Refutation
import InvariantInference.Report
import InvariantInference.Session
import InvariantInference.Session.Pool
import InvariantInference.Session.Replay
import InvariantInference.Span
import InvariantInference.Stopwatch
import InvariantInference.Text.ExtendingMark
import InvariantInference.Text.Padded
import InvariantInference.Text.Quoted
import InvariantInference.Text.Ranges
import InvariantInference.Text.Unprintable
import InvariantInference.Token
import InvariantInference.Token.Lexer
import InvariantInference.Toml.Document
import InvariantInference.Toml.Moment
import InvariantInference.Toml.Reader
import InvariantInference.Toml.Scalar
import InvariantInference.Toml.Value
import InvariantInference.Verdict
import InvariantInference.Worklist
