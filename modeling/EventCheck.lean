import EventCheck.Analysis.Abstraction
import EventCheck.Analysis.Basic
import EventCheck.Analysis.Context
import EventCheck.Analysis.Control
import EventCheck.Analysis.Document
import EventCheck.Analysis.KnownValues
import EventCheck.Analysis.Layer
import EventCheck.Analysis.MergeOperator
import EventCheck.Analysis.Provenance
import EventCheck.Analysis.SingleAssignment
import EventCheck.Analysis.Statistics
import EventCheck.Analysis.StepLabel
import EventCheck.Analysis.SymbolicMemory
import EventCheck.Control.Options
import EventCheck.Control.Scheduler
import EventCheck.Control.Settled
import EventCheck.Control.Step
import EventCheck.Control.Thread
import EventCheck.Decimal.Shortest
import EventCheck.Error
import EventCheck.Graph.BackEdge
import EventCheck.Graph.Basic
import EventCheck.Graph.Dot
import EventCheck.Json.Basic
import EventCheck.Json.Decode
import EventCheck.Json.Numeral
import EventCheck.Json.Printer
import EventCheck.Json.Reader
import EventCheck.Lattice.Basic
import EventCheck.Lattice.Document
import EventCheck.Lattice.Flat
import EventCheck.Lattice.Formula
import EventCheck.Lattice.Predicates
import EventCheck.Lattice.ValueMap
import EventCheck.Lattice.VersionMap
import EventCheck.Program.Actor
import EventCheck.Program.ControlFlow
import EventCheck.Program.Document
import EventCheck.Program.Evaluation
import EventCheck.Program.Expression
import EventCheck.Program.Expression.Order
import EventCheck.Program.Expression.Typed
import EventCheck.Program.Statement
import EventCheck.Program.Task
import EventCheck.Program.Value
import EventCheck.Program.Variable
import EventCheck.Proofs.AbstractionTypes
import EventCheck.Proofs.Acceptance
import EventCheck.Proofs.Admissions
import EventCheck.Proofs.Answers
import EventCheck.Proofs.Atomicity
import EventCheck.Proofs.BackEdges
import EventCheck.Proofs.Broadcasts
import EventCheck.Proofs.Budgets
import EventCheck.Proofs.Building
import EventCheck.Proofs.Calls
import EventCheck.Proofs.Closedness
import EventCheck.Proofs.Comparisons
import EventCheck.Proofs.Course
import EventCheck.Proofs.Coverage
import EventCheck.Proofs.Data
import EventCheck.Proofs.DataLattices
import EventCheck.Proofs.Encounters
import EventCheck.Proofs.Enumeration
import EventCheck.Proofs.Evaluation
import EventCheck.Proofs.Exactness
import EventCheck.Proofs.Execution
import EventCheck.Proofs.Following
import EventCheck.Proofs.Formula
import EventCheck.Proofs.Graph
import EventCheck.Proofs.Growth
import EventCheck.Proofs.Inclusion
import EventCheck.Proofs.Joining
import EventCheck.Proofs.Kinship
import EventCheck.Proofs.KnownValues
import EventCheck.Proofs.Lattices
import EventCheck.Proofs.Layers
import EventCheck.Proofs.LoopHeads
import EventCheck.Proofs.Membership
import EventCheck.Proofs.Merging
import EventCheck.Proofs.Mirrors
import EventCheck.Proofs.ModelText
import EventCheck.Proofs.NormalForms
import EventCheck.Proofs.Observation
import EventCheck.Proofs.Occurring
import EventCheck.Proofs.Origins
import EventCheck.Proofs.Overtaking
import EventCheck.Proofs.PartialKnowledge
import EventCheck.Proofs.Partitions
import EventCheck.Proofs.Paths
import EventCheck.Proofs.Persistence
import EventCheck.Proofs.Placement
import EventCheck.Proofs.Polarity
import EventCheck.Proofs.Predicates
import EventCheck.Proofs.Propagation
import EventCheck.Proofs.Queues
import EventCheck.Proofs.Rearrangements
import EventCheck.Proofs.Refinements
import EventCheck.Proofs.Renaming
import EventCheck.Proofs.Repetition
import EventCheck.Proofs.Replacements
import EventCheck.Proofs.Representatives
import EventCheck.Proofs.Restarts
import EventCheck.Proofs.Retracing
import EventCheck.Proofs.RoundTrips
import EventCheck.Proofs.Runs
import EventCheck.Proofs.Safety
import EventCheck.Proofs.Scheduling
import EventCheck.Proofs.Scripts
import EventCheck.Proofs.Search
import EventCheck.Proofs.SearchSteps
import EventCheck.Proofs.SingleAssignment
import EventCheck.Proofs.Spelling
import EventCheck.Proofs.Stages
import EventCheck.Proofs.Summaries
import EventCheck.Proofs.Tables
import EventCheck.Proofs.Theories
import EventCheck.Proofs.ThreadSteps
import EventCheck.Proofs.Threads
import EventCheck.Proofs.Trails
import EventCheck.Proofs.TruthValues
import EventCheck.Proofs.Turns
import EventCheck.Proofs.TypeSoundness
import EventCheck.Proofs.VersionedStates
import EventCheck.Proofs.Violations
import EventCheck.Proofs.Waiting
import EventCheck.Proofs.Ways
import EventCheck.Proofs.Witness
import EventCheck.Search.Accessibility
import EventCheck.Search.Config
import EventCheck.Search.Frontier
import EventCheck.Search.Merge
import EventCheck.Search.Reachability
import EventCheck.Search.Reached
import EventCheck.Search.Refiner
import EventCheck.Search.Report
import EventCheck.Search.Verdict
import EventCheck.Search.Verify
import EventCheck.Search.Witness
import EventCheck.SmtLib.Model
import EventCheck.SmtLib.Script
import EventCheck.SmtLib.Tree
import EventCheck.Solver.Basic
import EventCheck.Solver.Enumeration
import EventCheck.Solver.External
import EventCheck.Sorted.Map
import EventCheck.Sorted.Order
import EventCheck.Sorted.Set
import EventCheck.Text.Blank
import EventCheck.Text.Numeral
import EventCheck.Text.Printable
import EventCheck.Text.Quoted
