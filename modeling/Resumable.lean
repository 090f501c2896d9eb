import Resumable.Command.Execute
import Resumable.Command.Files
import Resumable.Command.Flag
import Resumable.Command.Output
import Resumable.Command.Route
import Resumable.Command.Settings
import Resumable.Json.Basic
import Resumable.Json.Reader
import Resumable.Json.Writer
import Resumable.Lowering.Lowered
import Resumable.Lowering.Verify
import Resumable.Lowering.Walk
import Resumable.Machine.Bindings
import Resumable.Machine.Eval
import Resumable.Machine.Failure
import Resumable.Machine.Flatten
import Resumable.Machine.Instr
import Resumable.Machine.Operate
import Resumable.Machine.Run
import Resumable.Machine.Value
import Resumable.Machine.World
import Resumable.Main
import Resumable.Proofs.Generator.Answers
import Resumable.Proofs.Generator.Copied
import Resumable.Proofs.Generator.Copies
import Resumable.Proofs.Generator.Counterpart
import Resumable.Proofs.Generator.Generated
import Resumable.Proofs.Generator.Heeding
import Resumable.Proofs.Generator.Housed
import Resumable.Proofs.Generator.Meaning
import Resumable.Proofs.Generator.Pieces
import Resumable.Proofs.Generator.Quiet
import Resumable.Proofs.Generator.Reference
import Resumable.Proofs.Generator.Requests
import Resumable.Proofs.Generator.Resumed
import Resumable.Proofs.Generator.Simulation
import Resumable.Proofs.Lowering.Accepted
import Resumable.Proofs.Lowering.Conserved
import Resumable.Proofs.Lowering.Correspondence
import Resumable.Proofs.Lowering.Fixed
import Resumable.Proofs.Lowering.Flattening
import Resumable.Proofs.Lowering.Follows
import Resumable.Proofs.Lowering.Markers
import Resumable.Proofs.Lowering.Markless
import Resumable.Proofs.Lowering.Methods
import Resumable.Proofs.Lowering.Preservation
import Resumable.Proofs.Lowering.Scopes
import Resumable.Proofs.Lowering.Settled
import Resumable.Proofs.Lowering.Suspensions
import Resumable.Proofs.Lowering.Unmarked
import Resumable.Proofs.Lowering.Variables
import Resumable.Proofs.Lowering.Verified
import Resumable.Proofs.Lowering.Walked
import Resumable.Proofs.Machine.Act
import Resumable.Proofs.Machine.Agreement
import Resumable.Proofs.Machine.Around
import Resumable.Proofs.Machine.Assertions
import Resumable.Proofs.Machine.Body
import Resumable.Proofs.Machine.Call
import Resumable.Proofs.Machine.Catches
import Resumable.Proofs.Machine.Contained
import Resumable.Proofs.Machine.Control
import Resumable.Proofs.Machine.Course
import Resumable.Proofs.Machine.Endless
import Resumable.Proofs.Machine.Flattened
import Resumable.Proofs.Machine.Flow
import Resumable.Proofs.Machine.FlowLaws
import Resumable.Proofs.Machine.Held
import Resumable.Proofs.Machine.Layout
import Resumable.Proofs.Machine.Mirrored
import Resumable.Proofs.Machine.Nesting
import Resumable.Proofs.Machine.Observer
import Resumable.Proofs.Machine.Passing
import Resumable.Proofs.Machine.Placement
import Resumable.Proofs.Machine.Reach
import Resumable.Proofs.Machine.Recorded
import Resumable.Proofs.Machine.Related
import Resumable.Proofs.Machine.Rethrown
import Resumable.Proofs.Machine.Simulation
import Resumable.Proofs.Machine.Sites
import Resumable.Proofs.Machine.Steady
import Resumable.Proofs.Machine.Tries
import Resumable.Proofs.Session.Balanced
import Resumable.Proofs.Session.Cleanup
import Resumable.Proofs.Session.Counted
import Resumable.Proofs.Session.Dispatched
import Resumable.Proofs.Session.Disposal
import Resumable.Proofs.Session.Entered
import Resumable.Proofs.Session.Faults
import Resumable.Proofs.Session.Finished
import Resumable.Proofs.Session.FrameTree
import Resumable.Proofs.Session.Guarded
import Resumable.Proofs.Session.Isolation
import Resumable.Proofs.Session.Kindred
import Resumable.Proofs.Session.Levels
import Resumable.Proofs.Session.Markless
import Resumable.Proofs.Session.Parts
import Resumable.Proofs.Session.Refused
import Resumable.Proofs.Session.Resting
import Resumable.Proofs.Session.Resumption
import Resumable.Proofs.Session.Sequence
import Resumable.Proofs.Session.Sited
import Resumable.Proofs.Session.Starting
import Resumable.Proofs.Session.Suspended
import Resumable.Proofs.Session.Tracking
import Resumable.Proofs.Session.Unwound
import Resumable.Proofs.Session.Yielded
import Resumable.Proofs.Source.Lexing
import Resumable.Proofs.Source.Loops
import Resumable.Proofs.Source.Meaning
import Resumable.Proofs.Source.Parsing
import Resumable.Proofs.Source.Places
import Resumable.Proofs.Source.Precedence
import Resumable.Proofs.Source.Printed
import Resumable.Proofs.Source.Resolution
import Resumable.Proofs.Source.Variables
import Resumable.Proofs.StateMachine.Acceptance
import Resumable.Proofs.StateMachine.Analysis
import Resumable.Proofs.StateMachine.Bodies
import Resumable.Proofs.StateMachine.Carried
import Resumable.Proofs.StateMachine.Checking
import Resumable.Proofs.StateMachine.Confined
import Resumable.Proofs.StateMachine.Conserved
import Resumable.Proofs.StateMachine.Conversion
import Resumable.Proofs.StateMachine.Extracted
import Resumable.Proofs.StateMachine.Finallys
import Resumable.Proofs.StateMachine.Hoisting
import Resumable.Proofs.StateMachine.Image
import Resumable.Proofs.StateMachine.Keeping
import Resumable.Proofs.StateMachine.Leaving
import Resumable.Proofs.StateMachine.Members
import Resumable.Proofs.StateMachine.Mirror
import Resumable.Proofs.StateMachine.Moved
import Resumable.Proofs.StateMachine.Numbering
import Resumable.Proofs.StateMachine.Positions
import Resumable.Proofs.StateMachine.Ready
import Resumable.Proofs.StateMachine.Reduced
import Resumable.Proofs.StateMachine.Regions
import Resumable.Proofs.StateMachine.Routes
import Resumable.Proofs.StateMachine.Spots
import Resumable.Proofs.StateMachine.Unmarked
import Resumable.Proofs.StateMachine.Variables
import Resumable.Proofs.StateMachine.Yields
import Resumable.Proofs.Text.Numeral
import Resumable.Proofs.Text.Quoted
import Resumable.Proofs.Tree.Census
import Resumable.Proofs.Tree.Jumps
import Resumable.Proofs.Tree.Unmarked
import Resumable.Report.Aggregate
import Resumable.Report.Code
import Resumable.Report.Diagnostic
import Resumable.Report.Style
import Resumable.Report.Violation
import Resumable.Session.Arguments
import Resumable.Session.Enumerator
import Resumable.Session.Trace
import Resumable.Source.Form
import Resumable.Source.Grammar
import Resumable.Source.Precedence
import Resumable.Source.Program
import Resumable.Source.Rule
import Resumable.Source.Token
import Resumable.StateMachine.Build
import Resumable.StateMachine.Disposal
import Resumable.StateMachine.Frame
import Resumable.StateMachine.Hoist
import Resumable.StateMachine.Representable
import Resumable.StateMachine.Resumption
import Resumable.Symbol.Members
import Resumable.Symbol.Method
import Resumable.Symbol.Ty
import Resumable.Symbol.Variable
import Resumable.Text.Binary64
import Resumable.Text.Bytes
import Resumable.Text.Case
import Resumable.Text.Decimal
import Resumable.Text.Numeral
import Resumable.Text.Printable
import Resumable.Text.Quoted
import Resumable.Text.Span
import Resumable.Text.Word
import Resumable.Tree.Kind
import Resumable.Tree.Made
import Resumable.Tree.Node
import Resumable.Tree.Operator
import Resumable.Tree.Origin
import Resumable.Tree.Outline
import Resumable.Tree.Printer
import Resumable.Tree.Visit
