import YieldMachine.Text.Quoted
import YieldMachine.Text.Lines
import YieldMachine.Value.Sequence
import YieldMachine.Value.Conversion
import YieldMachine.Instruction.Word
import YieldMachine.Pool
import YieldMachine.Json.Reader
import YieldMachine.Tree.Json
import YieldMachine.Listing
import YieldMachine.Session
import YieldMachine.Memory.Globals
import YieldMachine.Console
import YieldMachine.Limits
import YieldMachine.Machine.Fault
import YieldMachine.Machine.Event
import YieldMachine.Machine.Context
import YieldMachine.Proofs.Instruction.Packing
import YieldMachine.Proofs.Instruction.Format
import YieldMachine.Proofs.Compile.Code
import YieldMachine.Proofs.Compile.Effect
import YieldMachine.Proofs.Compile.Lowered
import YieldMachine.Proofs.Compile.Statement
import YieldMachine.Proofs.Compile.Sharing
import YieldMachine.Proofs.Compile.Parts
import YieldMachine.Proofs.Compile.Growth
import YieldMachine.Proofs.Value.Functions
import YieldMachine.Proofs.Machine.Effect
import YieldMachine.Proofs.Machine.Action
import YieldMachine.Proofs.Machine.Move
import YieldMachine.Proofs.Machine.Exact
import YieldMachine.Proofs.Machine.Inversion
import YieldMachine.Proofs.Flow.Shape
import YieldMachine.Proofs.Flow.Compiled
import YieldMachine.Proofs.Flow.Context
import YieldMachine.Proofs.Flow.Machine
import YieldMachine.Proofs.Flow.Session
import YieldMachine.Proofs.Flow.Loop
import YieldMachine.Proofs.Run.Seat
import YieldMachine.Proofs.Run.Activation
import YieldMachine.Proofs.Run.Return
import YieldMachine.Proofs.Suspension.Tree
import YieldMachine.Proofs.Suspension.Coherent
import YieldMachine.Proofs.Suspension.Conservation
import YieldMachine.Proofs.Suspension.Worklist
import YieldMachine.Proofs.Run.Balance
import YieldMachine.Proofs.Run.Origin
import YieldMachine.Proofs.Scope.Place
import YieldMachine.Proofs.Scope.Compiled
import YieldMachine.Proofs.Scope.Frames
import YieldMachine.Proofs.Scope.Sharing
import YieldMachine.Proofs.Scope.Lexical
import YieldMachine.Proofs.Scope.Owner
import YieldMachine.Proofs.Scope.Session
import YieldMachine.Proofs.Scope.Uncaptured
import YieldMachine.Proofs.Compile.Ending
import YieldMachine.Proofs.Run.Floor
import YieldMachine.Proofs.Flow.Region
import YieldMachine.Proofs.Run.Stretch
import YieldMachine.Proofs.Iteration.Protocol
import YieldMachine.Proofs.Iteration.Stages
import YieldMachine.Proofs.Iteration.Body
import YieldMachine.Proofs.Iteration.Session
import YieldMachine.Proofs.Twin.Action
import YieldMachine.Proofs.Twin.Run
import YieldMachine.Proofs.Twin.Limits
import YieldMachine.Proofs.Twin.Lowering
import YieldMachine.Proofs.Twin.Pools
import YieldMachine.Proofs.Twin.Session
import YieldMachine.Proofs.Walk.Evaluator
import YieldMachine.Proofs.Walk.Layout
import YieldMachine.Proofs.Walk.Simulation
import YieldMachine.Proofs.Walk.Pieces
import YieldMachine.Proofs.Walk.Arrays
import YieldMachine.Proofs.Walk.Calls
import YieldMachine.Proofs.Walk.Compiled
import YieldMachine.Proofs.Walk.Bodies
import YieldMachine.Proofs.Walk.Found
import YieldMachine.Proofs.Walk.Session
import YieldMachine.Proofs.Suspension.Bounds
import YieldMachine.Proofs.Twin.Position
import YieldMachine.Proofs.Layout.Region
import YieldMachine.Proofs.Layout.Compiled
import YieldMachine.Proofs.Layout.Path
import YieldMachine.Proofs.Layout.Literal
import YieldMachine.Proofs.Session.Batch
import YieldMachine.Proofs.Listing.Lines
import YieldMachine.Proofs.Row.Layout
import YieldMachine.Proofs.Row.Protocol
import YieldMachine.Proofs.Row.Stages
import YieldMachine.Proofs.Row.Session
import YieldMachine.Proofs.Compile.Numbering
import YieldMachine.Proofs.Value.Double
import YieldMachine.Proofs.Value.Comparison
import YieldMachine.Proofs.Value.Equality
import YieldMachine.Proofs.Value.Sequence
import YieldMachine.Proofs.Value.Division
import YieldMachine.Proofs.Value.Numeral
import YieldMachine.Proofs.Console.Lines
import YieldMachine.Proofs.Instruction.Patching
