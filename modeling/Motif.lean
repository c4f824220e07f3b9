import Motif.Async.Scenario
import Motif.Compile
import Motif.Eval.Rules
import Motif.Json.Parser
import Motif.Json.Printer
import Motif.Number.Decimal
import Motif.Operator
import Motif.Path
import Motif.Pipeline
import Motif.ProjectFile
import Motif.Proofs.Annotation
import Motif.Proofs.Async.Fifo
import Motif.Proofs.Dict
import Motif.Proofs.Eval.Host
import Motif.Proofs.Eval.Marks
import Motif.Proofs.Eval.Refinement
import Motif.Proofs.Tree.Layer
import Motif.Session
import Motif.Text.Nearest
import Motif.Text.Quoted
import Motif.Text.Units
import Motif.Tree.Format
import Motif.TypeName
import Motif.Value
import Motif.Value.Text
import Motif.Visit
import Motif.Proofs.Eval.Correspondence
import Motif.Proofs.Eval.Congruence
import Motif.Proofs.Eval.Fuel
import Motif.Proofs.Simplify.Rewrite
import Motif.Proofs.Simplify.Core
import Motif.Proofs.Simplify.Improvement
import Motif.Proofs.Simplify.Simulation
import Motif.Proofs.Script.Meaning
import Motif.Proofs.Emit.Names
import Motif.Proofs.Emit.Branches
import Motif.Proofs.Scope.References
import Motif.Proofs.Scope.Placement
import Motif.Proofs.Scope.Lexical
import Motif.Proofs.Scope.Elaborated
import Motif.Proofs.Scope.Values
import Motif.Proofs.Scope.Soundness
import Motif.Proofs.Tree.Identity
import Motif.Proofs.Pattern.Shape
import Motif.Proofs.Pattern.New
import Motif.Proofs.Simplify.Identity
import Motif.Proofs.Pattern.Clauses
import Motif.Proofs.Pattern.Contexts
import Motif.Proofs.Scope.Walk
import Motif.Proofs.Emit.Failure
import Motif.Proofs.Pipeline.Passes
import Motif.Proofs.Pipeline.Generation
import Motif.Proofs.Pipeline.Running
import Motif.Proofs.Async.Queue
import Motif.Proofs.Async.Continuation
import Motif.Proofs.Async.Waiters
import Motif.Proofs.Async.AwaitAll
import Motif.Proofs.Async.AwaitAny
import Motif.Proofs.Async.Coroutine
import Motif.Proofs.Async.Order
import Motif.Proofs.Text.Quoted
import Motif.Proofs.Json.Spelling
import Motif.Proofs.Json.Documents
import Motif.Proofs.Tree.Format
import Motif.Proofs.Script.Scopes
import Motif.Proofs.Emit.Ids
import Motif.Proofs.Emit.Tidy
import Motif.Proofs.Emit.Declaring
import Motif.Proofs.Emit.Forms
import Motif.Proofs.Emit.Statements
import Motif.Proofs.Emit.Declared
import Motif.Proofs.Emit.Collisions
import Motif.Proofs.Eval.Testing
import Motif.Proofs.Eval.Tracking
import Motif.Proofs.Eval.Tracked
import Motif.Proofs.Pattern.Keys
import Motif.Proofs.Pattern.Owners
import Motif.Proofs.Pattern.Walk
import Motif.Proofs.Pipeline.Subjects
import Motif.Proofs.Scope.Blocks
import Motif.Proofs.Emit.Yields
import Motif.Proofs.Pipeline.Matching
import Motif.Proofs.Simplify.Residue
import Motif.Proofs.Simplify.Repetition
import Motif.Proofs.Pattern.Layers
import Motif.Proofs.Pattern.Addresses
import Motif.Proofs.Eval.Conclusions
import Motif.Proofs.Pattern.Guards
import Motif.Proofs.Scope.Redefinitions
import Motif.Proofs.Eval.Overloads
import Motif.Proofs.Pipeline.Overloads
import Motif.Proofs.Emit.Publishing
import Motif.Proofs.Scope.Visitors
import Motif.Proofs.Pipeline.Keys
import Motif.Proofs.Emit.Scoping
import Motif.Proofs.Emit.Subjects
import Motif.Proofs.Pipeline.Bindings
import Motif.Proofs.Value.Script
import Motif.Proofs.Visit
import Motif.Proofs.Text.Nearest
import Motif.Proofs.Emit.Allocation
import Motif.Proofs.Emit.Conditions
import Motif.Proofs.Emit.Indentation
