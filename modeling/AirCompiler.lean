import AirCompiler.Artifacts
import AirCompiler.Assembly.Emitter
import AirCompiler.Assembly.Simulation
import AirCompiler.Circuit.Arena
import AirCompiler.Circuit.Build
import AirCompiler.Circuit.Node
import AirCompiler.Circuit.Substitute
import AirCompiler.Circuit.Traversal
import AirCompiler.Circuit.Workspace
import AirCompiler.Cli.Arguments
import AirCompiler.Cli.Path
import AirCompiler.Cli.Registry
import AirCompiler.Cli.Run
import AirCompiler.Compilation
import AirCompiler.CompileError
import AirCompiler.Evaluation.Bucket
import AirCompiler.Evaluation.DerivedColumns
import AirCompiler.Expr.Basic
import AirCompiler.Expr.Text
import AirCompiler.Field.Base
import AirCompiler.Field.Ext
import AirCompiler.Field.Scalar
import AirCompiler.Machine.Encoding
import AirCompiler.Machine.Instruction
import AirCompiler.Machine.Run
import AirCompiler.Machine.State
import AirCompiler.Main
import AirCompiler.Memory.Layout
import AirCompiler.Memory.Params
import AirCompiler.Memory.Region
import AirCompiler.Proofs.Assembly.Agreement
import AirCompiler.Proofs.Assembly.Bucket
import AirCompiler.Proofs.Assembly.Confinement
import AirCompiler.Proofs.Assembly.Emission
import AirCompiler.Proofs.Assembly.Fragment
import AirCompiler.Proofs.Assembly.Instantiation
import AirCompiler.Proofs.Assembly.Limits
import AirCompiler.Proofs.Assembly.Page
import AirCompiler.Proofs.Assembly.Scratch
import AirCompiler.Proofs.Assembly.Setting
import AirCompiler.Proofs.Circuit.Canonical
import AirCompiler.Proofs.Circuit.Construction
import AirCompiler.Proofs.Circuit.Growth
import AirCompiler.Proofs.Circuit.Reach
import AirCompiler.Proofs.Circuit.Recursion
import AirCompiler.Proofs.Circuit.Replacement
import AirCompiler.Proofs.Circuit.Rewriting
import AirCompiler.Proofs.Circuit.Substitution
import AirCompiler.Proofs.Circuit.Tree
import AirCompiler.Proofs.Circuit.Walk
import AirCompiler.Proofs.Computation
import AirCompiler.Proofs.Evaluation.Bucket
import AirCompiler.Proofs.Evaluation.Degrees
import AirCompiler.Proofs.Evaluation.DerivedColumns
import AirCompiler.Proofs.Evaluation.Filling
import AirCompiler.Proofs.Evaluation.Lifting
import AirCompiler.Proofs.Evaluation.Mixed
import AirCompiler.Proofs.Evaluation.Refilling
import AirCompiler.Proofs.Evaluation.System
import AirCompiler.Proofs.Expr.Names
import AirCompiler.Proofs.Expr.Parsing
import AirCompiler.Proofs.Expr.Rendering
import AirCompiler.Proofs.Expr.Temporaries
import AirCompiler.Proofs.Field.Extension
import AirCompiler.Proofs.Field.Powers
import AirCompiler.Proofs.Field.Ring
import AirCompiler.Proofs.Machine.Access
import AirCompiler.Proofs.Machine.Elements
import AirCompiler.Proofs.Machine.Encoding
import AirCompiler.Proofs.Machine.Invariant
import AirCompiler.Proofs.Machine.Relation
import AirCompiler.Proofs.Machine.StraightLine
import AirCompiler.Proofs.Sharing.Counts
import AirCompiler.Proofs.Sharing.Elimination
import AirCompiler.Proofs.Sharing.Mixed
import AirCompiler.Proofs.Sharing.Paths
import AirCompiler.Proofs.Sharing.Plan
import AirCompiler.Proofs.Source.Scoping
import AirCompiler.Proofs.System.Buckets
import AirCompiler.Proofs.System.Columns
import AirCompiler.Proofs.System.Completion
import AirCompiler.Proofs.System.Cuts
import AirCompiler.Proofs.System.Freshness
import AirCompiler.Proofs.System.Lowering
import AirCompiler.Proofs.System.Products
import AirCompiler.Proofs.System.Totality
import AirCompiler.Proofs.Text.Decimal
import AirCompiler.Sharing.Plan
import AirCompiler.Source.Modules
import AirCompiler.System.Basic
import AirCompiler.System.Lowering
import AirCompiler.System.Role
import AirCompiler.System.Samples
import AirCompiler.Text.Integer
import AirCompiler.Text.Quoted
