import ShaderIR.Arena
import ShaderIR.Block
import ShaderIR.Builder.Function
import ShaderIR.Builder.Module
import ShaderIR.Capability
import ShaderIR.ConstantTable
import ShaderIR.DeadBranch.Elimination
import ShaderIR.DeadBranch.Folding
import ShaderIR.DeadBranch.PhiRepair
import ShaderIR.DeadBranch.Proposal
import ShaderIR.Dominance
import ShaderIR.FlowGraph
import ShaderIR.Function
import ShaderIR.Graph.Dominators
import ShaderIR.Graph.Traversal
import ShaderIR.Id
import ShaderIR.Instruction
import ShaderIR.KeySet
import ShaderIR.Listing
import ShaderIR.Module
import ShaderIR.Opcode
import ShaderIR.Operand
import ShaderIR.Pass
import ShaderIR.Proofs.Block.Parts
import ShaderIR.Proofs.Builder.Calls
import ShaderIR.Proofs.Builder.Freshness
import ShaderIR.Proofs.Builder.Ledger
import ShaderIR.Proofs.Constants
import ShaderIR.Proofs.DeadBranch.Acceptance
import ShaderIR.Proofs.DeadBranch.CallTrees
import ShaderIR.Proofs.DeadBranch.CleanUp
import ShaderIR.Proofs.DeadBranch.Collapse
import ShaderIR.Proofs.DeadBranch.Convergence
import ShaderIR.Proofs.DeadBranch.Dominance
import ShaderIR.Proofs.DeadBranch.Faults
import ShaderIR.Proofs.DeadBranch.Finished
import ShaderIR.Proofs.DeadBranch.Folding
import ShaderIR.Proofs.DeadBranch.FoldingRun
import ShaderIR.Proofs.DeadBranch.FunctionFrame
import ShaderIR.Proofs.DeadBranch.Killed
import ShaderIR.Proofs.DeadBranch.LeastRetention
import ShaderIR.Proofs.DeadBranch.Legality
import ShaderIR.Proofs.DeadBranch.Meaning
import ShaderIR.Proofs.DeadBranch.Mending
import ShaderIR.Proofs.DeadBranch.ModuleFrame
import ShaderIR.Proofs.DeadBranch.ModuleRun
import ShaderIR.Proofs.DeadBranch.Outcome
import ShaderIR.Proofs.DeadBranch.Phases
import ShaderIR.Proofs.DeadBranch.PhiAgreement
import ShaderIR.Proofs.DeadBranch.PhiPairs
import ShaderIR.Proofs.DeadBranch.Prediction
import ShaderIR.Proofs.DeadBranch.Proposals
import ShaderIR.Proofs.DeadBranch.Removal
import ShaderIR.Proofs.DeadBranch.Repair
import ShaderIR.Proofs.DeadBranch.RepairedFunction
import ShaderIR.Proofs.DeadBranch.Retention
import ShaderIR.Proofs.DeadBranch.Safety
import ShaderIR.Proofs.DeadBranch.SecondRun
import ShaderIR.Proofs.DeadBranch.Simulation
import ShaderIR.Proofs.DeadBranch.Status
import ShaderIR.Proofs.DeadBranch.Substitution
import ShaderIR.Proofs.DeadBranch.Workload
import ShaderIR.Proofs.Execution
import ShaderIR.Proofs.Function.DominatorSweeps
import ShaderIR.Proofs.Function.DominatorTree
import ShaderIR.Proofs.Function.Editing
import ShaderIR.Proofs.Function.Flow
import ShaderIR.Proofs.Function.History
import ShaderIR.Proofs.Function.Neighbours
import ShaderIR.Proofs.Function.Nesting
import ShaderIR.Proofs.Function.StructuredOrder
import ShaderIR.Proofs.Function.Unique
import ShaderIR.Proofs.Function.Walks
import ShaderIR.Proofs.Graph.DepthFirst
import ShaderIR.Proofs.Graph.Distance
import ShaderIR.Proofs.Graph.Dominators
import ShaderIR.Proofs.Graph.Parents
import ShaderIR.Proofs.Graph.Paths
import ShaderIR.Proofs.Graph.Sweeps
import ShaderIR.Proofs.Graph.Traversal
import ShaderIR.Proofs.Instruction.Branches
import ShaderIR.Proofs.Instruction.Operands
import ShaderIR.Proofs.Instruction.Renaming
import ShaderIR.Proofs.KeySet
import ShaderIR.Proofs.Listing
import ShaderIR.Proofs.Lists
import ShaderIR.Proofs.Pipeline
import ShaderIR.Proofs.Requests
import ShaderIR.Proofs.Runs
import ShaderIR.Proofs.Storage.Reordering
import ShaderIR.Proofs.Storage.RoundTrip
import ShaderIR.Proofs.Text
import ShaderIR.Proofs.Validity.Lawful
import ShaderIR.Proofs.Validity.Notes
import ShaderIR.Proofs.Validity.PhiOperands
import ShaderIR.Proofs.Validity.Regular
import ShaderIR.Proofs.Validity.Rules
import ShaderIR.Reachability
import ShaderIR.Retention
import ShaderIR.Selection
import ShaderIR.Sink
import ShaderIR.SortedMap
import ShaderIR.Status
import ShaderIR.Storage.Codec
import ShaderIR.Storage.Document
import ShaderIR.Storage.Module
import ShaderIR.Text.Bytes
import ShaderIR.Text.Quoted
import ShaderIR.Validity.Check
import ShaderIR.Validity.Violation
import ShaderIR.Whitelist
