import ShaderIR.Graph.Dominators
import ShaderIR.Reachability

/-!
# Dominance and structured order

The dominator tree of a function, over any choice of branch targets and over its own, and the order
in which its blocks are looked at.

The structured successors of a block are its merge block, its continue target and then its branch
targets.  Because the merge block is looked at first, the reverse post-order over structured
successors places it after everything nested in the construct.
-/

namespace ShaderIR.Function

/-! ## 1. Dominators -/

/-- The dominator tree over the given targets. -/
def dominatorsBy (f : Function) (targets : BlockKey → List Id) : Graph.DominatorTree BlockKey :=
  match f.entry? with
  | some entry => .ofGraph (f.successorsBy targets) f.layout entry
  | none => .empty

/-- The dominator tree of a function. -/
def dominators (f : Function) : Graph.DominatorTree BlockKey := f.dominatorsBy f.targets

/-! ## 2. Structured order -/

/-- The labels that follow a block in the structured sense: merge block, continue target, branch
targets.  Repetitions stay. -/
def structuredTargets (f : Function) (b : BlockKey) : List Id :=
  match (f.block? b).bind Block.mergeAndContinue? with
  | some (merge, continueTarget?) => merge :: continueTarget?.toList ++ f.targets b
  | none => f.targets b

/-- The blocks that follow a block in the structured sense. -/
def structuredSuccessors (f : Function) (b : BlockKey) : List BlockKey :=
  f.resolve (f.structuredTargets b)

/-- The blocks that can be reached over structured successors, each before the blocks it dominates
and each merge block after its construct. -/
def structuredOrder (f : Function) : List BlockKey :=
  match f.entry? with
  | some entry => Graph.reversePostorder f.structuredSuccessors f.layout entry
  | none => []

/-- The structured order, refused where the targets of a block cannot be read. -/
def readStructuredOrder (f : Function) : Except Fault (List BlockKey) := do
  f.requireReadable f.layout
  .ok f.structuredOrder

end ShaderIR.Function
