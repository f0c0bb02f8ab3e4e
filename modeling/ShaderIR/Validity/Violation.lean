import ShaderIR.Id

/-!
# Violations of the structural rules

What can be wrong with a module, with the wording of each finding.
-/

namespace ShaderIR

/-- A broken rule. -/
inductive Violation where
  /-- The block does not end in a terminator. -/
  | missingTerminator (block : Id)
  /-- A terminator stands before the end of the block. -/
  | misplacedTerminator (block : Id)
  /-- A merge declaration does not stand right before the terminator. -/
  | misplacedMerge (block : Id)
  /-- A selection merge is followed by something else than a conditional branch or a switch. -/
  | selectionMergeWithoutBranch (block : Id)
  /-- A loop merge is followed by something else than a branch. -/
  | loopMergeWithoutBranch (block : Id)
  /-- The block names a label that is none of the function. -/
  | unknownLabel (block label : Id)
  /-- The entry block is branched to. -/
  | entryIsBranchTarget (block : Id)
  /-- An id is not below the bound. -/
  | idOutOfBounds (id : Id) (bound : UInt32)
  /-- An id is defined again. -/
  | duplicateResult (id : Id)
  /-- A phi stands after another instruction. -/
  | misplacedPhi (block phi : Id)
  /-- A phi names a parent that does not branch to its block. -/
  | phiParentNotPredecessor (block phi parent : Id)
  /-- A phi has no pair for a predecessor. -/
  | phiMissingPredecessor (block phi pred : Id)
  /-- An id is used and nothing defines it. -/
  | undefinedId (id : Id)
deriving DecidableEq, Repr

namespace Violation

/-- The name of the rule that is broken. -/
def name : Violation → String
  | missingTerminator .. => "MissingTerminator"
  | misplacedTerminator .. => "MisplacedTerminator"
  | misplacedMerge .. => "MisplacedMerge"
  | selectionMergeWithoutBranch .. => "SelectionMergeWithoutBranch"
  | loopMergeWithoutBranch .. => "LoopMergeWithoutBranch"
  | unknownLabel .. => "UnknownLabel"
  | entryIsBranchTarget .. => "EntryIsBranchTarget"
  | idOutOfBounds .. => "IdOutOfBounds"
  | duplicateResult .. => "DuplicateResult"
  | misplacedPhi .. => "MisplacedPhi"
  | phiParentNotPredecessor .. => "PhiParentNotPredecessor"
  | phiMissingPredecessor .. => "PhiMissingPredecessor"
  | undefinedId .. => "UndefinedId"

/-- The wording of the finding. -/
def message : Violation → String
  | missingTerminator block => "block " ++ block.text ++ " does not end in a terminator"
  | misplacedTerminator block =>
    "block " ++ block.text ++ " has a terminator before its last instruction"
  | misplacedMerge block =>
    "block " ++ block.text ++ " has a merge declaration that isn't right before its terminator"
  | selectionMergeWithoutBranch block =>
    "selection merge in " ++ block.text
      ++ " must be followed by `OpBranchConditional` or `OpSwitch`"
  | loopMergeWithoutBranch block =>
    "loop merge in " ++ block.text ++ " must be followed by `OpBranch` or `OpBranchConditional`"
  | unknownLabel block label =>
    block.text ++ " refers to " ++ label.text ++ ", which is not a block in the function"
  | entryIsBranchTarget block => "entry block " ++ block.text ++ " is the target of a branch"
  | idOutOfBounds id bound =>
    id.text ++ " is not below the id bound " ++ Nat.repr bound.toNat
  | duplicateResult id => id.text ++ " is defined more than once"
  | misplacedPhi block phi =>
    "phi " ++ phi.text ++ " in " ++ block.text ++ " is not at the start of its block"
  | phiParentNotPredecessor block phi parent =>
    "phi " ++ phi.text ++ " in " ++ block.text ++ " names " ++ parent.text
      ++ ", which is not a predecessor"
  | phiMissingPredecessor block phi pred =>
    "phi " ++ phi.text ++ " in " ++ block.text ++ " has no operand for predecessor " ++ pred.text
  | undefinedId id => id.text ++ " is used but never defined"

end Violation
end ShaderIR
