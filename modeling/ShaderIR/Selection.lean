import ShaderIR.Block

/-!
# Selections

A selection header ends in a selection merge and a conditional branch or switch.  This file finds
that pair at the end of a block, takes it off and puts a new ending on.
-/

namespace ShaderIR

/-- The end of a selection header. -/
structure SelectionBranch where
  /-- The conditional branch or switch. -/
  branch : Instruction
  /-- The merge block. -/
  merge : Id
  /-- The condition or the selector. -/
  condition : Id
deriving DecidableEq, Repr

namespace Block

/-- The selection that ends a block.  A loop header is none. -/
def selection? (b : Block) : Option SelectionBranch := do
  let branch ← b.terminator?
  let merge ← b.mergeInstruction?
  if merge.opcode = .selectionMerge
      && (branch.opcode = .branchConditional || branch.opcode = .switch) then
    some ⟨branch, ← merge.idOperand? 0, ← branch.idOperand? 0⟩
  else none

/-- Takes the merge declaration and the branch off a selection header. -/
def removeSelection (b : Block) : Except Fault Block :=
  if b.selection?.isSome then .ok b.pop.pop else .error .notASelection

/-- Ends a block with a branch. -/
def addBranch (b : Block) (target : Id) : Except Fault Block := b.push (.branch target)

/-- Appends a selection merge, to be followed by a branch. -/
def addSelectionMerge (b : Block) (merge : Id) : Except Fault Block :=
  b.push (.selectionMerge merge)

/-- Ends a block with a conditional branch. -/
def addBranchConditional (b : Block) (cond ifTrue ifFalse : Id) : Except Fault Block :=
  b.push (.branchConditional cond ifTrue ifFalse)

/-- Replaces the end of a selection header by a branch. -/
def foldSelection (b : Block) (target : Id) : Except Fault Block := do
  (← b.removeSelection).addBranch target

/-- Replaces the branch of a selection header by a conditional branch, keeping the merge block. -/
def narrowSelection (b : Block) (merge cond ifTrue ifFalse : Id) : Except Fault Block := do
  (← (← b.removeSelection).addSelectionMerge merge).addBranchConditional cond ifTrue ifFalse

end Block
end ShaderIR
