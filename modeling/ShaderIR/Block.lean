import ShaderIR.Instruction

/-!
# Basic blocks

A block has a label and a list of instructions: phis, a body, an optional merge declaration, a
terminator.  A block under construction may lack any of them.
-/

namespace ShaderIR

/-- A labelled list of instructions. -/
structure Block where
  /-- The id that names the block. -/
  label : Id
  /-- Its instructions, in order. -/
  instructions : List Instruction
deriving DecidableEq, Repr

namespace Block

/-- The block without instructions. -/
def empty (label : Id) : Block := ⟨label, []⟩

/-- The last instruction, if it ends the block. -/
def terminator? (b : Block) : Option Instruction :=
  b.instructions.getLast?.filter (fun i => i.opcode.isTerminator)

/-- The merge declaration right before the terminator. -/
def mergeInstruction? (b : Block) : Option Instruction :=
  match b.instructions.reverse with
  | last :: merge :: _ =>
    if last.opcode.isTerminator && merge.opcode.isMerge then some merge else none
  | _ => none

/-- The merge block the block declares and, for a loop header, the continue target. -/
def mergeAndContinue? (b : Block) : Option (Id × Option Id) :=
  b.mergeInstruction?.bind Instruction.mergeTargets?

/-- The labels the terminator may go to. -/
def targets (b : Block) : List Id := (b.terminator?.map Instruction.branchTargets).getD []

/-- Whether the targets of the terminator can be read. -/
def hasReadableTargets (b : Block) : Bool :=
  b.terminator?.all Instruction.hasReadableTargets

/-- The labels the terminator may go to, refused where they cannot be read. -/
def readTargets (b : Block) : Except Fault (List Id) :=
  match b.terminator? with
  | some t => t.readTargets
  | none => .ok []

/-- The phis at the start of the block. -/
def phis (b : Block) : List Instruction := b.instructions.takeWhile (fun i => i.opcode.isPhi)

/-- What follows the leading phis. -/
def afterPhis (b : Block) : List Instruction := b.instructions.dropWhile (fun i => i.opcode.isPhi)

/-- Appends an instruction, refused once the block has a terminator. -/
def push (b : Block) (i : Instruction) : Except Fault Block :=
  if b.terminator?.isSome then .error .afterTerminator
  else .ok { b with instructions := b.instructions ++ [i] }

/-- The block without its last instruction. -/
def pop (b : Block) : Block := { b with instructions := b.instructions.dropLast }

/-- Puts an instruction at a position, refused beyond the end. -/
def insertAt (b : Block) (position : Nat) (i : Instruction) : Except Fault Block :=
  if position ≤ b.instructions.length then
    .ok { b with instructions := b.instructions.insertIdx position i }
  else .error .positionRange

/-- The ids that stop existing when the instructions go: their results. -/
def results (b : Block) : List Id := b.instructions.filterMap Instruction.result?

end Block
end ShaderIR
