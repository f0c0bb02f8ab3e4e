import ShaderIR.Arena
import ShaderIR.Block
import ShaderIR.SortedMap

/-!
# Functions

A function keeps its blocks in an arena, so that a block key stays valid however the function is
edited.  Beside the arena stand the *layout*, the keys of the blocks that are part of the function
in order, and the index from labels to keys.  Removing a block empties it and takes it out of the
layout and of the index; its key is never handed out again.

* `appendBlock`, `removeBlock`: the only operations that touch layout and index;
* `setInstructions`, `setBlock`: every other edit of a body;
* `resolve`: from labels to the blocks they name.
-/

namespace ShaderIR

/-- The key of a block inside its function. -/
structure BlockKey where
  /-- The place in the arena. -/
  slot : UInt32
deriving DecidableEq, Repr

instance : ArenaKey BlockKey :=
  .wrapping BlockKey.mk BlockKey.slot (fun _ => rfl) (fun _ => rfl)

/-- A function of a module. -/
structure Function where
  /-- The result id of the function. -/
  id : Id
  /-- The `OpFunction` that declares it. -/
  definition : Instruction
  /-- Its parameters. -/
  params : List Instruction
  /-- Every block it ever had. -/
  blocks : Arena BlockKey Block
  /-- The blocks it has now, in order. -/
  layout : List BlockKey
  /-- The block of each label in the layout. -/
  labels : SortedMap Id BlockKey
deriving DecidableEq

namespace Function

/-! ## 1. Reading -/

/-- The function without parameters and blocks. -/
def new (id returnType type : Id) : Function where
  id := id
  definition := ⟨.function, some returnType, some id, [.literal 0, .ref type]⟩
  params := []
  blocks := Arena.empty
  layout := []
  labels := SortedMap.empty

/-- The first block. -/
def entry? (f : Function) : Option BlockKey := f.layout.head?

/-- The number of keys handed out so far. -/
def capacity (f : Function) : Nat := f.blocks.size

/-- The block of a key. -/
def block? (f : Function) (b : BlockKey) : Option Block := f.blocks.get? b

/-- The block of a key, refused where the key was never handed out. -/
def block (f : Function) (b : BlockKey) : Except Fault Block := f.blocks.get b

/-- The instructions of a block. -/
def instructions (f : Function) (b : BlockKey) : List Instruction :=
  ((f.block? b).map Block.instructions).getD []

/-- The label of a block. -/
def label? (f : Function) (b : BlockKey) : Option Id := (f.block? b).map Block.label

/-- The block in the layout that a label names. -/
def blockOf? (f : Function) (label : Id) : Option BlockKey := f.labels.get? label

/-- The blocks that labels name; a label that names none is passed over. -/
def resolve (f : Function) (labels : List Id) : List BlockKey := labels.filterMap f.blockOf?

/-- The labels of blocks. -/
def labelsOf (f : Function) (bs : List BlockKey) : List Id := bs.filterMap f.label?

/-- Whether a key is that of the block its label names. -/
def isInserted (f : Function) (b : BlockKey) : Bool :=
  match f.label? b with
  | some label => f.blockOf? label = some b
  | none => false

/-- The labels the terminator of a block may go to. -/
def targets (f : Function) (b : BlockKey) : List Id := ((f.block? b).map Block.targets).getD []

/-- Whether the targets of a block can be read. -/
def hasReadableTargets (f : Function) (b : BlockKey) : Bool :=
  (f.block? b).all Block.hasReadableTargets

/-- Every instruction of the layout with the block it is in. -/
def body (f : Function) : List (BlockKey × Instruction) :=
  f.layout.flatMap (fun b => (f.instructions b).map (fun i => (b, i)))

/-- The functions that are called, in the order of the calls. -/
def callees (f : Function) : List Id :=
  f.body.filterMap (fun e => if e.2.opcode = .functionCall then e.2.idOperand? 0 else none)

/-! ## 2. Editing -/

/-- Puts another block in the place of one, label and all.  The index does not follow. -/
def setBlock (f : Function) (b : BlockKey) (block : Block) : Function :=
  { f with blocks := f.blocks.set b block }

/-- Puts other instructions into a block. -/
def setInstructions (f : Function) (b : BlockKey) (is : List Instruction) : Function :=
  match f.block? b with
  | some block => f.setBlock b { block with instructions := is }
  | none => f

/-- Edits the block of a key. -/
def editBlock (f : Function) (b : BlockKey) (edit : Block → Except Fault Block) :
    Except Fault Function := do
  let block ← f.block b
  let block' ← edit block
  .ok (f.setBlock b block')

/-- Appends a parameter. -/
def pushParam (f : Function) (param : Instruction) : Except Fault Function :=
  if param.opcode = .functionParameter then .ok { f with params := f.params ++ [param] }
  else .error .wrongOpcode

/-- Appends an empty block with a label that no block of the layout has. -/
def appendBlock (f : Function) (label : Id) : Except Fault (BlockKey × Function) :=
  if f.labels.contains label then .error (.labelInUse label)
  else do
    let (b, blocks) ← f.blocks.insert (Block.empty label)
    .ok (b, { f with
      blocks := blocks
      layout := f.layout ++ [b]
      labels := f.labels.insert label b })

/-- Takes a block out of the layout and gives back the instructions it had. -/
def removeBlock (f : Function) (b : BlockKey) : Except Fault (List Instruction × Function) :=
  match f.block? b with
  | some block =>
    if f.isInserted b then
      .ok (block.instructions,
        { f.setInstructions b [] with
          layout := f.layout.filter (fun b' => b' ≠ b)
          labels := f.labels.erase block.label })
    else .error .notInLayout
  | none => .error .notInLayout

/-- Replaces the references to `old` in the layout by references to `new`. -/
def replaceAllUses (f : Function) (old new : Id) : Function :=
  f.layout.foldl
    (fun g b => g.setInstructions b ((g.instructions b).map (fun i => i.replaceUses old new))) f

/-- Whether an instruction of the layout refers to `old`. -/
def refersTo (f : Function) (old : Id) : Bool :=
  f.layout.any (fun b => (f.instructions b).any (fun i => i.refersTo old))

end Function
end ShaderIR
