import ShaderIR.FlowGraph

/-!
# Removing unreachable blocks

A dead block cannot simply be deleted: a live instruction may still use a value it defines or name
its label.  The ids that live blocks use are *needed*; what a needed id stands for in a dead block
keeps that block in place, together with its terminator and merge declaration, and whatever those
use is needed too.  Everything else in dead blocks goes.

* `Function.needed`: the ids needed in dead blocks;
* `Function.isRetained`, `Function.isKept`: the dead blocks and the instructions that stay;
* `Function.removeUnreachable`: the function without the rest.
-/

namespace ShaderIR

/-- A place in a dead block: an instruction, or the block as such. -/
structure Site where
  /-- The block. -/
  block : BlockKey
  /-- The position of the instruction. -/
  position? : Option Nat
deriving DecidableEq, Repr

namespace Block

/-- The positions of the terminator and of the merge declaration before it. -/
def endPositions (b : Block) : List Nat :=
  (b.terminator?.map (fun _ => b.instructions.length - 1)).toList
    ++ (b.mergeInstruction?.map (fun _ => b.instructions.length - 2)).toList

end Block

namespace Function

/-! ## 1. Live and dead blocks -/

/-- The blocks of the layout outside a set. -/
def deadBlocks (f : Function) (live : KeySet BlockKey) : List BlockKey :=
  f.layout.filter (fun b => !live.contains b)

/-- Whether an instruction of a live block other than `skip?`, phis aside, mentions a label. -/
def isMentioned (f : Function) (label : Id) (live : KeySet BlockKey) (skip? : Option BlockKey) :
    Bool :=
  (f.layout.filter (fun b => live.contains b && some b ≠ skip?)).any (fun b =>
    (f.instructions b).any (fun i => !i.opcode.isPhi && i.mentions label))

/-- The ids that the live blocks use. -/
def liveUses (f : Function) (live : KeySet BlockKey) : List Id :=
  (f.layout.filter live.contains).flatMap (fun b => (f.instructions b).flatMap Instruction.uses)

/-! ## 2. What is needed -/

/-- The definitions in a block, with their places. -/
def definitionsIn (f : Function) (b : BlockKey) : List (Id × Site) :=
  (f.instructions b).zipIdx.filterMap (fun e => e.1.result?.map (fun id => (id, ⟨b, some e.2⟩)))

/-- The definitions in the dead blocks, the latest first. -/
def deadDefinitions (f : Function) (live : KeySet BlockKey) : List (Id × Site) :=
  ((f.deadBlocks live).flatMap f.definitionsIn).reverse

/-- What an id stands for in the dead blocks: a label for its block, any other id for the last
instruction that defines it. -/
def site? (f : Function) (live : KeySet BlockKey) (defs : List (Id × Site)) (id : Id) :
    Option Site :=
  match f.blockOf? id with
  | some b => if live.contains b then none else some ⟨b, none⟩
  | none => (defs.find? (fun e => e.1 = id)).map Prod.snd

/-- The positions that a site keeps in its block: its own, and the end of the block. -/
def keptBy (f : Function) (s : Site) : List Nat :=
  s.position?.toList ++ ((f.block? s.block).map Block.endPositions).getD []

/-- The ids that the instructions kept by a site use. -/
def usesOf (f : Function) (s : Site) : List Id :=
  (f.keptBy s).flatMap (fun n => (((f.instructions s.block)[n]?).map Instruction.uses).getD [])

/-- The ids that a needed id makes needed in turn. -/
def needs (f : Function) (live : KeySet BlockKey) (defs : List (Id × Site)) (id : Id) : List Id :=
  ((f.site? live defs id).map f.usesOf).getD []

/-- The ids with a place in the dead blocks that must keep their meaning. -/
def needed (f : Function) (live : KeySet BlockKey) : List Id :=
  let defs := f.deadDefinitions live
  Graph.search (f.needs live defs) (f.labelsOf (f.deadBlocks live) ++ defs.map Prod.fst)
    (f.liveUses live)

/-- The places in the dead blocks that must stay. -/
def retainedSites (f : Function) (live : KeySet BlockKey) : List Site :=
  (f.needed live).filterMap (f.site? live (f.deadDefinitions live))

/-! ## 3. Removing the rest -/

/-- Whether a block is kept for one of the sites. -/
def isRetained (sites : List Site) (b : BlockKey) : Bool := sites.any (fun s => s.block = b)

/-- Whether the sites keep an instruction of a block. -/
def isKept (f : Function) (sites : List Site) (b : BlockKey) (position : Nat) : Bool :=
  sites.any (fun s => s.block = b && (f.keptBy s).contains position)

/-- The instructions of a block that the sites keep, or those that they do not. -/
def splitKept (f : Function) (sites : List Site) (b : BlockKey) (keep : Bool) : List Instruction :=
  ((f.instructions b).zipIdx.filter (fun e => f.isKept sites b e.2 = keep)).map Prod.fst

/-- Strips a dead block down to what the sites keep of it, or removes it.  The ids that stop
existing are added to `killed`; the last component says whether anything went. -/
def strip (sites : List Site) (state : Function × SortedSet Id × Bool) (b : BlockKey) :
    Except Fault (Function × SortedSet Id × Bool) :=
  let (f, killed, changed) := state
  if isRetained sites b then
    let dropped := f.splitKept sites b false
    .ok (f.setInstructions b (f.splitKept sites b true),
      killed.addAll (dropped.filterMap Instruction.result?), changed || !dropped.isEmpty)
  else do
    let block ← f.block b
    let (_, f) ← f.removeBlock b
    .ok (f, (killed.add block.label).addAll block.results, true)

/-- Removes the blocks that cannot be reached from the entry, as far as nothing needs them. -/
def removeUnreachable (f : Function) (killed : SortedSet Id) :
    Except Fault (Function × SortedSet Id × Bool) := do
  let live ← f.readReachable
  (f.deadBlocks live).foldlM (strip (f.retainedSites live)) (f, killed, false)

end Function
end ShaderIR
