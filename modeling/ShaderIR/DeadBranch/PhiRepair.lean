import ShaderIR.ConstantTable
import ShaderIR.FlowGraph

/-!
# Repairing phis

After edges have gone or come, the phis of the reachable blocks are brought in line with the
predecessors: pairs of a parent that no longer branches to the block are dropped, a reachable
predecessor without a pair gets an undefined value, and a phi that lost pairs and is left with one
pair from a reachable parent is replaced by its value everywhere.

* `PhiRepair.mendPhi`: one phi;
* `PhiRepair.collapsed?`: whether a phi can be replaced by its value;
* `substitute`: carrying out the replacements, one after the other.
-/

namespace ShaderIR

/-- The labels of the predecessors of a block. -/
structure PhiParents where
  /-- All of them. -/
  all : List Id
  /-- Those that can be reached. -/
  live : List Id
deriving DecidableEq, Repr

/-- A function in the course of phi repair. -/
structure PhiRepair where
  /-- The function as it is now. -/
  function : Function
  /-- Where undefined values come from. -/
  constants : ConstantTable
  /-- The ids for new ones. -/
  ids : IdSupply
  /-- The results of the phis that lost pairs. -/
  pruned : List Id
  /-- The phis taken out so far, each with the value that takes its place. -/
  replacements : List (Id × Id)
  /-- Whether anything was changed. -/
  changed : Bool

namespace PhiRepair

/-! ## 1. One phi -/

/-- Drops the pairs whose parent does not branch to the block. -/
def prune (parents : PhiParents) (s : PhiRepair) (phi : Instruction) : PhiRepair × Instruction :=
  let keep := fun (_ parent : Id) => parents.all.contains parent
  if 0 < phi.droppedIncoming keep then
    ({ s with pruned := s.pruned ++ phi.result?.toList, changed := true }, phi.retainIncoming keep)
  else (s, phi.retainIncoming keep)

/-- Gives a predecessor an undefined value unless the phi has a pair for it. -/
def supplyParent (type : Id) (state : PhiRepair × Instruction) (parent : Id) :
    Except Fault (PhiRepair × Instruction) :=
  let (s, phi) := state
  if phi.phiIncoming.any (fun p => p.2 = parent) then .ok state
  else do
    let (value, constants, ids) ← s.constants.undef type s.ids
    .ok ({ s with constants := constants, ids := ids, changed := true },
      phi.pushIncoming value parent)

/-- Brings one phi in line with the predecessors.  Without a type no value can be supplied. -/
def mendPhi (parents : PhiParents) (s : PhiRepair) (phi : Instruction) :
    Except Fault (PhiRepair × Instruction) :=
  match phi.type? with
  | some type => parents.live.foldlM (supplyParent type) (prune parents s phi)
  | none => .ok (prune parents s phi)

/-- Brings phis in line with the predecessors, one after the other. -/
def mendPhis (parents : PhiParents) (s : PhiRepair) :
    List Instruction → Except Fault (PhiRepair × List Instruction)
  | [] => .ok (s, [])
  | phi :: phis => do
    let (s, phi) ← mendPhi parents s phi
    let (s, phis) ← mendPhis parents s phis
    .ok (s, phi :: phis)

/-! ## 2. Phis with a single value -/

/-- The replacement of a phi that was pruned down to one pair from a reachable parent. -/
def collapsed? (parents : PhiParents) (pruned : List Id) (phi : Instruction) : Option (Id × Id) :=
  match phi.result?, phi.phiIncoming with
  | some result, [(value, parent)] =>
    if value ≠ result && pruned.contains result && parents.live.contains parent then
      some (result, value)
    else none
  | _, _ => none

/-- Whether a phi is left in its block: it is not replaced by the only value that it still has. -/
def isLeft (parents : PhiParents) (pruned : List Id) (phi : Instruction) : Bool :=
  !(collapsed? parents pruned phi).isSome

/-- Repairs the phis of a block. -/
def mendBlock (parents : PhiParents) (s : PhiRepair) (b : BlockKey) (block : Block) :
    Except Fault PhiRepair := do
  let (s, phis) ← mendPhis parents s block.phis
  .ok { s with
    function := s.function.setInstructions b
      (phis.filter (isLeft parents s.pruned) ++ block.afterPhis)
    replacements := s.replacements ++ phis.filterMap (collapsed? parents s.pruned) }

/-! ## 3. Replacing -/

/-- Carries out replacements in order.  Where a later one leads to a value that has just been
replaced, it is led on to the new value. -/
def substitute (f : Function) : List (Id × Id) → Function
  | [] => f
  | (old, new) :: rest =>
    substitute (f.replaceAllUses old new)
      (rest.map (fun r => (r.1, if r.2 = old then new else r.2)))
termination_by rs => rs.length
decreasing_by simp

/-- The labels of the predecessors of a block. -/
def parentsOf (f : Function) (g : FlowGraph) (live : KeySet BlockKey) (b : BlockKey) :
    PhiParents where
  all := f.labelsOf (g.predecessors b)
  live := f.labelsOf ((g.predecessors b).filter live.contains)

/-- Repairs the phis of one block of the function. -/
def visit (g : FlowGraph) (live : KeySet BlockKey) (s : PhiRepair) (b : BlockKey) :
    Except Fault PhiRepair :=
  match s.function.block? b with
  | some block => s.mendBlock (parentsOf s.function g live b) b block
  | none => .ok s

/-- Repairs the phis of the reachable blocks of a function and replaces those that are left with a
single value.  The ids that stop existing are the old ids of the replacements. -/
def run (f : Function) (constants : ConstantTable) (ids : IdSupply) : Except Fault PhiRepair := do
  let live := f.reachable
  let s ← (f.layout.filter live.contains).foldlM (visit (FlowGraph.ofFunction f) live)
    ⟨f, constants, ids, [], [], false⟩
  .ok { s with
    function := substitute s.function s.replacements
    changed := s.changed || !s.replacements.isEmpty }

end PhiRepair
end ShaderIR
