import ShaderIR.Function
import ShaderIR.Graph.Traversal
import ShaderIR.KeySet

/-!
# Reachable blocks

Which blocks of a function control can get to from the entry.  `reachableBy` asks the question for
any choice of branch targets, so that the effect of an edit can be told before it is made;
`reachable` asks it for the targets the blocks have.
-/

namespace ShaderIR.Function

/-- The blocks that follow a block when its targets are given by `targets`. -/
def successorsBy (f : Function) (targets : BlockKey → List Id) (b : BlockKey) : List BlockKey :=
  f.resolve (targets b)

/-- The blocks that can be reached from the entry over the given targets. -/
def reachableBy (f : Function) (targets : BlockKey → List Id) : KeySet BlockKey :=
  (KeySet.withCapacity f.capacity).insertAll
    (Graph.search (f.successorsBy targets) f.layout f.entry?.toList)

/-- The blocks that can be reached from the entry. -/
def reachable (f : Function) : KeySet BlockKey := f.reachableBy f.targets

/-- The targets that are given for a block, by its label. -/
def givenTargets? (f : Function) (given : List (Id × List Id)) (b : BlockKey) : Option (List Id) :=
  (f.label? b).bind (fun label => (given.find? (fun e => e.1 = label)).map Prod.snd)

/-- The given targets in place of those that the blocks have. -/
def overriding (f : Function) (given : List (Id × List Id)) (b : BlockKey) : List Id :=
  (f.givenTargets? given b).getD (f.targets b)

/-- The targets of one block replaced by others. -/
def withTargets (f : Function) (header : BlockKey) (targets : List Id) (b : BlockKey) : List Id :=
  if b = header then targets else f.targets b

/-- Refuses a function in which the targets of one of the blocks cannot be read. -/
def requireReadable (f : Function) (bs : List BlockKey) : Except Fault Unit :=
  if bs.all f.hasReadableTargets then .ok () else .error .noBranchOperands

/-- The reachable blocks, refused where the targets of one of them cannot be read. -/
def readReachable (f : Function) : Except Fault (KeySet BlockKey) := do
  f.requireReadable f.reachable.keys
  .ok f.reachable

/-- The blocks reachable over given targets, refused where those of another one of them cannot be
read. -/
def readReachableOverriding (f : Function) (given : List (Id × List Id)) :
    Except Fault (KeySet BlockKey) := do
  let reached := f.reachableBy (f.overriding given)
  f.requireReadable (reached.keys.filter (fun b => (f.givenTargets? given b).isNone))
  .ok reached

end ShaderIR.Function
