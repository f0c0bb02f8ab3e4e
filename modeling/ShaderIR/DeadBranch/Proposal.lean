import ShaderIR.Dominance
import ShaderIR.Retention

/-!
# Proposals

Before a selection is folded, the new edges of its header are only proposed.  A proposal is legal
if no block becomes unreachable while a reachable block still names it, and if every value is still
defined in a block that dominates its uses.
-/

namespace ShaderIR.Function

/-- The definitions in the layout with their blocks, the latest first. -/
def definitions (f : Function) : List (Id × BlockKey) :=
  (f.body.filterMap (fun e => e.2.result?.map (fun id => (id, e.1)))).reverse

/-- Whether a value may be used in a block: it is not defined in the body, or it is defined in a
block that dominates the use. -/
def isDominated (defs : List (Id × BlockKey)) (tree : Graph.DominatorTree BlockKey)
    (value : Id) (user : BlockKey) : Bool :=
  match defs.find? (fun e => e.1 = value) with
  | some e => tree.dominates e.2 user
  | none => true

/-- Whether a pair of a phi is in order: a pair is a use at the end of its parent, and one from a
parent that cannot be reached does not count. -/
def isIncomingDominated (f : Function) (defs : List (Id × BlockKey))
    (tree : Graph.DominatorTree BlockKey) (pair : Id × Id) : Bool :=
  match f.blockOf? pair.2 with
  | some parent => !tree.isReachable parent || isDominated defs tree pair.1 parent
  | none => true

/-- Whether the uses of an instruction are in order. -/
def areUsesDominated (f : Function) (defs : List (Id × BlockKey))
    (tree : Graph.DominatorTree BlockKey) (b : BlockKey) (i : Instruction) : Bool :=
  if i.opcode.isPhi then i.phiIncoming.all (f.isIncomingDominated defs tree)
  else i.uses.all (fun value => isDominated defs tree value b)

/-- Whether every value used in a reachable block is defined in a block that dominates the use. -/
def keepsDominance (f : Function) (tree : Graph.DominatorTree BlockKey) : Bool :=
  let defs := f.definitions
  (f.layout.filter tree.isReachable).all (fun b =>
    (f.instructions b).all (f.areUsesDominated defs tree b))

/-- Whether every block that would become unreachable is left unmentioned. -/
def orphansNothing (f : Function) (reachable proposed : KeySet BlockKey) (header : BlockKey) :
    Bool :=
  (reachable.keys.filter (fun b => !proposed.contains b)).all (fun b =>
    (f.label? b).all (fun label => !f.isMentioned label proposed (some header)))

/-- Whether the header may branch to the given labels and to nothing else. -/
def isLegalProposal (f : Function) (reachable : KeySet BlockKey) (header : BlockKey)
    (edges : List Id) : Bool :=
  f.orphansNothing reachable (f.reachableBy (f.withTargets header edges)) header
    && f.keepsDominance (f.dominatorsBy (f.withTargets header edges))

end ShaderIR.Function

namespace ShaderIR

/-- What to do with a selection header whose live target is known. -/
inductive Verdict where
  /-- Branch to the live target. -/
  | fold
  /-- Branch to the live target, but keep an edge to the merge block that is never taken. -/
  | keepMerge
  /-- Leave the header alone. -/
  | reject
deriving DecidableEq, Repr

/-- The strongest legal change to a header. -/
def Function.verdict (f : Function) (reachable : KeySet BlockKey) (header : BlockKey)
    (live merge : Id) : Verdict :=
  if f.isLegalProposal reachable header [live] then .fold
  else if live ≠ merge && f.isLegalProposal reachable header [live, merge] then .keepMerge
  else .reject

end ShaderIR
