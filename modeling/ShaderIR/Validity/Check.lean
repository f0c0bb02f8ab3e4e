import ShaderIR.FlowGraph
import ShaderIR.Module
import ShaderIR.Validity.Violation

/-!
# Checking a module

The check reads a module once from top to bottom and turns it into a list of *notes*: an id is
defined here, an id is used here, a rule is broken here.  What the notes say about definitions and
uses is then worked out from the list alone.

* `Module.notes`: the notes of a module;
* `Note.findings`: the violations among them, in order;
* `undefinedIds`: the ids that are used and never defined;
* `Module.violations`: both.
-/

namespace ShaderIR

/-- What the check remarks at one place of a module. -/
inductive Note where
  /-- An id gets its meaning. -/
  | defines (id : Id)
  /-- An id is used. -/
  | uses (id : Id)
  /-- A rule about the place itself is broken. -/
  | breaks (violation : Violation)
deriving DecidableEq, Repr

/-- A note that is made only if a rule does not hold. -/
def Note.unless (holds : Bool) (v : Violation) : List Note := if holds then [] else [.breaks v]

namespace Instruction

/-- The notes of an instruction by itself: its result, then its uses. -/
def notes (i : Instruction) : List Note :=
  i.result?.toList.map .defines ++ i.uses.map .uses

/-- The labels that an instruction names as blocks: branch targets, merge targets, phi parents. -/
def blockRefs (i : Instruction) : List Id :=
  i.branchTargets
    ++ (match i.mergeTargets? with
      | some (merge, continueTarget?) => merge :: continueTarget?.toList
      | none => [])
    ++ (if i.opcode.isPhi then i.phiIncoming.map Prod.snd else [])

end Instruction

/-! ## 1. Blocks -/

/-- The notes about the end of a block. -/
def Block.endNotes (b : Block) : List Note :=
  match b.terminator? with
  | none => [.breaks (.missingTerminator b.label)]
  | some t =>
    match b.mergeInstruction?.map Instruction.opcode with
    | some .selectionMerge =>
      Note.unless (t.opcode = .branchConditional || t.opcode = .switch)
        (.selectionMergeWithoutBranch b.label)
    | some .loopMerge =>
      Note.unless (t.opcode = .branch || t.opcode = .branchConditional)
        (.loopMergeWithoutBranch b.label)
    | _ => []

namespace Function

/-- The notes of the instruction at a position of a block. -/
def instructionNotes (f : Function) (b : Block) (position : Nat) (i : Instruction) : List Note :=
  i.notes
    ++ Note.unless (!i.opcode.isTerminator || position + 1 = b.instructions.length)
      (.misplacedTerminator b.label)
    ++ Note.unless (!i.opcode.isMerge || position + 2 = b.instructions.length)
      (.misplacedMerge b.label)
    ++ (match i.result? with
      | some phi =>
        Note.unless (!i.opcode.isPhi
          || (b.instructions.take position).all (fun prev => prev.opcode.isPhi))
          (.misplacedPhi b.label phi)
      | none => [])
    ++ i.blockRefs.flatMap (fun label =>
      Note.unless (f.blockOf? label).isSome (.unknownLabel b.label label))

/-- The notes of a block. -/
def blockNotes (f : Function) (b : Block) : List Note :=
  .defines b.label
    :: b.instructions.zipIdx.flatMap (fun e => f.instructionNotes b e.2 e.1)
    ++ b.endNotes

/-! ## 2. Phis -/

/-- The notes of a phi: its parents are predecessors, and every predecessor is a parent. -/
def phiNotes (f : Function) (g : FlowGraph) (k : BlockKey) (b : Block) (phi : Instruction) :
    List Note :=
  match phi.result? with
  | none => []
  | some result =>
    phi.phiIncoming.flatMap (fun p =>
      Note.unless ((f.blockOf? p.2).all (fun parent => g.isPredecessor parent k))
        (.phiParentNotPredecessor b.label result p.2))
    ++ (f.labelsOf (g.predecessors k)).flatMap (fun pred =>
      Note.unless (phi.phiIncoming.any (fun p => p.2 = pred))
        (.phiMissingPredecessor b.label result pred))

/-- The notes of the leading phis of a block, if it can be reached. -/
def phisNotes (f : Function) (g : FlowGraph) (live : KeySet BlockKey) (k : BlockKey) (b : Block) :
    List Note :=
  if live.contains k then b.phis.flatMap (f.phiNotes g k b) else []

/-! ## 3. Functions -/

/-- The notes of the blocks of a function with this entry. -/
def layoutNotes (f : Function) (entry : BlockKey) : List Note :=
  let g := FlowGraph.ofFunction f
  let live := f.reachable
  (f.label? entry).toList.flatMap (fun label =>
      Note.unless (g.predecessors entry).isEmpty (.entryIsBranchTarget label))
    ++ f.layout.flatMap (fun k =>
      (f.block? k).toList.flatMap (fun b => f.blockNotes b ++ f.phisNotes g live k b))

/-- The notes of a function. -/
def notes (f : Function) : List Note :=
  (f.definition :: f.params).flatMap Instruction.notes
    ++ f.entry?.toList.flatMap f.layoutNotes

end Function

/-! ## 4. Modules -/

/-- The notes of a module: its sections, then its functions. -/
def Module.notes (m : Module) : List Note :=
  m.header.flatMap Instruction.notes ++ m.functions.slots.toList.flatMap Function.notes

namespace Note

/-- The violation of an id that is not below the bound. -/
def outOfBounds (bound : UInt32) (id : Id) : List Violation :=
  if id.word < bound then [] else [.idOutOfBounds id bound]

/-- The violations that the notes show, `defined` being the ids already defined before them. -/
def findings (bound : UInt32) (defined : SortedSet Id) : List Note → List Violation
  | [] => []
  | .defines id :: rest =>
    outOfBounds bound id
      ++ (if defined.contains id then [.duplicateResult id] else [])
      ++ findings bound (defined.add id) rest
  | .uses id :: rest => outOfBounds bound id ++ findings bound defined rest
  | .breaks v :: rest => v :: findings bound defined rest

/-- The id that a note defines. -/
def defined? : Note → Option Id
  | defines id => some id
  | _ => none

/-- The id that a note says is used. -/
def used? : Note → Option Id
  | uses id => some id
  | _ => none

/-- The label that a note says names no block. -/
def unknownLabel? : Note → Option Id
  | breaks (.unknownLabel _ label) => some label
  | _ => none

end Note

/-- The ids that are used, nowhere defined and not already reported as labels, in the order of
their first use. -/
def undefinedIds (notes : List Note) : List Id :=
  let accounted := SortedSet.ofElements
    (notes.filterMap Note.defined? ++ notes.filterMap Note.unknownLabel?)
  ((notes.filterMap Note.used?).filter (fun id => !accounted.contains id)).eraseDups

namespace Module

/-- Everything that is wrong with a module, in the order in which it is met. -/
def violations (m : Module) : List Violation :=
  Note.findings m.bound SortedMap.empty m.notes ++ (undefinedIds m.notes).map .undefinedId

/-- Whether every branch of every block can be read. -/
def isReadable (m : Module) : Bool :=
  m.functions.slots.all (fun f => f.body.all (fun e => e.2.hasReadableTargets))

/-- The violations of a module, refused where a branch cannot be read. -/
def check (m : Module) : Except Fault (List Violation) :=
  if m.isReadable then .ok m.violations else .error .noBranchOperands

end Module
end ShaderIR
