import ShaderIR.Id
import ShaderIR.Opcode
import ShaderIR.Operand

/-!
# Instructions

An instruction has an opcode, an optional result type, an optional result and a list of operands.
Nothing ties the operands to the opcode: the readers below (`branchTargets`, `mergeTargets?`,
`phiIncoming`, ...) take from any operand list what fits and pass over the rest.

* `uses`: every id the instruction mentions;
* `branchTargets`: where control may go next;
* `phiIncoming`, `retainIncoming`: the (value, parent) pairs of a phi.
-/

namespace ShaderIR

/-- Cuts a list into consecutive pairs; an odd last element is left out. -/
def pairs {α : Type} : List α → List (α × α)
  | a :: b :: rest => (a, b) :: pairs rest
  | _ => []

/-- Lists the members of pairs one after the other. -/
def unpair {α : Type} (ps : List (α × α)) : List α := ps.flatMap (fun p => [p.1, p.2])

@[simp] theorem pairs_unpair {α : Type} (ps : List (α × α)) : pairs (unpair ps) = ps := by
  induction ps with
  | nil => rfl
  | cons p ps ih => simpa [unpair, pairs] using ih

/-- Every other element of a list, from the first on. -/
def everyOther {α : Type} : List α → List α
  | a :: _ :: rest => a :: everyOther rest
  | as => as

/-- One instruction. -/
structure Instruction where
  /-- What it does. -/
  opcode : Opcode
  /-- The type of its result. -/
  type? : Option Id
  /-- The id it defines. -/
  result? : Option Id
  /-- What it is applied to. -/
  operands : List Operand
deriving DecidableEq, Repr

namespace Instruction

/-! ## 1. The instructions that steer control -/

/-- `OpBranch target`. -/
def branch (target : Id) : Instruction := ⟨.branch, none, none, [.ref target]⟩

/-- `OpBranchConditional cond ifTrue ifFalse`. -/
def branchConditional (cond ifTrue ifFalse : Id) : Instruction :=
  ⟨.branchConditional, none, none, [.ref cond, .ref ifTrue, .ref ifFalse]⟩

/-- `OpSwitch selector default` and the cases, each a literal and a label. -/
def switch (selector default : Id) (cases : List (UInt32 × Id)) : Instruction :=
  ⟨.switch, none, none,
    .ref selector :: .ref default :: unpair (cases.map (fun c => (.literal c.1, .ref c.2)))⟩

/-- `OpSelectionMerge merge`. -/
def selectionMerge (merge : Id) : Instruction :=
  ⟨.selectionMerge, none, none, [.ref merge, .literal 0]⟩

/-- `OpLoopMerge merge continue`. -/
def loopMerge (merge continueTarget : Id) : Instruction :=
  ⟨.loopMerge, none, none, [.ref merge, .ref continueTarget, .literal 0]⟩

/-- `OpPhi` of a type with its (value, parent) pairs. -/
def phi (type result : Id) (incoming : List (Id × Id)) : Instruction :=
  ⟨.phi, some type, some result, unpair (incoming.map (fun p => (.ref p.1, .ref p.2)))⟩

/-- `OpReturn`. -/
def ret : Instruction := ⟨.ret, none, none, []⟩

/-- `OpUnreachable`. -/
def unreachable : Instruction := ⟨.unreachable, none, none, []⟩

/-! ## 2. Operands and uses -/

/-- The operand at an index, if it is a reference. -/
def idOperand? (i : Instruction) (index : Nat) : Option Id := i.operands[index]?.bind Operand.id?

/-- The operand at an index, if it is a literal word. -/
def literalOperand? (i : Instruction) (index : Nat) : Option UInt32 :=
  i.operands[index]?.bind Operand.literal?

/-- The operand at an index, if it is a literal string. -/
def stringOperand? (i : Instruction) (index : Nat) : Option String :=
  i.operands[index]?.bind Operand.string?

/-- Every id the instruction mentions: its type first, then its references. -/
def uses (i : Instruction) : List Id := i.type?.toList ++ i.operands.filterMap Operand.id?

/-- Whether the instruction mentions an id. -/
def mentions (i : Instruction) (id : Id) : Bool := i.uses.contains id

/-- Puts `new` in the place of every reference to `old`.  The type stays. -/
def replaceUses (i : Instruction) (old new : Id) : Instruction :=
  { i with operands := i.operands.map (Operand.replace old new) }

/-- Whether `replaceUses` has anything to replace. -/
def refersTo (i : Instruction) (old : Id) : Bool := i.operands.contains (.ref old)

/-! ## 3. Branches and merges -/

/-- The (literal, label) operands of a switch. -/
def switchCases (i : Instruction) : List (Operand × Operand) := pairs (i.operands.drop 2)

/-- The labels control may go to next, in operand order.  A conditional branch needs at least its
condition to be readable (`hasReadableTargets`); without one it goes nowhere.  A switch has the
labels of its cases at every other operand from the fourth on. -/
def branchTargets (i : Instruction) : List Id :=
  match i.opcode with
  | .branch => (i.idOperand? 0).toList
  | .branchConditional => ((i.operands.drop 1).take 2).filterMap Operand.id?
  | .switch => (i.idOperand? 1).toList ++ (everyOther (i.operands.drop 3)).filterMap Operand.id?
  | _ => []

/-- Whether the branch targets can be read: a conditional branch has at least one operand. -/
def hasReadableTargets (i : Instruction) : Bool :=
  !(i.opcode = .branchConditional && i.operands.isEmpty)

/-- The labels control may go to next, refused where they cannot be read. -/
def readTargets (i : Instruction) : Except Fault (List Id) :=
  if i.hasReadableTargets then .ok i.branchTargets else .error .noBranchOperands

/-- The merge block a merge declaration names and, for a loop, the continue target. -/
def mergeTargets? (i : Instruction) : Option (Id × Option Id) :=
  match i.opcode with
  | .selectionMerge => (i.idOperand? 0).map (fun merge => (merge, none))
  | .loopMerge => do
    let merge ← i.idOperand? 0
    let continueTarget ← i.idOperand? 1
    some (merge, some continueTarget)
  | _ => none

/-! ## 4. Phis -/

/-- The pair of ids in a pair of operands. -/
def incomingPair? (p : Operand × Operand) : Option (Id × Id) := do
  let value ← p.1.id?
  let parent ← p.2.id?
  some (value, parent)

/-- The (value, parent) pairs of a phi, in order.  A pair that is not made of two ids is left
out. -/
def phiIncoming (i : Instruction) : List (Id × Id) := (pairs i.operands).filterMap incomingPair?

/-- Keeps the pairs of a phi that satisfy `keep`.  A pair that is not made of two ids stays; an odd
last operand goes. -/
def retainIncoming (i : Instruction) (keep : Id → Id → Bool) : Instruction :=
  { i with
    operands := unpair ((pairs i.operands).filter
      (fun p => match incomingPair? p with
        | some (value, parent) => keep value parent
        | none => true)) }

/-- How many pairs of operands `retainIncoming` drops. -/
def droppedIncoming (i : Instruction) (keep : Id → Id → Bool) : Nat :=
  i.operands.length / 2 - (i.retainIncoming keep).operands.length / 2

/-- Appends a (value, parent) pair to a phi. -/
def pushIncoming (i : Instruction) (value parent : Id) : Instruction :=
  { i with operands := i.operands ++ [.ref value, .ref parent] }

/-- Refuses an instruction that is not a phi. -/
def asPhi (i : Instruction) : Except Fault Instruction :=
  if i.opcode.isPhi then .ok i else .error .notAPhi

/-! ## 5. The text of an instruction -/

/-- The text, at least `width` characters wide, blanks to the left. -/
def padLeft (width : Nat) (s : String) : String :=
  String.ofList (List.replicate (width - s.length) ' ') ++ s

/-- The left column of a listing: the result and an equals sign, or blanks. -/
def resultColumn : Option Id → String
  | some result => padLeft 5 result.text ++ " = "
  | none => "        "

/-- The instruction as a listing shows it, without the end of the line. -/
def text (i : Instruction) : String :=
  resultColumn i.result? ++ "Op" ++ i.opcode.mnemonic
    ++ String.join (i.type?.toList.map (fun t => " " ++ t.text))
    ++ String.join (i.operands.map (fun o => " " ++ o.text))

end Instruction
end ShaderIR
