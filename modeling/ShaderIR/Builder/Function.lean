import ShaderIR.Builder.Module

/-!
# Building functions

A `FunctionDraft` is a function that is not yet part of its module.  Steps append to the block the
draft is switched to; ids come from the module, which gets the function when the draft is defined.
-/

namespace ShaderIR

/-- A function under construction. -/
structure FunctionDraft where
  /-- The module the ids come from. -/
  module : Module
  /-- The function so far. -/
  function : Function
  /-- The block that is appended to. -/
  current? : Option BlockKey

namespace FunctionDraft

/-- Starts a function, which takes a fresh id. -/
def start (m : Module) (ret type : Id) : Except Fault FunctionDraft := do
  let (id, m) ← m.allocateId
  .ok ⟨m, .new id ret type, none⟩

/-- Adds the function to the module. -/
def define (d : FunctionDraft) : Except Fault (FunctionKey × Module) :=
  d.module.pushFunction d.function

end FunctionDraft

/-- A step in building a function. -/
abbrev FunctionBuilder (α : Type) := EStateM Fault FunctionDraft α

namespace FunctionBuilder

/-- An operation on the draft as a step. -/
def ofOperation {α : Type} (op : FunctionDraft → Except Fault (α × FunctionDraft)) :
    FunctionBuilder α := fun d =>
  match op d with
  | .ok (a, d) => .ok a d
  | .error e => .error e d

/-- Takes a fresh id. -/
def id : FunctionBuilder Id :=
  ofOperation (fun d => d.module.allocateId.map (fun r => (r.1, { d with module := r.2 })))

/-- The id of the function. -/
def functionId : FunctionBuilder Id := ofOperation (fun d => .ok (d.function.id, d))

/-- The number of blocks. -/
def blockCount : FunctionBuilder Nat := ofOperation (fun d => .ok (d.function.layout.length, d))

/-- The label of a block. -/
def label (b : BlockKey) : FunctionBuilder Id :=
  ofOperation (fun d => (d.function.block b).map (fun block => (block.label, d)))

/-- Adds a parameter. -/
def param (type : Id) : FunctionBuilder Id := do
  let result ← id
  ofOperation (fun d =>
    (d.function.pushParam ⟨.functionParameter, some type, some result, []⟩).map
      (fun f => (result, { d with function := f })))

/-- Adds a block with a fresh label.  The draft is not switched to it. -/
def createBlock : FunctionBuilder BlockKey := do
  let fresh ← id
  ofOperation (fun d =>
    (d.function.appendBlock fresh).map (fun r => (r.1, { d with function := r.2 })))

/-- Switches to a block of the layout. -/
def switchTo (b : BlockKey) : FunctionBuilder Unit :=
  ofOperation (fun d =>
    if d.function.isInserted b then .ok ((), { d with current? := some b })
    else .error .notInLayout)

/-! ## 1. Instructions -/

/-- Appends an instruction to the current block. -/
def append (i : Instruction) : FunctionBuilder Unit :=
  ofOperation (fun d =>
    match d.current? with
    | some b => (d.function.editBlock b (fun block => block.push i)).map
        (fun f => ((), { d with function := f }))
    | none => .error .noCurrentBlock)

/-- Appends an instruction without a result. -/
def instruction (opcode : Opcode) (operands : List Operand) : FunctionBuilder Unit :=
  append ⟨opcode, none, none, operands⟩

/-- Appends an instruction with a result. -/
def value (opcode : Opcode) (type : Id) (operands : List Operand) : FunctionBuilder Id := do
  let result ← id
  append ⟨opcode, some type, some result, operands⟩
  return result

/-- Calls a function. -/
def call (ret callee : Id) (args : List Id) : FunctionBuilder Id :=
  value .functionCall ret ((callee :: args).map .ref)

/-- Appends a phi with values from blocks. -/
def phi (type : Id) (incoming : List (Id × BlockKey)) : FunctionBuilder Id := do
  let result ← id
  let pairs ← incoming.mapM (fun p => do return (p.1, ← label p.2))
  append (.phi type result pairs)
  return result

/-- Declares the merge block of a selection. -/
def selectionMerge (merge : BlockKey) : FunctionBuilder Unit := do
  append (.selectionMerge (← label merge))

/-- Declares the merge block and the continue target of a loop. -/
def loopMerge (merge continueTarget : BlockKey) : FunctionBuilder Unit := do
  append (.loopMerge (← label merge) (← label continueTarget))

/-- Branches to a block. -/
def branch (target : BlockKey) : FunctionBuilder Unit := do
  append (.branch (← label target))

/-- Branches on a condition. -/
def branchConditional (cond : Id) (ifTrue ifFalse : BlockKey) : FunctionBuilder Unit := do
  append (.branchConditional cond (← label ifTrue) (← label ifFalse))

/-- Branches on a word. -/
def switch (selector : Id) (default : BlockKey) (cases : List (UInt32 × BlockKey)) :
    FunctionBuilder Unit := do
  let default ← label default
  let cases ← cases.mapM (fun c => do return (c.1, ← label c.2))
  append (.switch selector default cases)

/-- Returns. -/
def ret : FunctionBuilder Unit := append .ret

/-- Ends the invocation. -/
def kill : FunctionBuilder Unit := instruction .kill []

/-- Marks the end of the block as unreachable. -/
def unreachable : FunctionBuilder Unit := append .unreachable

end FunctionBuilder
end ShaderIR
