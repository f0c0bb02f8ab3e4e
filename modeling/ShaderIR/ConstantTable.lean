import ShaderIR.Module

/-!
# Known constants

A snapshot of the literal booleans and 32-bit integers among the globals of a module.  The table
resolves branch conditions, and it is where a new `true` or undefined value comes from when a
transformation needs one: what it creates is queued until it is taken and pushed to the module.

* `ConstantTable.ofModule`: the snapshot;
* `takenTarget?`: where a branch on a known constant always goes;
* `trueConstant`, `undef`, `takeNewGlobals`: making new globals.
-/

namespace ShaderIR

/-- The constants known at compile time, and the globals created so far. -/
structure ConstantTable where
  /-- The literal booleans. -/
  bools : SortedMap Id Bool
  /-- The literal 32-bit integers. -/
  ints : SortedMap Id UInt32
  /-- The type of booleans. -/
  boolType? : Option Id
  /-- The constant `true`. -/
  true? : Option Id
  /-- The undefined value of each type. -/
  undefs : SortedMap Id Id
  /-- Globals that the module does not have yet. -/
  newGlobals : List Instruction
deriving DecidableEq

namespace ConstantTable

/-- The table that knows nothing. -/
def empty : ConstantTable where
  bools := SortedMap.empty
  ints := SortedMap.empty
  boolType? := none
  true? := none
  undefs := SortedMap.empty
  newGlobals := []

instance : Inhabited ConstantTable := ⟨empty⟩

/-! ## 1. The snapshot -/

/-- Whether a global declares a 32-bit integer type. -/
def isInt32Type (i : Instruction) : Bool := i.opcode = .typeInt && i.literalOperand? 0 = some 32

/-- The value of an integer constant: its word, or zero for a null constant. -/
def intValue? (i : Instruction) : Option UInt32 :=
  match i.opcode with
  | .constant => i.literalOperand? 0
  | .constantNull => some 0
  | _ => none

/-- The table after one more global.  `int32s` are the 32-bit integer types seen so far; a constant
counts only if its type comes before it. -/
def addGlobal (state : ConstantTable × List Id) (i : Instruction) : ConstantTable × List Id :=
  let (t, int32s) := state
  match i.result? with
  | none => state
  | some result =>
    match i.opcode with
    | .typeBool => ({ t with boolType? := t.boolType?.or (some result) }, int32s)
    | .typeInt => if isInt32Type i then (t, result :: int32s) else state
    | .constantTrue =>
      ({ t with bools := t.bools.insert result true, true? := t.true?.or (some result) }, int32s)
    | .constantFalse => ({ t with bools := t.bools.insert result false }, int32s)
    | .constant | .constantNull =>
      match i.type?, intValue? i with
      | some type, some value =>
        if int32s.contains type then ({ t with ints := t.ints.insert result value }, int32s)
        else state
      | _, _ => state
    | .undef =>
      match i.type? with
      | some type => ({ t with undefs := t.undefs.insertIfNew type result }, int32s)
      | none => state
    | _ => state

/-- The constants of a module. -/
def ofModule (m : Module) : ConstantTable := (m.globals.foldl addGlobal (empty, [])).1

/-! ## 2. Resolving -/

/-- The value of a literal boolean. -/
def bool? (t : ConstantTable) (id : Id) : Option Bool := t.bools.get? id

/-- The value of a literal 32-bit integer. -/
def int? (t : ConstantTable) (id : Id) : Option UInt32 := t.ints.get? id

/-- The label of the first case with a value. -/
def caseLabel? (cases : List (Operand × Operand)) (value : UInt32) : Option Id :=
  (cases.find? (fun c => c.1.literal? = some value)).bind (fun c => c.2.id?)

/-- Where a branch always goes, if its condition or selector is a known constant.  A switch without
a matching case, or whose matching case has no label, goes to the default. -/
def takenTarget? (t : ConstantTable) (branch : Instruction) : Option Id :=
  match branch.opcode with
  | .branchConditional => do
    let value ← t.bool? (← branch.idOperand? 0)
    branch.idOperand? (if value then 1 else 2)
  | .switch => do
    let value ← t.int? (← branch.idOperand? 0)
    (caseLabel? branch.switchCases value).or (branch.idOperand? 1)
  | _ => none

/-! ## 3. New globals -/

/-- The type of booleans, created if there is none. -/
def boolType (t : ConstantTable) (ids : IdSupply) : Except Fault (Id × ConstantTable × IdSupply) :=
  match t.boolType? with
  | some type => .ok (type, t, ids)
  | none => do
    let (type, ids) ← ids.take
    .ok (type, { t with
      boolType? := some type
      newGlobals := t.newGlobals ++ [⟨.typeBool, none, some type, []⟩] }, ids)

/-- The constant `true`, created if there is none. -/
def trueConstant (t : ConstantTable) (ids : IdSupply) :
    Except Fault (Id × ConstantTable × IdSupply) :=
  match t.true? with
  | some id => .ok (id, t, ids)
  | none => do
    let (type, t, ids) ← t.boolType ids
    let (id, ids) ← ids.take
    .ok (id, { t with
      bools := t.bools.insert id true
      true? := some id
      newGlobals := t.newGlobals ++ [⟨.constantTrue, some type, some id, []⟩] }, ids)

/-- The undefined value of a type, created if there is none. -/
def undef (t : ConstantTable) (type : Id) (ids : IdSupply) :
    Except Fault (Id × ConstantTable × IdSupply) :=
  match t.undefs.get? type with
  | some id => .ok (id, t, ids)
  | none => do
    let (id, ids) ← ids.take
    .ok (id, { t with
      undefs := t.undefs.insert type id
      newGlobals := t.newGlobals ++ [⟨.undef, some type, some id, []⟩] }, ids)

/-- Takes the globals created so far, in the order they were created. -/
def takeNewGlobals (t : ConstantTable) : List Instruction × ConstantTable :=
  (t.newGlobals, { t with newGlobals := [] })

end ConstantTable
end ShaderIR
