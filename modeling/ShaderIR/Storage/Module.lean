import ShaderIR.Module
import ShaderIR.Storage.Codec
import ShaderIR.Whitelist

/-!
# Stored modules

How ids, instructions, blocks, functions, modules and whitelists are stored.  Ids and keys are
numbers, opcodes and capabilities are names, an operand is a record with the one field that tells
its kind, and everything else is a record of its parts.
-/

namespace ShaderIR

open Stored

/-! ## 1. Words and names -/

instance : Stored Id where
  encode id := encode id.word
  decode? d := (decode? d).map Id.mk

instance : Stored BlockKey where
  encode k := encode k.slot
  decode? d := (decode? d).map BlockKey.mk

instance : Stored Opcode where
  encode o := .text o.mnemonic
  decode? := decodeName? Opcode.ofMnemonic?

instance : Stored Capability where
  encode c := .text c.name
  decode? := decodeName? Capability.ofName?

/-! ## 2. Instructions and blocks -/

instance : Stored Operand where
  encode
    | .ref id => .fields [("Id", encode id)]
    | .literal word => .fields [("Literal", encode word)]
    | .string text => .fields [("String", encode text)]
  decode? d :=
    match d.single? with
    | some ("Id", d) => (decode? d).map .ref
    | some ("Literal", d) => (decode? d).map .literal
    | some ("String", d) => (decode? d).map .string
    | _ => none

instance : Stored Instruction where
  encode i := .fields
    [("opcode", encode i.opcode), ("type_id", encodeOptional i.type?),
      ("result_id", encodeOptional i.result?), ("operands", encode i.operands)]
  decode? d := do
    match ← d.record? ["opcode", "type_id", "result_id", "operands"] with
    | [opcode, type, result, operands] =>
      some ⟨← required? opcode, ← optional? type, ← optional? result, ← required? operands⟩
    | _ => none

instance : Stored Block where
  encode b := .fields [("label", encode b.label), ("insts", encode b.instructions)]
  decode? d := do
    match ← d.record? ["label", "insts"] with
    | [label, instructions] => some ⟨← required? label, ← required? instructions⟩
    | _ => none

/-! ## 3. Functions -/

/-- The id as the name of a field: its word in decimal. -/
def Id.storedName (id : Id) : String := Nat.repr id.word.toNat

/-- Reads an id that is used as the name of a field. -/
def decodeLabel? (name : String) : Option Id :=
  match canonicalDecimal? name with
  | some n => if n < UInt32.size then some ⟨n.toUInt32⟩ else none
  | none => none

/-- Reads a field of the index of labels. -/
def decodeLabelEntry? (entry : String × Document) : Option (Id × BlockKey) := do
  some (← decodeLabel? entry.1, ← decode? entry.2)

/-- The index of labels is stored as a record with a field per label. -/
instance : Stored (SortedMap Id BlockKey) where
  encode m := .fields (m.entries.map (fun e => (e.1.storedName, encode e.2)))
  decode?
    | .fields entries => (entries.mapM decodeLabelEntry?).map SortedMap.ofList
    | _ => none

instance : Stored Function where
  encode f := .fields
    [("id", encode f.id), ("def", encode f.definition), ("params", encode f.params),
      ("blocks", encode f.blocks), ("layout", encode f.layout), ("labels", encode f.labels)]
  decode? d := do
    match ← d.record? ["id", "def", "params", "blocks", "layout", "labels"] with
    | [id, definition, params, blocks, layout, labels] =>
      some ⟨← required? id, ← required? definition, ← required? params, ← required? blocks,
        ← required? layout, ← required? labels⟩
    | _ => none

/-! ## 4. Modules and whitelists -/

instance : Stored Module where
  encode m := .fields
    [("capabilities", encode m.capabilities), ("extensions", encode m.extensions),
      ("ext_inst_imports", encode m.imports), ("memory_model", encodeOptional m.memoryModel),
      ("entry_points", encode m.entryPoints), ("execution_modes", encode m.executionModes),
      ("debug", encode m.debug), ("annotations", encode m.annotations),
      ("types_values", encode m.globals), ("functions", encode m.functions),
      ("id_bound", encode m.bound)]
  decode? d := do
    match ← d.record? ["capabilities", "extensions", "ext_inst_imports", "memory_model",
        "entry_points", "execution_modes", "debug", "annotations", "types_values", "functions",
        "id_bound"] with
    | [capabilities, extensions, imports, memoryModel, entryPoints, executionModes, debug,
        annotations, globals, functions, bound] =>
      some ⟨← required? capabilities, ← required? extensions, ← required? imports,
        ← optional? memoryModel, ← required? entryPoints, ← required? executionModes,
        ← required? debug, ← required? annotations, ← required? globals, ← required? functions,
        ← required? bound⟩
    | _ => none

instance : Stored Whitelist where
  encode w := encode w.names.keys
  decode? d := (decode? d).map Whitelist.ofNames

end ShaderIR
