/-!
# Opcodes

The instructions of the module format that the library knows, with the number and the mnemonic of
each, and the classes the rest of the library asks about.
-/

namespace ShaderIR

/-- What an instruction does. -/
inductive Opcode where
  | nop | undef | source | name | memberName | string | line | extension | extInstImport
  | extInst | memoryModel | entryPoint | executionMode | capability | typeVoid | typeBool
  | typeInt | typeFloat | typeVector | typeStruct | typePointer | typeFunction | constantTrue
  | constantFalse | constant | constantComposite | constantNull | specConstantTrue
  | specConstantFalse | specConstant | function | functionParameter | functionEnd | functionCall
  | var | load | store | accessChain | decorate | memberDecorate | decorationGroup
  | groupDecorate | groupMemberDecorate | compositeExtract | iAdd | fAdd | iSub | iMul
  | logicalOr | logicalAnd | logicalNot | select | iEqual | iNotEqual | sLessThan | fOrdLessThan
  | phi | loopMerge | selectionMerge | label | branch | branchConditional | switch | kill | ret
  | retValue | unreachable
deriving DecidableEq, Repr

namespace Opcode

/-- The number of the opcode in the module format. -/
def number : Opcode → Nat
  | nop => 0
  | undef => 1
  | source => 3
  | name => 5
  | memberName => 6
  | string => 7
  | line => 8
  | extension => 10
  | extInstImport => 11
  | extInst => 12
  | memoryModel => 14
  | entryPoint => 15
  | executionMode => 16
  | capability => 17
  | typeVoid => 19
  | typeBool => 20
  | typeInt => 21
  | typeFloat => 22
  | typeVector => 23
  | typeStruct => 30
  | typePointer => 32
  | typeFunction => 33
  | constantTrue => 41
  | constantFalse => 42
  | constant => 43
  | constantComposite => 44
  | constantNull => 46
  | specConstantTrue => 48
  | specConstantFalse => 49
  | specConstant => 50
  | function => 54
  | functionParameter => 55
  | functionEnd => 56
  | functionCall => 57
  | var => 59
  | load => 61
  | store => 62
  | accessChain => 65
  | decorate => 71
  | memberDecorate => 72
  | decorationGroup => 73
  | groupDecorate => 74
  | groupMemberDecorate => 75
  | compositeExtract => 81
  | iAdd => 128
  | fAdd => 129
  | iSub => 130
  | iMul => 132
  | logicalOr => 166
  | logicalAnd => 167
  | logicalNot => 168
  | select => 169
  | iEqual => 170
  | iNotEqual => 171
  | sLessThan => 177
  | fOrdLessThan => 184
  | phi => 245
  | loopMerge => 246
  | selectionMerge => 247
  | label => 248
  | branch => 249
  | branchConditional => 250
  | switch => 251
  | kill => 252
  | ret => 253
  | retValue => 254
  | unreachable => 255

/-- The name of the opcode; in a listing it follows `Op`. -/
def mnemonic : Opcode → String
  | nop => "Nop"
  | undef => "Undef"
  | source => "Source"
  | name => "Name"
  | memberName => "MemberName"
  | string => "String"
  | line => "Line"
  | extension => "Extension"
  | extInstImport => "ExtInstImport"
  | extInst => "ExtInst"
  | memoryModel => "MemoryModel"
  | entryPoint => "EntryPoint"
  | executionMode => "ExecutionMode"
  | capability => "Capability"
  | typeVoid => "TypeVoid"
  | typeBool => "TypeBool"
  | typeInt => "TypeInt"
  | typeFloat => "TypeFloat"
  | typeVector => "TypeVector"
  | typeStruct => "TypeStruct"
  | typePointer => "TypePointer"
  | typeFunction => "TypeFunction"
  | constantTrue => "ConstantTrue"
  | constantFalse => "ConstantFalse"
  | constant => "Constant"
  | constantComposite => "ConstantComposite"
  | constantNull => "ConstantNull"
  | specConstantTrue => "SpecConstantTrue"
  | specConstantFalse => "SpecConstantFalse"
  | specConstant => "SpecConstant"
  | function => "Function"
  | functionParameter => "FunctionParameter"
  | functionEnd => "FunctionEnd"
  | functionCall => "FunctionCall"
  | var => "Variable"
  | load => "Load"
  | store => "Store"
  | accessChain => "AccessChain"
  | decorate => "Decorate"
  | memberDecorate => "MemberDecorate"
  | decorationGroup => "DecorationGroup"
  | groupDecorate => "GroupDecorate"
  | groupMemberDecorate => "GroupMemberDecorate"
  | compositeExtract => "CompositeExtract"
  | iAdd => "IAdd"
  | fAdd => "FAdd"
  | iSub => "ISub"
  | iMul => "IMul"
  | logicalOr => "LogicalOr"
  | logicalAnd => "LogicalAnd"
  | logicalNot => "LogicalNot"
  | select => "Select"
  | iEqual => "IEqual"
  | iNotEqual => "INotEqual"
  | sLessThan => "SLessThan"
  | fOrdLessThan => "FOrdLessThan"
  | phi => "Phi"
  | loopMerge => "LoopMerge"
  | selectionMerge => "SelectionMerge"
  | label => "Label"
  | branch => "Branch"
  | branchConditional => "BranchConditional"
  | switch => "Switch"
  | kill => "Kill"
  | ret => "Return"
  | retValue => "ReturnValue"
  | unreachable => "Unreachable"

/-- Every opcode, by increasing number. -/
def all : List Opcode :=
  [.nop, .undef, .source, .name, .memberName, .string, .line, .extension, .extInstImport,
   .extInst, .memoryModel, .entryPoint, .executionMode, .capability, .typeVoid, .typeBool,
   .typeInt, .typeFloat, .typeVector, .typeStruct, .typePointer, .typeFunction, .constantTrue,
   .constantFalse, .constant, .constantComposite, .constantNull, .specConstantTrue,
   .specConstantFalse, .specConstant, .function, .functionParameter, .functionEnd, .functionCall,
   .var, .load, .store, .accessChain, .decorate, .memberDecorate, .decorationGroup,
   .groupDecorate, .groupMemberDecorate, .compositeExtract, .iAdd, .fAdd, .iSub, .iMul,
   .logicalOr, .logicalAnd, .logicalNot, .select, .iEqual, .iNotEqual, .sLessThan, .fOrdLessThan,
   .phi, .loopMerge, .selectionMerge, .label, .branch, .branchConditional, .switch, .kill, .ret,
   .retValue, .unreachable]

/-- The opcode with a mnemonic. -/
def ofMnemonic? (name : String) : Option Opcode := all.find? (fun o => o.mnemonic = name)

/-- Ends a block. -/
def isTerminator : Opcode → Bool
  | .branch | .branchConditional | .switch | .kill | .ret | .retValue | .unreachable => true
  | _ => false

/-- Declares the merge block of a construct. -/
def isMerge : Opcode → Bool
  | .selectionMerge | .loopMerge => true
  | _ => false

/-- Chooses a value by the block control came from. -/
def isPhi : Opcode → Bool
  | .phi => true
  | _ => false

/-- Belongs into the section of annotations. -/
def isDecoration : Opcode → Bool
  | .decorate | .memberDecorate | .decorationGroup | .groupDecorate | .groupMemberDecorate => true
  | _ => false

/-- Belongs into the section of names, strings and sources. -/
def isDebug : Opcode → Bool
  | .source | .name | .memberName | .string => true
  | _ => false

/-- Declares a type. -/
def isType : Opcode → Bool
  | .typeVoid | .typeBool | .typeInt | .typeFloat | .typeVector | .typeStruct | .typePointer
  | .typeFunction => true
  | _ => false

/-- Declares a constant, a specialization constant included. -/
def isConstant : Opcode → Bool
  | .constantTrue | .constantFalse | .constant | .constantComposite | .constantNull
  | .specConstantTrue | .specConstantFalse | .specConstant => true
  | _ => false

/-- The list of opcodes leaves none out. -/
theorem mem_all (o : Opcode) : o ∈ all := by cases o <;> decide

/-- The mnemonic determines the opcode. -/
@[simp] theorem ofMnemonic?_mnemonic (o : Opcode) : ofMnemonic? o.mnemonic = some o := by
  cases o <;> decide

end Opcode
end ShaderIR
