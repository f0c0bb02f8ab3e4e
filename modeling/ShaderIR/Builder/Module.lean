import ShaderIR.Module

/-!
# Building modules

A `ModuleBuilder` is a computation over the module under construction.  Whatever defines something
takes the id for it from the module, so that ids never have to be managed by hand.  A step that
fails keeps what was done before it failed; an id taken by then is used up.
-/

namespace ShaderIR

/-- A step in building a module. -/
abbrev ModuleBuilder (α : Type) := EStateM Fault Module α

namespace ModuleBuilder

/-- The module a shader starts with: the capability and a logical memory model. -/
def shader : Module :=
  (Module.empty.append .capabilities ⟨.capability, none, none, [.literal Capability.shader.number]⟩)
    |>.append .memoryModel ⟨.memoryModel, none, none, [.literal 0, .literal 1]⟩

/-- An operation on the module as a step. -/
def ofOperation {α : Type} (op : Module → Except Fault (α × Module)) : ModuleBuilder α := fun m =>
  match op m with
  | .ok (a, m) => .ok a m
  | .error e => .error e m

/-- Takes a fresh id. -/
def id : ModuleBuilder Id := ofOperation Module.allocateId

/-- Adds an instruction to a section. -/
def push (s : Section) (i : Instruction) : ModuleBuilder Unit :=
  ofOperation (fun m => (m.push s i).map (fun m => ((), m)))

/-- Declares a capability. -/
def capability (c : Capability) : ModuleBuilder Unit :=
  push .capabilities ⟨.capability, none, none, [.literal c.number]⟩

/-- Declares an extension. -/
def extension (name : String) : ModuleBuilder Unit :=
  push .extensions ⟨.extension, none, none, [.string name]⟩

/-! ## 1. Globals -/

/-- Adds a global with a fresh id. -/
def global (opcode : Opcode) (type? : Option Id) (operands : List Operand) : ModuleBuilder Id := do
  let result ← id
  push .globals ⟨opcode, type?, some result, operands⟩
  return result

/-- The type without values. -/
def typeVoid : ModuleBuilder Id := global .typeVoid none []

/-- The type of booleans. -/
def typeBool : ModuleBuilder Id := global .typeBool none []

/-- A type of integers. -/
def typeInt (width : UInt32) (signed : Bool) : ModuleBuilder Id :=
  global .typeInt none [.literal width, .literal (if signed then 1 else 0)]

/-- A type of functions. -/
def typeFunction (ret : Id) (params : List Id) : ModuleBuilder Id :=
  global .typeFunction none ((ret :: params).map .ref)

/-- The constant `true`. -/
def constantTrue (type : Id) : ModuleBuilder Id := global .constantTrue (some type) []

/-- The constant `false`. -/
def constantFalse (type : Id) : ModuleBuilder Id := global .constantFalse (some type) []

/-- A constant of one word. -/
def constantWord (type : Id) (value : UInt32) : ModuleBuilder Id :=
  global .constant (some type) [.literal value]

/-- The null constant of a type. -/
def constantNull (type : Id) : ModuleBuilder Id := global .constantNull (some type) []

/-- A boolean that is known only at specialization, `true` by default. -/
def specConstantTrue (type : Id) : ModuleBuilder Id := global .specConstantTrue (some type) []

/-- An undefined value. -/
def undef (type : Id) : ModuleBuilder Id := global .undef (some type) []

/-! ## 2. Names, decorations, entry points -/

/-- Names an id. -/
def name (target : Id) (text : String) : ModuleBuilder Unit :=
  push .debug ⟨.name, none, none, [.ref target, .string text]⟩

/-- Decorates an id. -/
def decorate (target : Id) (decoration : UInt32) : ModuleBuilder Unit :=
  push .annotations ⟨.decorate, none, none, [.ref target, .literal decoration]⟩

/-- Makes a group with a decoration and applies it to the targets. -/
def groupDecorate (decoration : UInt32) (targets : List Id) : ModuleBuilder Id := do
  let group ← id
  decorate group decoration
  push .annotations ⟨.decorationGroup, none, some group, []⟩
  push .annotations ⟨.groupDecorate, none, none, (group :: targets).map .ref⟩
  return group

/-- Makes a function the entry point of a fragment shader. -/
def entryPoint (function : Id) (text : String) : ModuleBuilder Unit :=
  push .entryPoints ⟨.entryPoint, none, none, [.literal 4, .ref function, .string text]⟩

end ModuleBuilder
end ShaderIR
