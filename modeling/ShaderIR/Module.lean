import ShaderIR.Capability
import ShaderIR.Function
import ShaderIR.Id

/-!
# Modules

A module has nine sections of instructions in a fixed order, the functions, and the id bound, below
which every id in use lies.

* `Section.accepts`: which opcodes a section takes;
* `Module.push`, `Module.pushFunction`: adding to a module;
* `Module.supply`, `Module.adopt`: taking an id supply out and giving it back.
-/

namespace ShaderIR

/-- The key of a function inside its module. -/
structure FunctionKey where
  /-- The place in the arena. -/
  slot : UInt32
deriving DecidableEq, Repr

instance : ArenaKey FunctionKey :=
  .wrapping FunctionKey.mk FunctionKey.slot (fun _ => rfl) (fun _ => rfl)

/-! ## 1. Sections -/

/-- The sections of a module that stand before its functions. -/
inductive Section where
  | capabilities | extensions | imports | memoryModel | entryPoints | executionModes | debug
  | annotations | globals
deriving DecidableEq, Repr

namespace Section

/-- The sections in the order a module has them. -/
def all : List Section :=
  [capabilities, extensions, imports, memoryModel, entryPoints, executionModes, debug, annotations,
    globals]

/-- Whether an instruction with this opcode belongs into the section. -/
def accepts : Section → Opcode → Bool
  | capabilities, o => o = .capability
  | extensions, o => o = .extension
  | imports, o => o = .extInstImport
  | memoryModel, o => o = .memoryModel
  | entryPoints, o => o = .entryPoint
  | executionModes, o => o = .executionMode
  | debug, o => o.isDebug
  | annotations, o => o.isDecoration
  | globals, _ => true

end Section

/-! ## 2. Modules -/

/-- A module. -/
structure Module where
  /-- What the module needs. -/
  capabilities : List Instruction
  /-- The extensions it uses. -/
  extensions : List Instruction
  /-- The instruction sets it imports. -/
  imports : List Instruction
  /-- Its memory model. -/
  memoryModel : Option Instruction
  /-- The functions a program may be started at. -/
  entryPoints : List Instruction
  /-- How they are to be run. -/
  executionModes : List Instruction
  /-- Names, strings and sources. -/
  debug : List Instruction
  /-- Decorations. -/
  annotations : List Instruction
  /-- Types, constants and global variables. -/
  globals : List Instruction
  /-- The functions. -/
  functions : Arena FunctionKey Function
  /-- Every id in use is smaller. -/
  bound : UInt32
deriving DecidableEq

namespace Module

/-- The module without instructions. -/
def empty : Module where
  capabilities := []
  extensions := []
  imports := []
  memoryModel := none
  entryPoints := []
  executionModes := []
  debug := []
  annotations := []
  globals := []
  functions := Arena.empty
  bound := 1

/-- The instructions of a section. -/
def inSection (m : Module) : Section → List Instruction
  | .capabilities => m.capabilities
  | .extensions => m.extensions
  | .imports => m.imports
  | .memoryModel => m.memoryModel.toList
  | .entryPoints => m.entryPoints
  | .executionModes => m.executionModes
  | .debug => m.debug
  | .annotations => m.annotations
  | .globals => m.globals

/-- The instructions of all sections, in order. -/
def header (m : Module) : List Instruction := Section.all.flatMap m.inSection

/-! ## 3. Reading -/

/-- Whether the module declares a capability. -/
def hasCapability (m : Module) (c : Capability) : Bool :=
  m.capabilities.any (fun i => i.literalOperand? 0 = some c.number)

/-- The names of the extensions the module declares. -/
def extensionNames (m : Module) : List String :=
  m.extensions.filterMap (fun i => i.stringOperand? 0)

/-- Whether an annotation has this opcode. -/
def hasAnnotation (m : Module) (o : Opcode) : Bool := m.annotations.any (fun i => i.opcode = o)

/-- The global that defines an id. -/
def global? (m : Module) (id : Id) : Option Instruction :=
  m.globals.find? (fun i => i.result? = some id)

/-- The ids of the functions that the entry points name, in order. -/
def entryPointFunctions (m : Module) : List Id := m.entryPoints.filterMap (fun i => i.idOperand? 1)

/-- The keys of the functions, in order. -/
def functionKeys (m : Module) : List FunctionKey := m.functions.keys

/-- The function of a key. -/
def function? (m : Module) (k : FunctionKey) : Option Function := m.functions.get? k

/-- The function of a key, refused where the key was never handed out. -/
def function (m : Module) (k : FunctionKey) : Except Fault Function := m.functions.get k

/-- The function with a result id. -/
def functionOf? (m : Module) (id : Id) : Option FunctionKey :=
  (m.functions.entries.find? (fun e => e.2.id = id)).map Prod.fst

/-! ## 4. Adding and removing -/

/-- Adds an instruction to the end of a section.  A second memory model takes the place of the
first. -/
def append (m : Module) (s : Section) (i : Instruction) : Module :=
  match s with
  | .capabilities => { m with capabilities := m.capabilities ++ [i] }
  | .extensions => { m with extensions := m.extensions ++ [i] }
  | .imports => { m with imports := m.imports ++ [i] }
  | .memoryModel => { m with memoryModel := some i }
  | .entryPoints => { m with entryPoints := m.entryPoints ++ [i] }
  | .executionModes => { m with executionModes := m.executionModes ++ [i] }
  | .debug => { m with debug := m.debug ++ [i] }
  | .annotations => { m with annotations := m.annotations ++ [i] }
  | .globals => { m with globals := m.globals ++ [i] }

/-- Adds an instruction to the end of a section that accepts its opcode. -/
def push (m : Module) (s : Section) (i : Instruction) : Except Fault Module :=
  if s.accepts i.opcode then .ok (m.append s i) else .error .wrongOpcode

/-- Adds a function whose id no other function has. -/
def pushFunction (m : Module) (f : Function) : Except Fault (FunctionKey × Module) :=
  if (m.functionOf? f.id).isSome then .error (.functionInUse f.id)
  else do
    let (k, functions) ← m.functions.insert f
    .ok (k, { m with functions := functions })

/-- Puts another function under a key. -/
def setFunction (m : Module) (k : FunctionKey) (f : Function) : Module :=
  { m with functions := m.functions.set k f }

/-- Whether the first operand names one of the ids. -/
def targetsOneOf (ids : SortedSet Id) (i : Instruction) : Bool :=
  (i.idOperand? 0).any (fun id => ids.contains id)

/-- Removes the names and decorations of the ids. -/
def removeDebugInfo (m : Module) (ids : SortedSet Id) : Module :=
  { m with
    debug := m.debug.filter
      (fun i => !((i.opcode = .name || i.opcode = .memberName) && targetsOneOf ids i))
    annotations := m.annotations.filter (fun i => !targetsOneOf ids i) }

/-- The number of names, strings, sources and decorations. -/
def debugInfoSize (m : Module) : Nat := m.debug.length + m.annotations.length

/-! ## 5. Ids -/

/-- A supply of ids that starts at the bound. -/
def supply (m : Module) : IdSupply := .startingAt m.bound

/-- Raises the bound to that of a supply, which must not lie below. -/
def adopt (m : Module) (s : IdSupply) : Except Fault Module :=
  if m.bound ≤ s.bound then .ok { m with bound := s.bound } else .error .supplyBehindBound

/-- Takes a single fresh id. -/
def allocateId (m : Module) : Except Fault (Id × Module) := do
  let (id, s) ← m.supply.take
  let m ← m.adopt s
  .ok (id, m)

end Module
end ShaderIR
