import ShaderIR.Module
import ShaderIR.Text.Bytes

/-!
# Listings

A listing is the text of a module, one line per instruction: the sections in order, then every
function with its parameters and its blocks in layout order.  It is written once from top to bottom
and remembers at which bytes each function and each block starts and stops, so that a part of a
module can be shown without writing it again.
-/

namespace ShaderIR

open Text (Span)

/-- The text of a module and the places of its functions and blocks in it. -/
structure Listing where
  /-- The text of the whole module. -/
  text : String
  /-- The place of each function, the latest first. -/
  functions : List (FunctionKey × Span)
  /-- The place of each block, the latest first. -/
  blocks : List ((FunctionKey × BlockKey) × Span)

namespace Listing

/-- The listing without text. -/
def empty : Listing := ⟨"", [], []⟩

/-- The line of a label. -/
def labelLine (label : Id) : String := Instruction.resultColumn (some label) ++ "OpLabel"

/-- The line that ends a function. -/
def endLine : String := Instruction.resultColumn none ++ "OpFunctionEnd"

/-- The lines of a block: its label and its instructions. -/
def blockLines (b : Block) : List String := labelLine b.label :: b.instructions.map Instruction.text

/-- Lines as text, every one with its end. -/
def join (lines : List String) : String := String.join (lines.map (fun line => line ++ "\n"))

/-! ## 1. Writing -/

/-- The number of bytes written so far. -/
def size (l : Listing) : Nat := l.text.utf8ByteSize

/-- Adds lines at the end. -/
def write (l : Listing) (lines : List String) : Listing := { l with text := l.text ++ join lines }

/-- Adds a block of a function and remembers its place. -/
def writeBlock (l : Listing) (k : FunctionKey) (b : BlockKey) (block : Block) : Listing :=
  let l' := l.write (blockLines block)
  { l' with blocks := ((k, b), ⟨l.size, l'.size⟩) :: l'.blocks }

/-- Adds the blocks of a function.  Every key of the layout must have a block. -/
def writeBlocks (l : Listing) (k : FunctionKey) (f : Function) : Except Fault Listing :=
  f.layout.foldlM (fun l b => do .ok (l.writeBlock k b (← f.block b))) l

/-- Adds a function and remembers its place. -/
def writeFunction (l : Listing) (k : FunctionKey) (f : Function) : Except Fault Listing := do
  let l' ← (l.write ((f.definition :: f.params).map Instruction.text)).writeBlocks k f
  let l' := l'.write [endLine]
  .ok { l' with functions := (k, ⟨l.size, l'.size⟩) :: l'.functions }

/-- The listing of a module. -/
def ofModule (m : Module) : Except Fault Listing :=
  m.functions.entries.foldlM (fun l e => l.writeFunction e.1 e.2)
    (empty.write (m.header.map Instruction.text))

/-! ## 2. Reading -/

/-- The text at the place that was remembered last for a key. -/
def part {κ : Type} [DecidableEq κ] (l : Listing) (places : List (κ × Span)) (k : κ) :
    Except Fault String :=
  match places.find? (fun e => e.1 = k) with
  | some e =>
    match e.2.read? l.text with
    | some text => .ok text
    | none => .error .insideCharacter
  | none => .error .notInLayout

/-- The text of a function. -/
def functionText (l : Listing) (k : FunctionKey) : Except Fault String := l.part l.functions k

/-- The text of a block of the layout. -/
def blockText (l : Listing) (k : FunctionKey) (b : BlockKey) : Except Fault String :=
  l.part l.blocks (k, b)

end Listing

/-- The text of a module. -/
def Module.text (m : Module) : Except Fault String := (Listing.ofModule m).map Listing.text

end ShaderIR
