import ShaderIR.Arena
import ShaderIR.SortedMap
import ShaderIR.Storage.Document

/-!
# Stored types

A type is stored by turning its values into documents and reading them back.  Reading checks the
shape of a document and nothing else.

* `Stored`: a type with `encode` and `decode?`;
* `optional?`, `required?`: reading a field that may be missing, and one that may not;
* `canonicalDecimal?`: reading a number that is used as a name.
-/

namespace ShaderIR

/-- A type whose values can be stored. -/
class Stored (α : Type) where
  /-- The document of a value. -/
  encode : α → Document
  /-- The value of a document. -/
  decode? : Document → Option α

namespace Stored

variable {α : Type} [Stored α]

/-- Reads a field that must be there. -/
def required? (field? : Option Document) : Option α := field?.bind decode?

/-- Reads a field that may be missing or null. -/
def optional? : Option Document → Option (Option α)
  | none => some none
  | some .null => some none
  | some d => (decode? d).map some

/-- The document of a value that may be missing. -/
def encodeOptional : Option α → Document
  | none => .null
  | some a => encode a

instance : Stored Unit where
  encode _ := .null
  decode?
    | .null => some ()
    | _ => none

instance : Stored UInt32 where
  encode w := .ofNat w.toNat
  decode?
    | .number (.ofNat n) 0 => if n < UInt32.size then some n.toUInt32 else none
    | _ => none

instance : Stored String where
  encode s := .text s
  decode?
    | .text s => some s
    | _ => none

instance : Stored (List α) where
  encode as := .list (as.map encode)
  decode?
    | .list items => items.mapM decode?
    | _ => none

/-- Reads a value that is stored as its name: a text, or a field of that name without a value. -/
def decodeName? {β : Type} (ofName? : String → Option β) : Document → Option β
  | .text name => ofName? name
  | .fields [(name, .null)] => ofName? name
  | _ => none

/-- Reads a number from the text it is written as; no other spelling is taken. -/
def canonicalDecimal? (s : String) : Option Nat :=
  let n := Nat.ofDigitChars 10 s.toList 0
  if Nat.repr n = s then some n else none

/-- An arena is stored as the list of its values. -/
instance {κ : Type} : Stored (Arena κ α) where
  encode a := .fields [("slots", encode a.slots.toList), ("_unused", .null)]
  decode? d := do
    match ← d.record? ["slots", "_unused"] with
    | [slots, unused] =>
      let slots : List α ← required? slots
      let () ← required? unused
      some ⟨slots.toArray⟩
    | _ => none

end Stored
end ShaderIR
