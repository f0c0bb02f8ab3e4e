/-!
# Documents

The tree of values in which a module is stored: null, booleans, decimal numbers, texts, lists and
records.  How such a tree is spelled is not the concern of this library.
-/

namespace ShaderIR

/-- A stored value. -/
inductive Document where
  /-- The absence of a value. -/
  | null
  /-- A truth value. -/
  | bool (value : Bool)
  /-- The number `mantissa / 10 ^ places`. -/
  | number (mantissa : Int) (places : Nat)
  /-- A text. -/
  | text (value : String)
  /-- A list of values. -/
  | list (items : List Document)
  /-- Values by name. -/
  | fields (entries : List (String × Document))
deriving Inhabited

namespace Document

/-- A natural number. -/
def ofNat (n : Nat) : Document := .number n 0

/-- The value of a field, if the entries have it. -/
def field? (entries : List (String × Document)) (name : String) : Option Document :=
  (entries.find? (fun e => e.1 = name)).map Prod.snd

/-- The values of a record, in the order of the names: by name, or listed without names, in which
case none may be missing.  A field that is not asked for is passed over. -/
def record? (names : List String) : Document → Option (List (Option Document))
  | .fields entries => some (names.map (field? entries))
  | .list items => if items.length = names.length then some (items.map some) else none
  | _ => none

/-- The name and the value of a record with a single field. -/
def single? : Document → Option (String × Document)
  | .fields [entry] => some entry
  | _ => none

end Document
end ShaderIR
