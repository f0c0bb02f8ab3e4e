import ShaderIR.SortedMap

/-!
# Ids and faults

Every result of a module (a type, a constant, a value, a function, a block label) is named by one
32-bit word.  A module has an *id bound*: every id in use lies below it.  An `IdSupply` starts at
the bound and hands out one id after the other.  It is a plain value: whoever needs new ids takes it
out of the module, threads it through, and gives it back.

An operation that is used against its contract stops with a `Fault`, as a supply does that has no id
left.  A fault is a cause, not a text; `Fault.message` has the wording of those that carry one.
-/

namespace ShaderIR

/-! ## 1. Ids -/

/-- The name of a result.  Zero names nothing; only a stored document can hold it. -/
structure Id where
  /-- The word the module format stores. -/
  word : UInt32
deriving DecidableEq, Repr

namespace Id

/-- Ids are ordered by their words. -/
instance : LT Id := ⟨fun a b => a.word < b.word⟩

instance : DecidableLT Id := fun a b => inferInstanceAs (Decidable (a.word < b.word))

instance : StrictOrder Id where
  irrefl a := UInt32.lt_irrefl a.word
  trans hab hbc := UInt32.lt_trans hab hbc
  connected a b := by
    rcases StrictOrder.connected a.word b.word with h | h | h
    · exact .inl h
    · exact .inr (.inl (by cases a; cases b; cases h; rfl))
    · exact .inr (.inr h)

/-- The text of an id: a percent sign and the word in decimal. -/
def text (i : Id) : String := "%" ++ Nat.repr i.word.toNat

end Id

/-! ## 2. Faults -/

/-- Why an operation could not be carried out. -/
inductive Fault where
  /-- The word 0 was given as an id. -/
  | zeroId
  /-- No id is left: the bound cannot grow any further. -/
  | idsExhausted
  /-- A function builder has not been told which block to append to. -/
  | noCurrentBlock
  /-- The block already ends in a terminator. -/
  | afterTerminator
  /-- The function has a block with this label. -/
  | labelInUse (label : Id)
  /-- The index does not fit into the key type. -/
  | keyRange
  /-- The key was never handed out. -/
  | unknownKey
  /-- The instruction does not belong into the place it is pushed to. -/
  | wrongOpcode
  /-- Another function of the module has this id. -/
  | functionInUse (id : Id)
  /-- The block is not part of the layout. -/
  | notInLayout
  /-- The block does not end in a selection. -/
  | notASelection
  /-- The instruction is not a phi. -/
  | notAPhi
  /-- A conditional branch has no operands, so its targets cannot be read. -/
  | noBranchOperands
  /-- There is no such position in the block. -/
  | positionRange
  /-- The id supply is behind the bound of the module. -/
  | supplyBehindBound
  /-- A span of a text starts or stops inside a character. -/
  | insideCharacter
deriving DecidableEq, Repr

namespace Fault

/-- The wording of a fault.  The plain contract violations have none. -/
def message : Fault → Option String
  | zeroId => some "0 is never a valid id"
  | idsExhausted => some "ran out of ids for the module"
  | noCurrentBlock => some "cannot append without a current block"
  | afterTerminator => some "cannot append to a block that already has a terminator"
  | labelInUse label => some ("label " ++ label.text ++ " is already used in this function")
  | keyRange => some "index is not representable with key type"
  | _ => none

end Fault

/-! ## 3. The supply of fresh ids -/

/-- The id of a word, which must not be zero. -/
def Id.ofWord (word : UInt32) : Except Fault Id :=
  if word = 0 then .error .zeroId else .ok ⟨word⟩

/-- The greatest word. -/
def maxWord : UInt32 := 4294967295

/-- Hands out ids in increasing order. -/
structure IdSupply where
  /-- The next id, and the bound of a module that uses all ids handed out so far. -/
  bound : UInt32
deriving DecidableEq, Repr

namespace IdSupply

/-- A supply whose first id is `bound`, or 1 where `bound` is zero. -/
def startingAt (bound : UInt32) : IdSupply := ⟨if bound = 0 then 1 else bound⟩

/-- Takes the next id.  The greatest word can never be taken, since the bound must lie above. -/
def take (s : IdSupply) : Except Fault (Id × IdSupply) :=
  if s.bound = maxWord then .error .idsExhausted
  else do
    let id ← Id.ofWord s.bound
    .ok (id, ⟨s.bound + 1⟩)

end IdSupply

end ShaderIR
