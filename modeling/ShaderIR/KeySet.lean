import ShaderIR.Arena

/-!
# Dense sets of keys

A `KeySet` marks the members among the keys of an arena by one bit each and counts them.  It grows
when a key beyond its bits is inserted.  `contains_insert` says what an insertion does.
-/

namespace ShaderIR

/-- A set of arena keys. -/
structure KeySet (κ : Type) where
  /-- Which indices are members. -/
  bits : Array Bool
  /-- The number of members. -/
  size : Nat
deriving DecidableEq, Repr

namespace KeySet

variable {κ : Type} [ArenaKey κ]

/-- The set without members, with room for `capacity` keys. -/
def withCapacity (capacity : Nat) : KeySet κ := ⟨Array.replicate capacity false, 0⟩

instance : Inhabited (KeySet κ) := ⟨withCapacity 0⟩

/-- Whether a key is a member.  No key beyond the bits is. -/
def contains (s : KeySet κ) (k : κ) : Bool := s.bits[ArenaKey.index k]?.getD false

/-- Whether there are no members. -/
def isEmpty (s : KeySet κ) : Bool := s.size = 0

/-- The bits, with room for the index. -/
def bitsFor (s : KeySet κ) (index : Nat) : Array Bool :=
  s.bits ++ Array.replicate (index + 1 - s.bits.size) false

/-- Adds a key. -/
def insert (s : KeySet κ) (k : κ) : KeySet κ where
  bits := (s.bitsFor (ArenaKey.index k)).setIfInBounds (ArenaKey.index k) true
  size := if s.contains k then s.size else s.size + 1

/-- Adds a key and says whether it was a member before. -/
def containsThenInsert (s : KeySet κ) (k : κ) : Bool × KeySet κ := (s.contains k, s.insert k)

/-- Adds every key of a list. -/
def insertAll (s : KeySet κ) (ks : List κ) : KeySet κ := ks.foldl insert s

/-- The members, in increasing order. -/
def keys (s : KeySet κ) : List κ :=
  (List.range s.bits.size).filterMap
    (fun i => if s.bits[i]?.getD false then ArenaKey.ofIndex? i else none)

/-- The set as text: its members between brackets. -/
def text (typeName : String) (s : KeySet κ) : String :=
  "SecondarySet [" ++ String.intercalate ", " (s.keys.map (ArenaKey.text typeName)) ++ "]"

@[simp] theorem contains_withCapacity (capacity : Nat) (k : κ) :
    (withCapacity capacity).contains k = false := by
  simp only [contains, withCapacity, Array.getElem?_replicate]
  split <;> rfl

/-- Inserting a key sets the bit at its index and leaves every other bit as it was; the bits that are
added to make room are not set. -/
theorem getElem?_bits_insert (s : KeySet κ) (k : κ) (i : Nat) :
    (s.insert k).bits[i]?.getD false =
      (decide (i = ArenaKey.index k) || s.bits[i]?.getD false) := by
  have hlt : ArenaKey.index k < (s.bitsFor (ArenaKey.index k)).size := by
    simp [bitsFor]; omega
  by_cases e : i = ArenaKey.index k
  · subst e
    simp [insert, hlt]
  · simp only [insert, Array.getElem?_setIfInBounds_ne (Ne.symm e), bitsFor, e, decide_false,
      Bool.false_or]
    by_cases h : i < s.bits.size
    · simp [Array.getElem?_append_left h]
    · have h' : s.bits.size ≤ i := by omega
      rw [Array.getElem?_append_right h', Array.getElem?_replicate,
        Array.getElem?_eq_none_iff.mpr h']
      split <;> rfl

/-- Inserting a key makes it a member and leaves every other key as it was. -/
theorem contains_insert [DecidableEq κ] (s : KeySet κ) (k k' : κ) :
    (s.insert k).contains k' = (decide (k' = k) || s.contains k') := by
  have hiff : ArenaKey.index k' = ArenaKey.index k ↔ k' = k :=
    ⟨ArenaKey.eq_of_index_eq, congrArg ArenaKey.index⟩
  simp only [contains, getElem?_bits_insert, hiff]

end KeySet
end ShaderIR
