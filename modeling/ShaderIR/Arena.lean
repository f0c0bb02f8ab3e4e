import ShaderIR.Id

/-!
# Arenas

An arena stores values in the order they come and hands out a key for each.  A key is an index that
fits into a fixed number of bits; it stays valid whatever else happens to the arena.

* `ArenaKey`: which indices a key type can hold;
* `ArenaKey.ofWord`, `ArenaKey.wrapping`: words as keys, and keys that wrap other keys;
* `Arena.insert`: refuses a value whose key cannot be made;
* `Arena.get?`, `Arena.set`: reading and writing through a key.
-/

namespace ShaderIR

/-! ## 1. Keys -/

/-- A type of keys: the indices it can hold, one key each. -/
class ArenaKey (κ : Type) where
  /-- The index a key stands for. -/
  index : κ → Nat
  /-- The key of an index, if the type can hold it. -/
  ofIndex? : Nat → Option κ
  /-- A key is the key of its index. -/
  ofIndex?_index : ∀ k, ofIndex? (index k) = some k
  /-- The key of an index stands for that index. -/
  index_eq_of_ofIndex? : ∀ {i k}, ofIndex? i = some k → index k = i

namespace ArenaKey

/-- Words below a size as keys: the index is the word as a number. -/
@[reducible] def ofWord {κ : Type} (size : Nat) (toNat : κ → Nat) (ofNatLT : ∀ i, i < size → κ)
    (hlt : ∀ k, toNat k < size) (hword : ∀ k, ofNatLT (toNat k) (hlt k) = k)
    (hindex : ∀ i h, toNat (ofNatLT i h) = i) : ArenaKey κ where
  index := toNat
  ofIndex? i := if h : i < size then some (ofNatLT i h) else none
  ofIndex?_index k := by rw [dif_pos (hlt k), hword]
  index_eq_of_ofIndex? := by
    intro i k h
    split at h
    · cases h
      exact hindex i _
    · cases h

/-- Keys in a wrapping of their own, with the indices of what they wrap. -/
@[reducible] def wrapping {κ ι : Type} [ArenaKey ι] (mk : ι → κ) (slot : κ → ι)
    (hmk : ∀ k, mk (slot k) = k) (hslot : ∀ w, slot (mk w) = w) : ArenaKey κ where
  index k := index (slot k)
  ofIndex? i := (ofIndex? i).map mk
  ofIndex?_index k := by rw [ofIndex?_index, Option.map_some, hmk]
  index_eq_of_ofIndex? := by
    intro i k h
    obtain ⟨w, hw, rfl⟩ := Option.map_eq_some_iff.mp h
    rw [hslot]
    exact index_eq_of_ofIndex? hw

instance : ArenaKey UInt8 :=
  ofWord UInt8.size UInt8.toNat UInt8.ofNatLT UInt8.toNat_lt_size (by simp) (by simp)

instance : ArenaKey UInt16 :=
  ofWord UInt16.size UInt16.toNat UInt16.ofNatLT UInt16.toNat_lt_size (by simp) (by simp)

instance : ArenaKey UInt32 :=
  ofWord UInt32.size UInt32.toNat UInt32.ofNatLT UInt32.toNat_lt_size (by simp) (by simp)

instance : ArenaKey UInt64 :=
  ofWord UInt64.size UInt64.toNat UInt64.ofNatLT UInt64.toNat_lt_size (by simp) (by simp)

variable {κ : Type} [ArenaKey κ]

/-- The key of an index, refused where the type cannot hold it. -/
def ofIndex (i : Nat) : Except Fault κ :=
  match ofIndex? i with
  | some k => .ok k
  | none => .error .keyRange

/-- Two keys of one index are equal. -/
theorem eq_of_index_eq {a b : κ} (h : index a = index b) : a = b := by
  have ha := ofIndex?_index a
  rw [h, ofIndex?_index] at ha
  exact (Option.some.inj ha).symm

/-- The text of a key: the name of its type and the index. -/
def text (typeName : String) (k : κ) : String :=
  typeName ++ "(" ++ Nat.repr (index k) ++ ")"

end ArenaKey

/-! ## 2. Arenas -/

/-- A growing store of values, read through keys. -/
structure Arena (κ α : Type) where
  /-- The values, by index. -/
  slots : Array α
deriving DecidableEq, Repr

namespace Arena

variable {κ α : Type} [ArenaKey κ]

/-- The arena without values. -/
def empty : Arena κ α := ⟨.empty⟩

instance : Inhabited (Arena κ α) := ⟨empty⟩

/-- The number of values. -/
def size (a : Arena κ α) : Nat := a.slots.size

/-- Whether there are no values. -/
def isEmpty (a : Arena κ α) : Bool := a.slots.isEmpty

/-- The value of a key, if the arena handed it out. -/
def get? (a : Arena κ α) (k : κ) : Option α := a.slots[ArenaKey.index k]?

/-- The value of a key, refused where the arena never handed it out. -/
def get (a : Arena κ α) (k : κ) : Except Fault α :=
  match a.get? k with
  | some v => .ok v
  | none => .error .unknownKey

/-- Stores a value and hands out its key. -/
def insert (a : Arena κ α) (v : α) : Except Fault (κ × Arena κ α) :=
  match ArenaKey.ofIndex? a.size with
  | some k => .ok (k, ⟨a.slots.push v⟩)
  | none => .error .keyRange

/-- Writes the value of a key; a key that was never handed out changes nothing. -/
def set (a : Arena κ α) (k : κ) (v : α) : Arena κ α :=
  ⟨a.slots.setIfInBounds (ArenaKey.index k) v⟩

/-- Writes the value of a key, refused where the arena never handed it out. -/
def assign (a : Arena κ α) (k : κ) (v : α) : Except Fault (Arena κ α) := do
  let _ ← a.get k
  .ok (a.set k v)

/-- Every key, in increasing order. -/
def keys (a : Arena κ α) : List κ := (List.range a.size).filterMap ArenaKey.ofIndex?

/-- Every key with its value, in increasing order. -/
def entries (a : Arena κ α) : List (κ × α) :=
  a.keys.filterMap (fun k => (a.get? k).map (fun v => (k, v)))

/-- Stores one value after the other. -/
def insertAll (a : Arena κ α) (vs : List α) : Except Fault (Arena κ α) :=
  vs.foldlM (fun a v => (a.insert v).map Prod.snd) a

/-- The arena as text: every key and its value between braces. -/
def text (typeName : String) (showValue : α → String) (a : Arena κ α) : String :=
  "ArenaMap \x7b"
    ++ String.intercalate ", "
      (a.entries.map (fun e => ArenaKey.text typeName e.1 ++ ": " ++ showValue e.2))
    ++ "\x7d"

/-! ## 3. What the operations do to `get?` -/

theorem get?_set_self (a : Arena κ α) (k : κ) (v : α) :
    (a.set k v).get? k = (a.get? k).map (fun _ => v) := by
  simp only [get?, set, Array.getElem?_setIfInBounds_self]
  by_cases h : ArenaKey.index k < a.slots.size <;> simp [h]

theorem get?_set_of_ne (a : Arena κ α) {k k' : κ} (v : α) (h : k ≠ k') :
    (a.set k v).get? k' = a.get? k' := by
  have hi : ArenaKey.index k ≠ ArenaKey.index k' := fun e => h (ArenaKey.eq_of_index_eq e)
  simp [get?, set, Array.getElem?_setIfInBounds_ne hi]

/-- Putting in the value that is there changes nothing. -/
theorem set_eq_self {a : Arena κ α} {k : κ} {v : α} (h : a.get? k = some v) : a.set k v = a := by
  have hget : a.slots[ArenaKey.index k]? = some v := h
  unfold set
  congr 1
  refine Array.ext_getElem? (fun i => ?_)
  by_cases hi : ArenaKey.index k = i
  · subst hi
    obtain ⟨hlt, -⟩ := Array.getElem?_eq_some_iff.mp hget
    rw [hget, Array.getElem?_setIfInBounds_self]
    simp [hlt]
  · rw [Array.getElem?_setIfInBounds_ne hi]

@[simp] theorem size_set (a : Arena κ α) (k : κ) (v : α) : (a.set k v).size = a.size := by
  simp [size, set]

/-- The entries are the keys that were handed out with their values. -/
theorem mem_entries_iff {a : Arena κ α} {k : κ} {v : α} :
    (k, v) ∈ a.entries ↔ a.get? k = some v := by
  simp only [entries, List.mem_filterMap, Option.map_eq_some_iff, Prod.mk.injEq]
  constructor
  · rintro ⟨k', -, v', hv, rfl, rfl⟩
    exact hv
  · intro hv
    have hlt : ArenaKey.index k < a.slots.size := (Array.getElem?_eq_some_iff.mp hv).1
    refine ⟨k, List.mem_filterMap.mpr ⟨ArenaKey.index k, ?_, ArenaKey.ofIndex?_index k⟩, v, hv, rfl,
      rfl⟩
    exact List.mem_range.mpr hlt

/-- A new value is found under its key, and nothing else moves. -/
theorem get?_insert [DecidableEq κ] {a a' : Arena κ α} {k : κ} {v : α}
    (h : a.insert v = .ok (k, a')) (k' : κ) :
    a'.get? k' = if k' = k then some v else a.get? k' := by
  unfold insert at h
  split at h
  · rename_i k₀ hk
    cases h
    have hidx := ArenaKey.index_eq_of_ofIndex? hk
    by_cases e : k' = k
    · subst e
      simp only [size] at hidx
      simp [get?, hidx]
    · have hne : ArenaKey.index k' ≠ a.slots.size := fun hc => e (ArenaKey.eq_of_index_eq
        (by rw [hidx]; exact hc))
      simp [get?, e, Array.getElem?_push, hne]
  · cases h

end Arena
end ShaderIR
