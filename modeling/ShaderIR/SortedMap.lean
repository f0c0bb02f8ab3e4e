/-!
# Finite maps in key order

A `SortedMap` is a list of entries in strictly increasing key order.  The order makes the list
canonical: two maps with the same values are equal, whatever was inserted first.  `insert` and
`erase` are filters, so their effect on `get?` follows from the order alone:

* `get?_insert`, `get?_erase`: what an insertion and a removal do;
* `ofList_entries`: a map is rebuilt from its entries.
-/

namespace ShaderIR

/-! ## 1. Ordered keys -/

/-- A strict order in which any two different elements can be compared. -/
class StrictOrder (κ : Type) [LT κ] : Prop where
  /-- Nothing is smaller than itself. -/
  irrefl : ∀ a : κ, ¬ a < a
  /-- Smaller than a smaller one is smaller. -/
  trans : ∀ {a b c : κ}, a < b → b < c → a < c
  /-- Of two different elements one is smaller. -/
  connected : ∀ a b : κ, a < b ∨ a = b ∨ b < a

instance : StrictOrder String where
  irrefl := String.lt_irrefl
  trans := String.lt_trans
  connected a b := by
    by_cases h : a < b
    · exact .inl h
    · by_cases h' : b < a
      · exact .inr (.inr h')
      · exact .inr (.inl (String.le_antisymm (String.not_lt.mp h') (String.not_lt.mp h)))

instance : StrictOrder UInt32 where
  irrefl := UInt32.lt_irrefl
  trans := UInt32.lt_trans
  connected a b := by
    by_cases h : a < b
    · exact .inl h
    · by_cases h' : b < a
      · exact .inr (.inr h')
      · exact .inr (.inl (UInt32.le_antisymm (UInt32.not_lt.mp h') (UInt32.not_lt.mp h)))

/-! ## 2. Maps -/

/-- A finite map from `κ` to `α`, each key once and in increasing order. -/
structure SortedMap (κ α : Type) [LT κ] where
  /-- The entries, smallest key first. -/
  entries : List (κ × α)
  /-- Keys increase strictly. -/
  increasing : entries.Pairwise (fun a b => a.1 < b.1)
deriving DecidableEq

namespace SortedMap

variable {κ α : Type} [LT κ]

/-- The map without entries. -/
def empty : SortedMap κ α := ⟨[], List.Pairwise.nil⟩

instance : Inhabited (SortedMap κ α) := ⟨empty⟩

/-- The value at a key. -/
def get? [DecidableEq κ] (m : SortedMap κ α) (k : κ) : Option α :=
  (m.entries.find? (fun e => e.1 = k)).map Prod.snd

/-- Whether a key has a value. -/
def contains [DecidableEq κ] (m : SortedMap κ α) (k : κ) : Bool := m.entries.any (fun e => e.1 = k)

/-- The keys, in increasing order. -/
def keys (m : SortedMap κ α) : List κ := m.entries.map Prod.fst

/-- The number of entries. -/
def size (m : SortedMap κ α) : Nat := m.entries.length

/-- Whether there are no entries. -/
def isEmpty (m : SortedMap κ α) : Bool := m.entries.isEmpty

/-- Sets the value at a key, replacing the one that was there. -/
def insert [DecidableLT κ] [StrictOrder κ] (m : SortedMap κ α) (k : κ) (v : α) : SortedMap κ α where
  entries := m.entries.filter (fun e => e.1 < k) ++ (k, v) :: m.entries.filter (fun e => k < e.1)
  increasing := by
    refine List.pairwise_append.mpr ⟨m.increasing.filter _, ?_, ?_⟩
    · refine List.pairwise_cons.mpr ⟨?_, m.increasing.filter _⟩
      intro e he
      simpa using (List.mem_filter.mp he).2
    · intro a ha b hb
      have hak : a.1 < k := by simpa using (List.mem_filter.mp ha).2
      rcases List.mem_cons.mp hb with rfl | hb
      · exact hak
      · have hkb : k < b.1 := by simpa using (List.mem_filter.mp hb).2
        exact StrictOrder.trans hak hkb

/-- Removes a key and its value. -/
def erase [DecidableEq κ] (m : SortedMap κ α) (k : κ) : SortedMap κ α where
  entries := m.entries.filter (fun e => e.1 ≠ k)
  increasing := m.increasing.filter _

/-- Sets the value at a key unless it has one. -/
def insertIfNew [DecidableLT κ] [DecidableEq κ] [StrictOrder κ] (m : SortedMap κ α) (k : κ) (v : α) :
    SortedMap κ α :=
  if m.contains k then m else m.insert k v

/-- The map of a list of pairs, the last pair of a key winning. -/
def ofList [DecidableLT κ] [StrictOrder κ] (entries : List (κ × α)) : SortedMap κ α :=
  entries.foldl (fun m e => m.insert e.1 e.2) empty

/-! ## 3. Laws -/

@[simp] theorem get?_empty [DecidableEq κ] (k : κ) : (empty : SortedMap κ α).get? k = none := rfl

theorem contains_eq_isSome [DecidableEq κ] (m : SortedMap κ α) (k : κ) :
    m.contains k = (m.get? k).isSome := by
  rw [contains, get?, Option.isSome_map]
  induction m.entries with
  | nil => rfl
  | cons e es ih =>
    by_cases h : e.1 = k <;> simp_all

/-- A key has the value of its entry. -/
theorem get?_eq_some_of_mem [DecidableEq κ] [StrictOrder κ] {m : SortedMap κ α} {k : κ} {v : α}
    (h : (k, v) ∈ m.entries) : m.get? k = some v := by
  obtain ⟨es, inc⟩ := m
  simp only [get?] at *
  induction es with
  | nil => cases h
  | cons e es ih =>
    have hinc := List.pairwise_cons.mp inc
    rcases List.mem_cons.mp h with rfl | h
    · simp
    · have hlt : e.1 < k := hinc.1 _ h
      have hne : e.1 ≠ k := fun he => StrictOrder.irrefl k (he ▸ hlt)
      simp only [List.find?_cons, hne, decide_false]
      exact ih hinc.2 h

/-- The entries are the keys that have values. -/
theorem mem_entries_iff [DecidableEq κ] [StrictOrder κ] {m : SortedMap κ α} {k : κ} {v : α} :
    (k, v) ∈ m.entries ↔ m.get? k = some v := by
  refine ⟨get?_eq_some_of_mem, fun h => ?_⟩
  obtain ⟨e, he, rfl⟩ := Option.map_eq_some_iff.mp h
  have hk : e.1 = k := by simpa using List.find?_some he
  have hmem := List.mem_of_find?_eq_some he
  subst hk
  exact hmem

/-- An insertion sets the value at its key and leaves the others. -/
theorem get?_insert [DecidableLT κ] [DecidableEq κ] [StrictOrder κ] (m : SortedMap κ α)
    (k k' : κ) (v : α) :
    (m.insert k v).get? k' = if k' = k then some v else m.get? k' := by
  have key : ∀ w, (m.insert k v).get? k' = some w ↔
      (if k' = k then some v else m.get? k') = some w := by
    intro w
    rw [← mem_entries_iff]
    simp only [insert, List.mem_append, List.mem_cons, List.mem_filter, mem_entries_iff,
      decide_eq_true_eq, Prod.mk.injEq]
    by_cases e : k' = k
    · subst e
      have := StrictOrder.irrefl k'
      simp [this, eq_comm]
    · have hc : k' < k ∨ k < k' :=
        (StrictOrder.connected k' k).imp_right (fun h => h.resolve_left e)
      simp only [e, false_and, false_or, ↓reduceIte]
      constructor
      · rintro (h | h) <;> exact h.1
      · intro h
        exact hc.imp (fun hlt => ⟨h, hlt⟩) (fun hlt => ⟨h, hlt⟩)
  exact Option.ext key

/-- A removal takes the value of its key and leaves the others. -/
theorem get?_erase [DecidableEq κ] (m : SortedMap κ α) (k k' : κ) :
    (m.erase k).get? k' = if k' = k then none else m.get? k' := by
  simp only [get?, erase, List.find?_filter]
  by_cases e : k' = k
  · subst e
    have hnone : m.entries.find?
        (fun a => decide (decide (a.1 ≠ k') = true ∧ decide (a.1 = k') = true)) = none := by
      rw [List.find?_eq_none]
      intro a _
      simp
    rw [hnone, if_pos rfl]
    rfl
  · have hp : (fun a : κ × α => decide (decide (a.1 ≠ k) = true ∧ decide (a.1 = k') = true))
        = (fun a => decide (a.1 = k')) := by
      funext a
      by_cases ha : a.1 = k'
      · simp [ha, e]
      · simp [ha]
    rw [hp, if_neg e]

/-- Inserting a key greater than all others puts it at the end. -/
theorem entries_insert_of_greatest [DecidableLT κ] [StrictOrder κ] {m : SortedMap κ α} {k : κ}
    (v : α) (h : ∀ e ∈ m.entries, e.1 < k) : (m.insert k v).entries = m.entries ++ [(k, v)] := by
  have hl : m.entries.filter (fun e => e.1 < k) = m.entries :=
    List.filter_eq_self.mpr (fun e he => by simpa using h e he)
  have hr : m.entries.filter (fun e => k < e.1) = [] := by
    refine List.filter_eq_nil_iff.mpr (fun e he => ?_)
    simpa using fun hlt => StrictOrder.irrefl k (StrictOrder.trans hlt (h e he))
  simp [insert, hl, hr]

/-- Inserting increasing entries one after the other lists them. -/
theorem entries_foldl_insert [DecidableLT κ] [StrictOrder κ] (es : List (κ × α)) (m : SortedMap κ α)
    (inc : (m.entries ++ es).Pairwise (fun a b => a.1 < b.1)) :
    (es.foldl (fun m e => m.insert e.1 e.2) m).entries = m.entries ++ es := by
  induction es generalizing m with
  | nil => simp
  | cons e es ih =>
    have hbelow : ∀ a ∈ m.entries, a.1 < e.1 := fun a ha =>
      (List.pairwise_append.mp inc).2.2 a ha e (by simp)
    have hstep := entries_insert_of_greatest e.2 hbelow
    have inc' : ((m.insert e.1 e.2).entries ++ es).Pairwise (fun a b => a.1 < b.1) := by
      rw [hstep]
      simpa using inc
    rw [List.foldl_cons, ih _ inc', hstep]
    simp

/-- A map is rebuilt from its entries. -/
@[simp] theorem ofList_entries [DecidableLT κ] [StrictOrder κ] (m : SortedMap κ α) :
    ofList m.entries = m := by
  obtain ⟨es, inc⟩ := m
  have h := entries_foldl_insert es (empty : SortedMap κ α) (by simpa [empty] using inc)
  have h' : (ofList es : SortedMap κ α).entries = es := by simpa [ofList, empty] using h
  cases hm : (ofList es : SortedMap κ α) with
  | mk es' inc' =>
    rw [hm] at h'
    cases h'
    rfl

end SortedMap

/-! ## 4. Sets -/

/-- A finite set in increasing order: a map that only has keys. -/
abbrev SortedSet (κ : Type) [LT κ] := SortedMap κ Unit

namespace SortedSet

variable {κ : Type} [LT κ] [DecidableLT κ] [DecidableEq κ] [StrictOrder κ]

/-- Adds an element. -/
def add (s : SortedSet κ) (k : κ) : SortedSet κ := SortedMap.insert s k ()

/-- Adds every element of a list. -/
def addAll (s : SortedSet κ) (ks : List κ) : SortedSet κ := ks.foldl add s

/-- The set of the elements of a list. -/
def ofElements (ks : List κ) : SortedSet κ := addAll SortedMap.empty ks

/-- Adding an element makes it a member and leaves the others. -/
theorem contains_add (s : SortedSet κ) (k k' : κ) :
    (s.add k).contains k' = (decide (k' = k) || s.contains k') := by
  by_cases e : k' = k <;> simp [add, SortedMap.contains_eq_isSome, SortedMap.get?_insert, e]

/-- The members after adding a list are the old ones and those of the list. -/
theorem contains_addAll (s : SortedSet κ) (ks : List κ) (k : κ) :
    (s.addAll ks).contains k = (ks.contains k || s.contains k) := by
  induction ks generalizing s with
  | nil => simp [addAll]
  | cons a ks ih =>
    have h : s.addAll (a :: ks) = (s.add a).addAll ks := rfl
    rw [h, ih, contains_add, List.contains_cons]
    by_cases e : k = a
    · simp [e]
    · have hb : (k == a) = false := by simpa using e
      simp [e, hb]

/-- The members of the set of a list are those of the list. -/
@[simp] theorem contains_ofElements (ks : List κ) (k : κ) :
    (ofElements ks).contains k = ks.contains k := by
  have h : (SortedMap.empty : SortedSet κ).contains k = false := rfl
  rw [ofElements, contains_addAll, h, Bool.or_false]

end SortedSet
end ShaderIR
