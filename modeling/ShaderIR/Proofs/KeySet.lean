import Mathlib.Data.Finset.Card
import ShaderIR.KeySet

/-!
# What a set of keys stands for

A `KeySet` is an array of bits that grows and a number that is kept beside it.  `Represents` says
which keys the two stand for: the bits at their indices are set, no other bit is, and the number
counts them.  An insertion keeps bits and number in step, so after any sequence of insertions the set
answers every question as the list of the inserted keys does.

* `contains_insertAll`, `mem_keys`: the members of any set;
* `Represents.insert`, `represents_insertAll`: one insertion, and a sequence of them;
* `inserted_keys_are_the_members`: the answers after a sequence of insertions.
-/

namespace ShaderIR.KeySet

variable {κ : Type} [ArenaKey κ] {s : KeySet κ} {k : κ}

/-! ## 1. Members -/

theorem contains_insertAll [DecidableEq κ] (s : KeySet κ) (ks : List κ) (k : κ) :
    (s.insertAll ks).contains k = (decide (k ∈ ks) || s.contains k) := by
  induction ks generalizing s with
  | nil => simp [insertAll]
  | cons a ks ih =>
    have hcons : s.insertAll (a :: ks) = (s.insert a).insertAll ks := rfl
    rw [hcons, ih, contains_insert]
    by_cases ha : k = a <;> simp [ha]

/-- The listed members are the members. -/
theorem mem_keys : k ∈ s.keys ↔ s.contains k = true := by
  simp only [keys, List.mem_filterMap, List.mem_range, contains]
  constructor
  · rintro ⟨i, -, hi⟩
    split at hi
    · rename_i hbit
      rw [ArenaKey.index_eq_of_ofIndex? hi]
      exact hbit
    · cases hi
  · intro hk
    refine ⟨ArenaKey.index k, ?_, ?_⟩
    · -- a bit beyond the array counts as not set
      by_contra hlt
      simp [Array.getElem?_eq_none (Nat.le_of_not_lt hlt)] at hk
    · rw [if_pos hk, ArenaKey.ofIndex?_index]

/-- The members are listed by increasing index. -/
theorem keys_increasing (s : KeySet κ) :
    s.keys.Pairwise (fun a b => ArenaKey.index a < ArenaKey.index b) := by
  refine List.pairwise_filterMap.mpr (List.pairwise_lt_range.imp ?_)
  intro i j hij a ha b hb
  split at ha <;> split at hb
  · rw [ArenaKey.index_eq_of_ofIndex? ha, ArenaKey.index_eq_of_ofIndex? hb]
    exact hij
  all_goals contradiction

/-! ## 2. Insertions -/

/-- The bits that are set are the indices of the keys in `S`, and the number beside them is the
number of these keys. -/
structure Represents (s : KeySet κ) (S : Finset κ) : Prop where
  /-- No bit is set but for a key. -/
  marked : ∀ i, s.bits[i]?.getD false = true ↔ ∃ k ∈ S, ArenaKey.index k = i
  /-- The number is up to date. -/
  counted : s.size = S.card

theorem represents_withCapacity (capacity : Nat) :
    (withCapacity capacity : KeySet κ).Represents ∅ where
  marked i := by
    simp only [withCapacity, Array.getElem?_replicate]
    split <;> simp
  counted := rfl

namespace Represents

variable {S : Finset κ}

theorem contains_iff (h : s.Represents S) : s.contains k = true ↔ k ∈ S := by
  refine (h.marked (ArenaKey.index k)).trans ⟨?_, ?_⟩
  · rintro ⟨k', hk', hindex⟩
    rwa [← ArenaKey.eq_of_index_eq hindex]
  · intro hk
    exact ⟨k, hk, rfl⟩

variable [DecidableEq κ]

/-- **An insertion keeps bits and number in step**, whether the key is new or not and whether there is
room for it or not. -/
theorem insert (h : s.Represents S) (k : κ) : (s.insert k).Represents (Insert.insert k S) where
  marked i := by
    rw [getElem?_bits_insert, Bool.or_eq_true, decide_eq_true_eq, h.marked, eq_comm]
    simp
  counted := by
    have hsize : (s.insert k).size = if s.contains k = true then s.size else s.size + 1 := rfl
    rw [hsize, h.counted]
    split
    · rename_i hk
      rw [Finset.insert_eq_of_mem (h.contains_iff.mp hk)]
    · rename_i hk
      rw [Finset.card_insert_of_notMem (fun hmem => hk (h.contains_iff.mpr hmem))]

theorem insertAll (h : s.Represents S) (ks : List κ) :
    (s.insertAll ks).Represents (S ∪ ks.toFinset) := by
  induction ks generalizing s S with
  | nil => simpa [KeySet.insertAll] using h
  | cons k ks ih =>
    -- `S` holds what was inserted so far; the first key of the rest joins it
    have hset : S ∪ (k :: ks).toFinset = Insert.insert k S ∪ ks.toFinset := by
      rw [List.toFinset_cons, Finset.union_insert, Finset.insert_union]
    rw [hset]
    exact ih (h.insert k)

end Represents

variable [DecidableEq κ]

theorem represents_insertAll (capacity : Nat) (ks : List κ) :
    ((withCapacity capacity).insertAll ks).Represents ks.toFinset := by
  simpa using (represents_withCapacity capacity).insertAll ks

/-- **A set of keys is the set of the keys that were inserted.**  Whatever room there was at first and
whatever was inserted since, the next insertion says whether its key was among these keys, the set
has them as its members, counts each of them once and lists them by increasing index.  Every bit that
is set belongs to one of them, so no index is met for which there is no key. -/
theorem inserted_keys_are_the_members (capacity : Nat) (ks : List κ) :
    let s := (withCapacity capacity).insertAll ks
    (∀ k, s.containsThenInsert k =
        (decide (k ∈ ks), (withCapacity capacity).insertAll (ks ++ [k]))) ∧
      (∀ k, s.contains k = decide (k ∈ ks)) ∧
      s.size = ks.toFinset.card ∧
      (s.isEmpty = true ↔ ks = []) ∧
      s.keys.Pairwise (fun a b => ArenaKey.index a < ArenaKey.index b) ∧
      (∀ k, k ∈ s.keys ↔ k ∈ ks) ∧
      ∀ i, s.bits[i]?.getD false = true ↔ ∃ k ∈ ks, ArenaKey.index k = i := by
  intro s
  have hs : s.Represents ks.toFinset := represents_insertAll capacity ks
  have hcontains : ∀ k, s.contains k = decide (k ∈ ks) := by
    intro k
    calc
      s.contains k = (decide (k ∈ ks) || (withCapacity capacity).contains k) :=
        contains_insertAll _ ks k
      _ = decide (k ∈ ks) := by rw [contains_withCapacity, Bool.or_false]
  refine ⟨?_, hcontains, hs.counted, ?_, s.keys_increasing, ?_, ?_⟩
  · intro k
    have hnext : (withCapacity capacity).insertAll (ks ++ [k]) = s.insert k := List.foldl_append ..
    rw [containsThenInsert, hcontains, hnext]
  · rw [isEmpty, decide_eq_true_eq, hs.counted, Finset.card_eq_zero, List.toFinset_eq_empty_iff]
  · intro k
    rw [mem_keys, hcontains, decide_eq_true_eq]
  · intro i
    simpa using hs.marked i

end ShaderIR.KeySet
