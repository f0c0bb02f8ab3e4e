import Mathlib.Algebra.Order.BigOperators.Group.List
import Mathlib.Algebra.Order.Ring.Nat
import Mathlib.Data.List.Perm.Subperm
import Mathlib.Data.List.Permutation

/-!
# Lists

What is said of the functions of a module, the blocks of a layout or the entries of a map is said of
lists, and some of it holds of any list.

* `exists_of_mem_left`, `exists_of_mem_right`, `flatMap_sublist_of_forall₂`: two lists that are kept
  in step;
* `flatMap_perm_append`, `perm_of_perm_map`: lists in another order;
* `eraseDups_of_nodup`: a list without doubles;
* `sum_map_add_le`: sums.
-/

namespace ShaderIR

variable {α β : Type}

theorem exists_of_mem_left {R : α → β → Prop} {as : List α} {bs : List β}
    (h : List.Forall₂ R as bs) {a : α} (ha : a ∈ as) : ∃ b ∈ bs, R a b := by
  induction h with
  | nil => cases ha
  | cons hab _ ih =>
    rcases List.mem_cons.mp ha with rfl | ha
    · exact ⟨_, by simp, hab⟩
    · obtain ⟨b, hb, hab'⟩ := ih ha
      exact ⟨b, by simp [hb], hab'⟩

theorem exists_of_mem_right {R : α → β → Prop} {as : List α} {bs : List β}
    (h : List.Forall₂ R as bs) {b : β} (hb : b ∈ bs) : ∃ a ∈ as, R a b :=
  exists_of_mem_left (R := fun b a => R a b) (List.Forall₂.flip h) hb

theorem flatMap_sublist_of_forall₂ {R : α → α → Prop} {g : α → List β} {as bs : List α}
    (h : List.Forall₂ R as bs) (hsub : ∀ a b, R a b → (g b).Sublist (g a)) :
    (bs.flatMap g).Sublist (as.flatMap g) := by
  induction h with
  | nil => exact .refl _
  | cons hab _ ih =>
    rw [List.flatMap_cons, List.flatMap_cons]
    exact (hsub _ _ hab).append ih

/-- What is added at one place of a list of lists is added to the whole. -/
theorem flatMap_perm_append {g g' : α → List β} {as : List α} {a : α} {bs : List β}
    (hnodup : as.Nodup) (ha : a ∈ as) (hself : g' a = g a ++ bs)
    (hother : ∀ c ∈ as, c ≠ a → g' c = g c) : (as.flatMap g').Perm (as.flatMap g ++ bs) := by
  obtain ⟨before, after, rfl⟩ := List.append_of_mem ha
  have hne : ∀ c ∈ before ++ after, c ≠ a := fun c hc hca =>
    (List.nodup_middle.mp hnodup).notMem (hca ▸ hc)
  have hsame : ∀ cs : List α, (∀ c ∈ cs, c ∈ before ++ after) → cs.flatMap g' = cs.flatMap g := by
    intro cs hcs
    refine List.flatMap_congr (fun c hc => hother c ?_ (hne c (hcs c hc)))
    exact List.perm_middle.mem_iff.mpr (List.mem_cons_of_mem _ (hcs c hc))
  rw [List.flatMap_append, List.flatMap_append, List.flatMap_cons, List.flatMap_cons, hself,
    hsame before (by simp +contextual), hsame after (by simp +contextual)]
  simp only [List.append_assoc]
  exact (List.perm_append_comm.append_left _).append_left _

/-- A part of a list that has the names of the whole, each once, is the list in another order. -/
theorem perm_of_perm_map {name : α → β} {l l' : List α} (hdistinct : (l'.map name).Nodup)
    (hsubset : l ⊆ l') (h : (l.map name).Perm (l'.map name)) : l.Perm l' := by
  have hl : l.Nodup := List.Nodup.of_map name (h.nodup_iff.mpr hdistinct)
  have hlength : l'.length ≤ l.length := by simpa using h.length_eq.ge
  exact (List.subperm_of_subset hl hsubset).perm_of_length_le hlength

theorem eraseDups_of_nodup [DecidableEq α] {as : List α} (h : as.Nodup) : as.eraseDups = as := by
  induction as with
  | nil => rfl
  | cons a as ih =>
    obtain ⟨ha, has⟩ := List.nodup_cons.mp h
    have hkeep : as.filter (fun c => !c == a) = as := by
      refine List.filter_eq_self.mpr (fun c hc => ?_)
      have hne : c ≠ a := fun e => ha (e ▸ hc)
      simpa using hne
    rw [List.eraseDups_cons, hkeep, ih has]

/-- One item got lighter by `d` and none got heavier. -/
theorem sum_map_add_le {as : List α} {p q : α → Nat} (h : ∀ a ∈ as, p a ≤ q a) {a : α}
    (ha : a ∈ as) {d : Nat} (hd : p a + d ≤ q a) : (as.map p).sum + d ≤ (as.map q).sum := by
  induction as with
  | nil => cases ha
  | cons x as ih =>
    have hx := h x (by simp)
    have hrest : ∀ y ∈ as, p y ≤ q y := fun y hy => h y (by simp [hy])
    simp only [List.map_cons, List.sum_cons]
    rcases List.mem_cons.mp ha with rfl | ha
    · have hsum := List.sum_le_sum hrest
      omega
    · have hsum := ih hrest ha
      omega

end ShaderIR
