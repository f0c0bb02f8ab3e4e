import ShaderIR.ConstantTable

/-!
# Reading operands

The operands of switches and phis are read in pairs.  Cutting into pairs and listing the members of
pairs undo each other on lists of even length, and cutting commutes with mapping.  The targets of a
switch are read by position instead; for operand lists of any length these are the labels of its
pairs.  Whatever a reader takes from the operands is a use of the instruction, and the label a branch
chooses is one of its targets.
-/

namespace ShaderIR

/-! ## 1. Pairs -/

theorem unpair_append {α : Type} (ps qs : List (α × α)) :
    unpair (ps ++ qs) = unpair ps ++ unpair qs := List.flatMap_append

theorem length_unpair {α : Type} (ps : List (α × α)) : (unpair ps).length = 2 * ps.length := by
  induction ps with
  | nil => rfl
  | cons p ps ih =>
    have hcons : unpair (p :: ps) = [p.1, p.2] ++ unpair ps := rfl
    rw [hcons, List.length_append, ih]
    simp only [List.length_cons, List.length_nil]
    omega

/-- A list without a first pair has one element at most. -/
theorem eq_nil_or_singleton {α : Type} {as : List α}
    (h : ∀ a b rest, as = a :: b :: rest → False) : as = [] ∨ ∃ a, as = [a] := by
  rcases as with _ | ⟨a, _ | ⟨b, rest⟩⟩
  · exact .inl rfl
  · exact .inr ⟨a, rfl⟩
  · exact absurd rfl (h a b rest)

theorem length_pairs {α : Type} (as : List α) : (pairs as).length = as.length / 2 := by
  fun_induction pairs as with
  | case1 a b rest ih =>
    simp only [List.length_cons, ih]
    omega
  | case2 as h => rcases eq_nil_or_singleton h with rfl | ⟨a, rfl⟩ <;> simp

theorem unpair_pairs {α : Type} {as : List α} (heven : as.length % 2 = 0) :
    unpair (pairs as) = as := by
  fun_induction pairs as with
  | case1 a b rest ih =>
    have hcons : unpair ((a, b) :: pairs rest) = [a, b] ++ unpair (pairs rest) := rfl
    rw [hcons, ih (by simp only [List.length_cons] at heven; omega)]
    rfl
  | case2 as h =>
    rcases eq_nil_or_singleton h with rfl | ⟨a, rfl⟩
    · rfl
    · simp at heven

theorem pairs_map {α β : Type} (g : α → β) (as : List α) :
    pairs (as.map g) = (pairs as).map (Prod.map g g) := by
  fun_induction pairs as with
  | case1 a b rest ih => simp [pairs, ih]
  | case2 as h => rcases eq_nil_or_singleton h with rfl | ⟨a, rfl⟩ <;> rfl

theorem mem_of_mem_pairs {α : Type} {as : List α} {p : α × α} (h : p ∈ pairs as) :
    p.1 ∈ as ∧ p.2 ∈ as := by
  fun_induction pairs as with
  | case1 a b rest ih =>
    rcases List.mem_cons.mp h with rfl | h
    · simp
    · exact ⟨by simp [(ih h).1], by simp [(ih h).2]⟩
  | case2 as hne => cases h

/-- The second members of the pairs are every other element after the first.  A last element without
a partner is in neither list. -/
theorem everyOther_drop_one {α : Type} (as : List α) :
    everyOther (as.drop 1) = (pairs as).map Prod.snd := by
  fun_induction pairs as with
  | case1 a b rest ih =>
    rw [List.map_cons, ← ih]
    rcases rest with _ | ⟨c, rest⟩ <;> rfl
  | case2 as h => rcases eq_nil_or_singleton h with rfl | ⟨a, rfl⟩ <;> rfl

/-! ## 2. Uses -/

namespace Instruction

variable {i : Instruction} {x : Id} {n : Nat}

theorem mem_uses_of_operand {o : Operand} (ho : o ∈ i.operands) (hx : o.id? = some x) :
    x ∈ i.uses := List.mem_append_right _ (List.mem_filterMap.mpr ⟨o, ho, hx⟩)

theorem mem_uses_of_idOperand? (h : i.idOperand? n = some x) : x ∈ i.uses := by
  obtain ⟨o, ho, hx⟩ := Option.bind_eq_some_iff.mp h
  exact mem_uses_of_operand (List.mem_of_getElem? ho) hx

/-- The labels of a switch that are read by position are those of its cases. -/
theorem filterMap_everyOther (i : Instruction) :
    (everyOther (i.operands.drop 3)).filterMap Operand.id? =
      i.switchCases.filterMap (fun c => c.2.id?) := by
  have hdrop : i.operands.drop 3 = (i.operands.drop 2).drop 1 := by rw [List.drop_drop]
  rw [hdrop, everyOther_drop_one, List.filterMap_map]
  rfl

theorem mem_uses_of_mem_branchTargets (h : x ∈ i.branchTargets) : x ∈ i.uses := by
  unfold branchTargets at h
  split at h
  · exact mem_uses_of_idOperand? (Option.mem_toList.mp h)
  · obtain ⟨o, ho, hx⟩ := List.mem_filterMap.mp h
    exact mem_uses_of_operand (List.mem_of_mem_drop (List.mem_of_mem_take ho)) hx
  · rw [filterMap_everyOther] at h
    rcases List.mem_append.mp h with h | h
    · exact mem_uses_of_idOperand? (Option.mem_toList.mp h)
    · obtain ⟨c, hc, hx⟩ := List.mem_filterMap.mp h
      exact mem_uses_of_operand (List.mem_of_mem_drop (mem_of_mem_pairs hc).2) hx
  · cases h

theorem mem_uses_of_mergeTargets? {p : Id × Option Id} (h : i.mergeTargets? = some p)
    (hx : x = p.1 ∨ p.2 = some x) : x ∈ i.uses := by
  unfold mergeTargets? at h
  split at h
  · obtain ⟨m, hm, rfl⟩ := Option.map_eq_some_iff.mp h
    obtain rfl : x = m := by simpa using hx
    exact mem_uses_of_idOperand? hm
  · obtain ⟨m, hm, h⟩ := Option.bind_eq_some_iff.mp h
    obtain ⟨c, hc, h⟩ := Option.bind_eq_some_iff.mp h
    cases h
    rcases hx with rfl | hx
    · exact mem_uses_of_idOperand? hm
    · exact mem_uses_of_idOperand? (hc.trans hx)
  · cases h

theorem mem_uses_of_mem_phiIncoming {p : Id × Id} (h : p ∈ i.phiIncoming) :
    p.1 ∈ i.uses ∧ p.2 ∈ i.uses := by
  obtain ⟨⟨a, b⟩, hab, hp⟩ := List.mem_filterMap.mp h
  obtain ⟨v, hv, hp⟩ := Option.bind_eq_some_iff.mp hp
  obtain ⟨l, hl, hp⟩ := Option.bind_eq_some_iff.mp hp
  cases hp
  exact ⟨mem_uses_of_operand (mem_of_mem_pairs hab).1 hv,
    mem_uses_of_operand (mem_of_mem_pairs hab).2 hl⟩

/-! ## 3. The labels a branch chooses -/

variable {t : Instruction} {l : Id}

theorem hasReadableTargets_iff :
    t.hasReadableTargets = true ↔ ¬ (t.opcode = .branchConditional ∧ t.operands = []) := by
  rw [hasReadableTargets, Bool.not_eq_true', ← Bool.not_eq_true, Bool.and_eq_true,
    decide_eq_true_eq, List.isEmpty_iff]

theorem mem_branchTargets_of_idOperand? (ho : t.opcode = .branchConditional) {b : Bool}
    (h : t.idOperand? (if b then 1 else 2) = some l) : l ∈ t.branchTargets := by
  obtain ⟨o, hget, hid⟩ := Option.bind_eq_some_iff.mp h
  have hmem : ((t.operands.drop 1).take 2)[if b then 0 else 1]? = some o := by
    cases b <;> simpa [List.getElem?_take, List.getElem?_drop] using hget
  simp only [branchTargets, ho]
  exact List.mem_filterMap.mpr ⟨o, List.mem_of_getElem? hmem, hid⟩

theorem mem_branchTargets_of_case (ho : t.opcode = .switch) {w : UInt32}
    (h : (ConstantTable.caseLabel? t.switchCases w).or (t.idOperand? 1) = some l) :
    l ∈ t.branchTargets := by
  simp only [branchTargets, ho, filterMap_everyOther]
  rcases Option.or_eq_some_iff.mp h with hc | ⟨-, hd⟩
  · obtain ⟨c, hc, hl⟩ := Option.bind_eq_some_iff.mp hc
    exact List.mem_append_right _ (List.mem_filterMap.mpr ⟨c, List.mem_of_find?_eq_some hc, hl⟩)
  · exact List.mem_append_left _ (by simp [hd])

end Instruction
end ShaderIR
