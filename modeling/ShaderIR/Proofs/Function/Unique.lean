import ShaderIR.Proofs.DeadBranch.Proposals
import ShaderIR.Proofs.Validity.Rules

/-!
# Ids that are defined once

Where the ids of a body are defined once, a result tells its block and its instruction, and no
result is a label.

* `unique_of_nodup`: both follow if the ids of the body are listed without repetition;
* `bodyIds_sublist`: an edit that only takes away keeps it;
* `Unique.definedIn?_eq_some_iff`: what the definitions of a body say.
-/

namespace ShaderIR.Function

variable {f g : Function} {b c : BlockKey} {i j : Instruction} {x : Id}

/-- A result is defined at one place in one block, and no label is a result. -/
structure Unique (f : Function) : Prop where
  place : ∀ b ∈ f.layout, ∀ c ∈ f.layout, ∀ (n m : Nat) (i j : Instruction) (x : Id),
    (f.instructions b)[n]? = some i → (f.instructions c)[m]? = some j →
    i.result? = some x → j.result? = some x → b = c ∧ n = m
  label : ∀ b ∈ f.layout, ∀ c ∈ f.layout, ∀ i ∈ f.instructions c, ∀ x,
    f.label? b = some x → i.result? ≠ some x

theorem Unique.result (h : f.Unique) (hb : b ∈ f.layout) (hc : c ∈ f.layout)
    (hi : i ∈ f.instructions b) (hj : j ∈ f.instructions c) (hix : i.result? = some x)
    (hjx : j.result? = some x) : b = c ∧ i = j := by
  obtain ⟨n, hn⟩ := List.mem_iff_getElem?.mp hi
  obtain ⟨m, hm⟩ := List.mem_iff_getElem?.mp hj
  obtain ⟨rfl, rfl⟩ := h.place b hb c hc n m i j x hn hm hix hjx
  rw [hn] at hm
  exact ⟨rfl, Option.some.inj hm⟩

theorem mem_bodyIds : x ∈ f.bodyIds ↔
    (∃ b ∈ f.layout, f.label? b = some x) ∨
      ∃ b ∈ f.layout, ∃ i ∈ f.instructions b, i.result? = some x := by
  simp only [bodyIds, List.mem_flatMap, List.mem_append, Option.mem_toList, List.mem_filterMap]
  constructor
  · rintro ⟨b, hb, h | h⟩
    · exact .inl ⟨b, hb, h⟩
    · exact .inr ⟨b, hb, h⟩
  · rintro (⟨b, hb, h⟩ | ⟨b, hb, h⟩)
    · exact ⟨b, hb, .inl h⟩
    · exact ⟨b, hb, .inr h⟩

theorem mem_bodyUses :
    x ∈ f.bodyUses ↔ ∃ b ∈ f.layout, ∃ i ∈ f.instructions b, x ∈ i.uses := by
  simp only [bodyUses, List.mem_flatMap]

theorem eq_of_nodup_results {is : List Instruction} (h : (is.filterMap Instruction.result?).Nodup)
    {n m : Nat} (hn : is[n]? = some i) (hm : is[m]? = some j) (hix : i.result? = some x)
    (hjx : j.result? = some x) : n = m := by
  induction is generalizing n m with
  | nil => cases hn
  | cons a is ih =>
    have htail : (is.filterMap Instruction.result?).Nodup := by
      cases ha : a.result? with
      | none => simpa [ha] using h
      | some y =>
        rw [List.filterMap_cons_some ha] at h
        exact (List.nodup_cons.mp h).2
    have hhead : ∀ (p : Nat) (k : Instruction), is[p]? = some k → a.result? = some x →
        k.result? ≠ some x := by
      intro p k hk ha hkx
      rw [List.filterMap_cons_some ha] at h
      exact (List.nodup_cons.mp h).1 (List.mem_filterMap.mpr ⟨k, List.mem_of_getElem? hk, hkx⟩)
    cases n with
    | zero =>
      obtain rfl : a = i := by simpa using hn
      cases m with
      | zero => rfl
      | succ m => exact absurd hjx (hhead m j (by simpa using hm) hix)
    | succ n =>
      cases m with
      | zero =>
        obtain rfl : a = j := by simpa using hm
        exact absurd hix (hhead n i (by simpa using hn) hjx)
      | succ m => exact congrArg Nat.succ (ih htail (by simpa using hn) (by simpa using hm))

/-- Of instructions that define no id twice, one at most has a given result. -/
theorem eq_of_mem_of_nodup_results {is : List Instruction}
    (h : (is.filterMap Instruction.result?).Nodup) (hi : i ∈ is) (hj : j ∈ is)
    (hix : i.result? = some x) (hjx : j.result? = some x) : i = j := by
  obtain ⟨n, hn⟩ := List.mem_iff_getElem?.mp hi
  obtain ⟨m, hm⟩ := List.mem_iff_getElem?.mp hj
  obtain rfl := eq_of_nodup_results h hn hm hix hjx
  exact Option.some.inj (hn.symm.trans hm)

/-- **A body that defines no id twice.** -/
theorem unique_of_nodup (h : f.bodyIds.Nodup) : f.Unique := by
  obtain ⟨hblock, hpair⟩ := List.nodup_flatMap.mp h
  have hne : ∀ {b c}, b ∈ f.layout → c ∈ f.layout → b ≠ c →
      List.Disjoint ((f.label? b).toList ++ (f.instructions b).filterMap Instruction.result?)
        ((f.label? c).toList ++ (f.instructions c).filterMap Instruction.result?) := by
    intro b c hb hc hbc
    have : Std.Symm (Function.onFun List.Disjoint (fun k =>
        (f.label? k).toList ++ (f.instructions k).filterMap Instruction.result?)) :=
      ⟨fun _ _ hd => List.Disjoint.symm hd⟩
    exact hpair.forall hb hc hbc
  constructor
  · intro b hb c hc n m i j x hn hm hix hjx
    have hbc : b = c := by
      by_contra hbc
      exact hne hb hc hbc
        (List.mem_append_right _ (List.mem_filterMap.mpr ⟨i, List.mem_of_getElem? hn, hix⟩))
        (List.mem_append_right _ (List.mem_filterMap.mpr ⟨j, List.mem_of_getElem? hm, hjx⟩))
    subst hbc
    exact ⟨rfl, eq_of_nodup_results (List.nodup_append.mp (hblock b hb)).2.1 hn hm hix hjx⟩
  · intro b hb c hc i hi x hl hix
    have hmem : x ∈ (f.instructions c).filterMap Instruction.result? :=
      List.mem_filterMap.mpr ⟨i, hi, hix⟩
    by_cases hbc : b = c
    · subst hbc
      exact (List.nodup_append.mp (hblock b hb)).2.2 x (by simp [hl]) x hmem rfl
    · exact hne hb hc hbc (List.mem_append_left _ (by simp [hl]))
        (List.mem_append_right _ hmem)

/-- Taking blocks and instructions away defines no id again. -/
theorem bodyIds_sublist (hlayout : g.layout.Sublist f.layout)
    (hlabel : ∀ b ∈ g.layout, g.label? b = f.label? b)
    (hresults : ∀ b ∈ g.layout, ((g.instructions b).filterMap Instruction.result?).Sublist
      ((f.instructions b).filterMap Instruction.result?)) : g.bodyIds.Sublist f.bodyIds := by
  refine (List.Sublist.flatMap_right g.layout ?_).trans (hlayout.flatMap _)
  intro b hb
  rw [hlabel b hb]
  exact (List.Sublist.refl _).append (hresults b hb)

theorem mem_definitions {e : Id × BlockKey} : e ∈ f.definitions ↔
    e.2 ∈ f.layout ∧ ∃ i ∈ f.instructions e.2, i.result? = some e.1 := by
  obtain ⟨x, b⟩ := e
  simp only [definitions, List.mem_reverse, List.mem_filterMap, mem_body, Option.map_eq_some_iff,
    Prod.mk.injEq]
  constructor
  · rintro ⟨⟨b', i⟩, ⟨hb, hi⟩, y, hy, rfl, rfl⟩
    exact ⟨hb, i, hi, hy⟩
  · rintro ⟨hb, i, hi, hx⟩
    exact ⟨(b, i), ⟨hb, hi⟩, x, hx, rfl, rfl⟩

/-- The definitions name the block of the one instruction that defines a value. -/
theorem Unique.definedIn?_eq_some_iff (h : f.Unique) :
    f.definedIn? x = some b ↔ b ∈ f.layout ∧ ∃ i ∈ f.instructions b, i.result? = some x := by
  unfold definedIn?
  constructor
  · intro hx
    obtain ⟨e, he, rfl⟩ := Option.map_eq_some_iff.mp hx
    obtain rfl : e.1 = x := by simpa using List.find?_some he
    exact mem_definitions.mp (List.mem_of_find?_eq_some he)
  · rintro ⟨hb, i, hi, hix⟩
    have hmem : (x, b) ∈ f.definitions := mem_definitions.mpr ⟨hb, i, hi, hix⟩
    cases hfind : f.definitions.find? (fun e => e.1 = x) with
    | none => simpa using List.find?_eq_none.mp hfind (x, b) hmem
    | some e =>
      obtain rfl : e.1 = x := by simpa using List.find?_some hfind
      obtain ⟨hc, j, hj, hjx⟩ := mem_definitions.mp (List.mem_of_find?_eq_some hfind)
      exact congrArg some (h.result hc hb hj hi hjx hix).1

/-- A definition in a function with fewer results is one in the function with all of them. -/
theorem definedIn?_of_results (hf : f.Unique) (hg : g.Unique) (hlayout : g.layout = f.layout)
    (hresults : ∀ b ∈ f.layout, ∀ j ∈ g.instructions b, ∀ x, j.result? = some x →
      ∃ i ∈ f.instructions b, i.result? = some x) (hx : g.definedIn? x = some b) :
    f.definedIn? x = some b := by
  obtain ⟨hb, j, hj, hjx⟩ := hg.definedIn?_eq_some_iff.mp hx
  rw [hlayout] at hb
  exact hf.definedIn?_eq_some_iff.mpr ⟨hb, hresults b hb j hj x hjx⟩

end ShaderIR.Function
