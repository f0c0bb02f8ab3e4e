import ShaderIR.Proofs.DeadBranch.PhiPairs
import ShaderIR.Proofs.DeadBranch.Simulation

/-!
# The function in the end

What is left of the rules for functions when a function has been processed.  Ids that are mentioned
are still defined, ids that are gone are marked as killed, control does not get back to the entry,
and every phi has a pair for each reachable block that branches to it and no pair for one that does
not.  What may be missing is a pair for an unreachable block that had to stay.

* `Phases.mem_bodyUses`: where the ids that a processed function mentions come from;
* `Phases.mem_bodyIds`, `Phases.killed_of_gone`: which of its ids are still there;
* `Phases.phi_parents`, `Phases.phi_covers`: the pairs of its phis;
* `Phases.sound_iff`: the one thing that may be wrong with it.
-/

namespace ShaderIR

/-! ## 1. The entry -/

namespace Folding

variable {f : Function} {s s' : Folding} {b e a : BlockKey} {edit : HeaderEdit} {T : ConstantTable}
  {ids : IdSupply}

/-- **Folding sends no block to the entry.** -/
theorem Step.entry_not_target (h : Step s b edit s') (he : s.function.entry? = some e)
    (hold : e ∉ s.function.resolve (s.function.targets a)) :
    e ∉ s'.function.resolve (s'.function.targets a) := by
  rw [h.mem_resolve_iff]
  by_cases hab : a = b
  · subst hab
    rw [Function.withTargets_self]
    intro hmem
    obtain ⟨l, hl, hle⟩ := Function.mem_resolve.mp hmem
    obtain rfl := h.ending.eq_live_of_entry hl (fun c hc => Option.some.inj (hle.symm.trans hc) ▸ he)
    refine hold (Function.mem_resolve.mpr ⟨edit.live, ?_, hle⟩)
    rw [h.targets_before]
    exact ConstantTable.mem_branchTargets_of_takenTarget? h.taken
  · rw [Function.withTargets_of_ne hab]
    exact hold

theorem run_entry_not_target (hf : f.Coherent) (hparts : f.HasParts) (he : f.entry? = some e)
    (hold : e ∉ f.resolve (f.targets a)) (h : run f T ids = .ok s) :
    e ∉ s.function.resolve (s.function.targets a) :=
  (run_induct (P := fun s => e ∉ s.function.resolve (s.function.targets a)) hf hparts h hold
    (fun _ _ _ _ _ hprogress _ _ hs hstep =>
      hstep.entry_not_target (hprogress.frame.entry?.trans he) hs)).2

end Folding

/-- The phis of reachable blocks have a pair for each unreachable block that branches to them. -/
def Function.CoversDead (f : Function) : Prop :=
  ∀ b, f.Reached b → ∀ k, f.block? b = some k → ∀ phi ∈ k.phis, ∀ a, f.Dead a →
    b ∈ f.resolve (f.targets a) → f.HasPairFor phi a

namespace Function.Phases

open PhiRepair

variable {f f' : Function} {w w' : Workspace} {folded : Folding} {repaired : PhiRepair}
  {mended : BlockKey → List Instruction} {a b c : BlockKey} {x l : Id} {i i' phi : Instruction}

/-! ## 2. Targets -/

theorem mem_layout (h : Phases f w f' w' folded repaired mended) (hb : b ∈ f'.layout) :
    b ∈ f.layout := by
  have hmem := (h.remove.mem_layout.mp hb).1
  rwa [h.repair.frame.layout, h.fold.frame.layout] at hmem

theorem rename_target (h : Phases f w f' w' folded repaired mended) :
    ∀ a ∈ folded.function.layout, ∀ l ∈ folded.function.targets a,
      rename repaired.replacements l = l := by
  have hw := h.wellFormed_folded
  exact fun a ha l hl => h.repair.rename_target hw.sound ha hl

/-- A block goes where it went after folding. -/
theorem targets_result (h : Phases f w f' w' folded repaired mended) (hb : b ∈ f'.layout) :
    f'.targets b = folded.function.targets b := by
  have hw := h.wellFormed_folded
  have hw₂ := h.wellFormed_repaired
  have hb₂ := (h.remove.mem_layout.mp hb).1
  have hb₁ : b ∈ folded.function.layout := h.repair.frame.layout ▸ hb₂
  obtain ⟨k₂, hk₂, -⟩ := hw₂.coherent.exists_block hb₂
  obtain ⟨body, merge?, t, hp⟩ := hw₂.sound.hasParts b hb₂ k₂ hk₂
  obtain ⟨body', -, hk', hp'⟩ := h.remove.parts hb hk₂ hp
  calc f'.targets b
    _ = t.branchTargets := by rw [targets_of_block? hk', hp'.targets_eq]
    _ = repaired.function.targets b := by rw [targets_of_block? hk₂, hp.targets_eq]
    _ = folded.function.targets b :=
        h.repair.targets hw.sound hb₁

theorem blockOf?_eq (h : Phases f w f' w' folded repaired mended) (hl : f'.blockOf? l = some c) :
    folded.function.blockOf? l = some c := by
  have hmem := (h.remove.blockOf?_eq_some_iff.mp hl).1
  rwa [h.repair.frame.blockOf?] at hmem

/-- An edge into a reachable block, in the end and after folding. -/
theorem mem_resolve_result (h : Phases f w f' w' folded repaired mended) (ha : a ∈ f'.layout)
    (hb : folded.function.Reached b) :
    b ∈ f'.resolve (f'.targets a) ↔ b ∈ folded.function.resolve (folded.function.targets a) := by
  rw [h.targets_result ha, mem_resolve, mem_resolve]
  refine exists_congr (fun l => and_congr_right (fun _ => ?_))
  refine ⟨h.blockOf?_eq, fun hl => ?_⟩
  exact blockOf?_result h hb (h.fold.frame.blockOf? l ▸ hl)

/-- **Control does not get back to the entry.** -/
theorem entry_not_target (hf : f.Ready w) (h : Phases f w f' w' folded repaired mended)
    {e : BlockKey} (he : f'.entry? = some e) (ha : a ∈ f'.layout) :
    e ∉ f'.resolve (f'.targets a) := by
  have hwf := hf.wellFormed
  have he₀ : f.entry? = some e := by
    rw [← he, h.remove.entry?, h.repair.frame.entry?, h.fold.frame.entry?]
  have hlive : folded.function.Reached e := .entry (h.fold.frame.entry?.trans he₀)
  rw [h.mem_resolve_result ha hlive]
  exact Folding.run_entry_not_target hwf.coherent hwf.sound.hasParts he₀
    (hf.sound.entry e he₀ a (h.mem_layout ha)) h.run

/-! ## 3. Instructions and the ids they mention -/

/-- Where an instruction comes from: folding or the mending of a phi, and then renaming. -/
theorem origin (h : Phases f w f' w' folded repaired mended) (hb : b ∈ f'.layout)
    (hi : i' ∈ f'.instructions b) :
    ∃ i, i' = i.mapRefs (rename repaired.replacements) ∧
      (i ∈ folded.function.instructions b ∨ (folded.function.Reached b ∧ i ∈ mended b)) := by
  have hw := h.wellFormed_folded
  have hb₁ : b ∈ folded.function.layout := h.repair.frame.layout ▸ (h.remove.mem_layout.mp hb).1
  obtain ⟨k₁, hk₁, -⟩ := hw.coherent.exists_block hb₁
  obtain ⟨body, merge?, t, hp⟩ := hw.sound.hasParts b hb₁ k₁ hk₁
  obtain ⟨k₂, hk₂, -, hp₂⟩ := h.repair.parts hb₁ hk₁ hp
  rw [h.remove.instructions hb] at hi
  have hi₂ := (remains_sublist _ _).subset hi
  rw [instructions_of_block? hk₂, hp₂.mem_instructions_iff] at hi₂
  rw [instructions_of_block? hk₁]
  rcases hi₂ with hmem | hmem | rfl
  · obtain ⟨i, hbody, rfl⟩ := List.mem_map.mp hmem
    rcases Repaired.mem_leftBody hw.coherent hbody with hbody | hmended
    · exact ⟨i, rfl, .inl (hp.mem_instructions_iff.mpr (.inl hbody))⟩
    · exact ⟨i, rfl, .inr hmended⟩
  · obtain ⟨i, hmerge, rfl⟩ := Option.map_eq_some_iff.mp hmem
    exact ⟨i, rfl, .inl (hp.mem_instructions_iff.mpr (.inr (.inl hmerge)))⟩
  · exact ⟨t, rfl, .inl (hp.mem_instructions_iff.mpr (.inr (.inr rfl)))⟩

/-- An id that was not mentioned before: a new constant, or the label of a block. -/
def New (f : Function) (T : ConstantTable) (x : Id) : Prop :=
  T.true? = some x ∨ (∃ t, T.undefs.get? t = some x) ∨ ∃ c, f.blockOf? x = some c

theorem new_or_mem_of_folded (h : Phases f w f' w' folded repaired mended) (hb : b ∈ f.layout)
    (hi : i ∈ folded.function.instructions b) (hx : x ∈ i.uses) :
    x ∈ f.bodyUses ∨ New f w'.constants x := by
  obtain ⟨k, hk, -⟩ := h.wellFormed.coherent.exists_block hb
  obtain ⟨k₁, hk₁, -, body, merge?, t, merge?', t', hp, hp₁, hend⟩ := h.fold.block b hb k hk
  rw [instructions_of_block? hk₁, hp₁.eq, List.append_assoc] at hi
  have hused : ∀ j ∈ body ++ (merge?.toList ++ [t]), x ∈ j.uses → x ∈ f.bodyUses := by
    intro j hj hxj
    refine mem_bodyUses.mpr ⟨b, hb, j, ?_, hxj⟩
    rwa [instructions_of_block? hk, hp.eq, List.append_assoc]
  rcases List.mem_append.mp hi with hi | hi
  · exact .inl (hused i (List.mem_append_left _ hi) hx)
  · rcases hend.mem_uses hi hx with ⟨j, hj, hxj⟩ | htrue
    · exact .inl (hused j (List.mem_append_right _ hj) hxj)
    · exact .inr (.inl (h.constants ▸ h.repair.grows.true?_mono htrue))

/-- The ids that a mended phi mentions. -/
theorem new_or_mem_of_mended (h : Phases f w f' w' folded repaired mended)
    (hb : folded.function.Reached b) (hi : i ∈ mended b) (hx : x ∈ i.uses) :
    x ∈ f.bodyUses ∨ New f w'.constants x := by
  have hw := h.wellFormed_folded
  have hlayout := hb.mem_layout hw.coherent
  obtain ⟨k₁, hk₁, -⟩ := hw.coherent.exists_block hlayout
  obtain ⟨phi, hphi, supplied, rfl, hsupplied, -⟩ :=
    exists_of_mem_right (h.repair.mends b hb k₁ hk₁) hi
  have hmem : phi ∈ folded.function.instructions b :=
    instructions_of_block? hk₁ ▸ (Block.mem_of_mem_phis hphi).1
  have hold : x ∈ phi.uses → x ∈ f.bodyUses ∨ New f w'.constants x := fun hx =>
    h.new_or_mem_of_folded (h.fold.frame.layout ▸ hlayout) hmem hx
  rcases List.mem_append.mp hx with htype | hop
  · exact hold (List.mem_append_left _ htype)
  · obtain ⟨o, ho, hox⟩ := List.mem_filterMap.mp hop
    obtain ⟨p, hp, hop⟩ := List.mem_flatMap.mp ho
    rcases List.mem_append.mp hp with hp | hp
    · -- the pair was there before
      obtain ⟨hp₁, hp₂⟩ := mem_of_mem_pairs (List.mem_filter.mp hp).1
      have hin : o ∈ phi.operands := by
        rcases List.mem_pair.mp hop with rfl | rfl
        · exact hp₁
        · exact hp₂
      exact hold (Instruction.mem_uses_of_operand hin hox)
    · obtain ⟨q, hq, rfl⟩ := List.mem_map.mp hp
      obtain ⟨hlive, -, type, -, hundef⟩ := hsupplied q hq
      rcases List.mem_pair.mp hop with rfl | rfl
      · obtain rfl := Option.some.inj hox
        exact .inr (.inr (.inl ⟨type, h.constants ▸ hundef⟩))
      · obtain rfl := Option.some.inj hox
        obtain ⟨c, hc, -⟩ := (mem_phiParents_live hw.coherent).mp hlive
        exact .inr (.inr (.inr ⟨c, h.fold.frame.blockOf? q.2 ▸ hc⟩))

/-- **Where the ids that a processed function mentions come from.** -/
theorem mem_bodyUses (h : Phases f w f' w' folded repaired mended) (hx : x ∈ f'.bodyUses) :
    x ∈ f.bodyUses ∨ New f w'.constants x := by
  obtain ⟨b, hb, i', hi', hx⟩ := Function.mem_bodyUses.mp hx
  obtain ⟨i, rfl, hi⟩ := h.origin hb hi'
  have horigin : ∀ y ∈ i.uses, y ∈ f.bodyUses ∨ New f w'.constants y := by
    intro y hy
    rcases hi with hi | ⟨hreach, hi⟩
    · exact h.new_or_mem_of_folded (h.mem_layout hb) hi hy
    · exact h.new_or_mem_of_mended hreach hi hy
  rw [Instruction.uses_mapRefs] at hx
  rcases List.mem_append.mp hx with htype | hop
  · exact horigin x (List.mem_append_left _ htype)
  · obtain ⟨y, hy, rfl⟩ := List.mem_map.mp hop
    rcases rename_eq_or_mem repaired.replacements y with hsame | ⟨r, hr, hval⟩
    · rw [hsame]
      exact horigin y (List.mem_append_right _ hy)
    · -- the value of a phi that has given way
      rw [hval]
      obtain ⟨c, hc, phi', hphi', hcollapsed⟩ := (h.repair.mem_replacements r).mp hr
      obtain ⟨-, -, -, l, -, hpairs⟩ := collapsed?_eq_some_iff.mp hcollapsed
      have hpair : (r.2, l) ∈ phi'.phiIncoming := by simp [hpairs]
      exact h.new_or_mem_of_mended hc hphi' (Instruction.mem_uses_of_mem_phiIncoming hpair).1

/-! ## 4. Ids that are still defined -/

/-- Folding keeps what is defined: merge declarations and branches have no results. -/
theorem mem_bodyIds_of_folded (hends : f.BareEnds) (h : Phases f w f' w' folded repaired mended)
    (hx : x ∈ f.bodyIds) : x ∈ folded.function.bodyIds := by
  rw [Function.mem_bodyIds, h.fold.frame.layout]
  rcases Function.mem_bodyIds.mp hx with ⟨b, hb, hlabel⟩ | ⟨b, hb, i, hi, hres⟩
  · exact .inl ⟨b, hb, (h.fold.frame.label? b).trans hlabel⟩
  · obtain ⟨k, hk, -⟩ := h.wellFormed.coherent.exists_block hb
    obtain ⟨k₁, hk₁, -, body, merge?, t, merge?', t', hp, hp₁, -⟩ := h.fold.block b hb k hk
    have hnone := hends b hb i hi
    rw [instructions_of_block? hk] at hi
    refine .inr ⟨b, hb, i, ?_, hres⟩
    rw [instructions_of_block? hk₁]
    rcases hp.mem_instructions_iff.mp hi with hbody | hmerge | rfl
    · exact hp₁.mem_instructions_iff.mpr (.inl hbody)
    · simp [hnone (.inl (hp.merge i hmerge))] at hres
    · simp [hnone (.inr hp.last)] at hres

/-- **An id of the function that is still mentioned is still defined.** -/
theorem mem_bodyIds (hf : f.Ready w) (hends : f.BareEnds)
    (h : Phases f w f' w' folded repaired mended) (hused : x ∈ f'.bodyUses) (hx : x ∈ f.bodyIds)
    (htype : ¬ f.UsesType x) : x ∈ f'.bodyIds := by
  have hfolded := h.mem_bodyIds_of_folded hends hx
  rcases h.repair.mem_bodyIds hfolded with hleft | hgone
  · exact h.remove.mem_bodyIds h.wellFormed_repaired.unique hused hleft
  · -- a phi that has given way is not mentioned, because every mention was renamed
    obtain ⟨b, hb, i', hi', hxi⟩ := Function.mem_bodyUses.mp hused
    obtain ⟨i, rfl, hi⟩ := h.origin hb hi'
    have hlayout : b ∈ folded.function.layout := h.fold.frame.layout ▸ h.mem_layout hb
    rw [Instruction.uses_mapRefs] at hxi
    rcases List.mem_append.mp hxi with hxt | hxo
    · have ht := Option.mem_toList.mp hxt
      refine absurd ?_ htype
      rcases hi with hi | ⟨hlive, hi⟩
      · exact usesType_folded h.fold hlayout hi ht
      · obtain ⟨k, hk, -⟩ := h.wellFormed_folded.coherent.exists_block hlayout
        obtain ⟨phi, hphi, hm⟩ := exists_of_mem_right (h.repair.mends b hlive k hk) hi
        have hmem : phi ∈ folded.function.instructions b :=
          instructions_of_block? hk ▸ (Block.mem_of_mem_phis hphi).1
        exact usesType_folded h.fold hlayout hmem (hm.same.2.1 ▸ ht)
    · obtain ⟨y, -, rfl⟩ := List.mem_map.mp hxo
      exact absurd hgone (h.rename_not_mem hf y)

/-- **An id of the function that is gone is marked as killed.** -/
theorem killed_of_gone (hends : f.BareEnds) (h : Phases f w f' w' folded repaired mended)
    (hx : x ∈ f.bodyIds) (hgone : x ∉ f'.bodyIds) : w'.killed.contains x = true := by
  have hfolded := h.mem_bodyIds_of_folded hends hx
  rcases h.repair.mem_bodyIds hfolded with hleft | hreplaced
  · exact h.remove.killed_of_gone hleft hgone
  · refine (h.remove.killed x).mpr (.inr ?_)
    rw [SortedSet.contains_addAll, List.contains_iff_mem.mpr hreplaced, Bool.true_or]

theorem bodyIds_sublist (h : Phases f w f' w' folded repaired mended) :
    f'.bodyIds.Sublist f.bodyIds :=
  (h.remove.bodyIds_sublist.trans h.repair.bodyIds_sublist).trans h.fold.bodyIds_sublist

/-! ## 5. Readable targets -/

/-- Branches have the operands that say where they go. -/
theorem readable (h : Phases f w f' w' folded repaired mended) (hread : f.Readable) :
    f'.Readable := by
  intro b hb i' hi'
  obtain ⟨i, rfl, hi⟩ := h.origin hb hi'
  rw [Instruction.hasReadableTargets_mapRefs]
  rcases hi with hi | ⟨hlive, hi⟩
  · have hlayout := h.mem_layout hb
    obtain ⟨k, hk, -⟩ := h.wellFormed.coherent.exists_block hlayout
    obtain ⟨k₁, hk₁, -, body, merge?, t, merge?', t', hp, hp₁, hend⟩ := h.fold.block b hlayout k hk
    have hold : ∀ j ∈ k.instructions, j.hasReadableTargets = true := fun j hj =>
      hread b hlayout j (instructions_of_block? hk ▸ hj)
    rw [instructions_of_block? hk₁] at hi
    rcases hp₁.mem_instructions_iff.mp hi with hbody | hmerge | rfl
    · exact hold i (hp.mem_instructions_iff.mpr (.inl hbody))
    · refine Instruction.hasReadableTargets_of_not_isTerminator ?_
      exact Opcode.isTerminator_of_isMerge (hp₁.merge i hmerge)
    · exact hend.hasReadableTargets (hold t (hp.mem_instructions_iff.mpr (.inr (.inr rfl))))
  · have hw := h.wellFormed_folded
    obtain ⟨k, hk, -⟩ := hw.coherent.exists_block (hlive.mem_layout hw.coherent)
    refine Instruction.hasReadableTargets_of_not_isTerminator ?_
    rw [h.repair.opcode_of_mem_mended hlive hk hi]
    rfl

/-! ## 6. The pairs of phis -/

/-- The phis of a reachable block: those there were, mended and renamed. -/
theorem exists_mends (h : Phases f w f' w' folded repaired mended) {k' : Block}
    (hb : f'.Reached b) (hk' : f'.block? b = some k') (hphi : phi ∈ k'.phis) :
    ∃ k phi₀ phi₁, folded.function.block? b = some k ∧ phi₀ ∈ k.phis ∧
      Mends repaired.constants (folded.function.phiParents b) phi₀ phi₁ ∧
      phi = phi₁.mapRefs (rename repaired.replacements) :=
  h.repair.exists_mends h.remove h.rename_target hb hk' hphi

theorem regularPhi (hf : f.Ready w) (h : Phases f w f' w' folded repaired mended) {k' : Block}
    (hb : f'.Reached b) (hk' : f'.block? b = some k') (hphi : phi ∈ k'.phis) : phi.RegularPhi := by
  have hw := h.wellFormed_folded
  have hlive := h.reached_iff.mp hb
  obtain ⟨k, phi₀, phi₁, hk, hphi₀, ⟨supplied, rfl, -⟩, rfl⟩ :=
    h.exists_mends hb hk' hphi
  have hreg := h.regularPhi_folded hf hk (h.fold.frame.layout ▸ hlive.mem_layout hw.coherent) hphi₀
  refine ⟨hreg.type, hreg.result, ?_, ?_⟩
  · simp [Instruction.mapRefs, PhiRepair.mended, length_unpair]
  · intro o ho
    obtain ⟨o₁, ho₁, rfl⟩ := List.mem_map.mp ho
    rw [Operand.id?_mapRef, Option.isSome_map]
    obtain ⟨p, hp, hop⟩ := List.mem_flatMap.mp ho₁
    rcases List.mem_append.mp hp with hp | hp
    · obtain ⟨hp₁, hp₂⟩ := mem_of_mem_pairs (List.mem_filter.mp hp).1
      rcases List.mem_pair.mp hop with rfl | rfl
      · exact hreg.ids _ hp₁
      · exact hreg.ids _ hp₂
    · obtain ⟨q, -, rfl⟩ := List.mem_map.mp hp
      rcases List.mem_pair.mp hop with rfl | rfl <;> rfl

/-- **Every parent in a phi branches to the phi.** -/
theorem phi_parents (h : Phases f w f' w' folded repaired mended) {k' : Block} (hb : f'.Reached b)
    (hk' : f'.block? b = some k') (hphi : phi ∈ k'.phis) : f'.ParentsBranch b phi := by
  have hw := h.wellFormed_folded
  intro p hp a ha
  obtain ⟨a', ha', hedge⟩ := h.repair.phi_parents h.remove h.rename_target hw.nodup hb hk' hphi hp
  obtain rfl := Option.some.inj (ha'.symm.trans ha)
  exact hedge

/-- The phis agree with the predecessors, whether they are regular or not. -/
theorem phisAgree (h : Phases f w f' w' folded repaired mended) : f'.PhisAgree :=
  have hw := h.wellFormed_folded
  h.repair.phisAgree h.remove h.rename_target hw.nodup

/-- **Every phi has a pair for each reachable block that branches to it.** -/
theorem phi_covers (hf : f.Ready w) (h : Phases f w f' w' folded repaired mended) {k' : Block}
    (hb : f'.Reached b) (hk' : f'.block? b = some k') (hphi : phi ∈ k'.phis) (ha : f'.Reached a)
    (hedge : b ∈ f'.resolve (f'.targets a)) : f'.HasPairFor phi a := by
  exact h.repair.phi_covers h.remove h.rename_target hb hk' hphi
    (h.regularPhi hf hb hk' hphi).type ha hedge

/-- **What may be wrong with a processed function** is a phi without a pair for an unreachable
block. -/
theorem sound_iff (hf : f.Ready w) (h : Phases f w f' w' folded repaired mended) :
    f'.Sound ↔ f'.CoversDead := by
  constructor
  · intro hs b hb k hk phi hphi a ha hedge
    exact (hs.phi b hb k hk phi hphi (h.regularPhi hf hb hk hphi).result).2 a ha.1 hedge
  · intro hdead
    refine ⟨fun e he a ha => h.entry_not_target hf he ha, h.wellFormed_result.sound, ?_⟩
    intro b hb k hk phi hphi _
    refine ⟨h.phi_parents hb hk hphi, fun a ha hedge => ?_⟩
    by_cases hreach : f'.Reached a
    · exact h.phi_covers hf hb hk hphi hreach hedge
    · exact hdead b hb k hk phi hphi a ⟨ha, hreach⟩ hedge

end Function.Phases
end ShaderIR
