import ShaderIR.Proofs.DeadBranch.Mending
import ShaderIR.Proofs.Function.Unique
import ShaderIR.Proofs.Instruction.Renaming
import ShaderIR.Proofs.Lists

/-!
# What phi repair does to a function

Phi repair goes through the reachable blocks once, mends the phis of each and takes out those that
are left with one value; then it renames all over the function.  `PhiRepair.Repaired` says what comes
out.  A phi is only ever taken out because it lost pairs itself: results are unique, so the list of
results that lost pairs cannot confuse two phis.

* `mem_phiParents_all`, `mem_phiParents_live`: the parents that the pairs are compared with;
* `run_spec`: the outcome of phi repair;
* `run_quiet`, `run_of_matching`: repair that changes nothing.
-/

namespace ShaderIR

namespace Function

variable {f g : Function} {b : BlockKey} {l : Id}

/-- The labels that the pairs of the phis of a block are compared with. -/
def phiParents (f : Function) (b : BlockKey) : PhiParents :=
  PhiRepair.parentsOf f (FlowGraph.ofFunction f) f.reachable b

theorem mem_phiParents_all (hf : f.Coherent) :
    l ∈ (f.phiParents b).all ↔ ∃ a, f.blockOf? l = some a ∧ b ∈ f.resolve (f.targets a) := by
  simp only [phiParents, PhiRepair.parentsOf, mem_labelsOf, FlowGraph.mem_predecessors_iff,
    hf.blockOf?_eq_some_iff]
  constructor
  · rintro ⟨a, ⟨ha, hab⟩, hl⟩
    exact ⟨a, ⟨ha, hl⟩, hab⟩
  · rintro ⟨a, ⟨ha, hl⟩, hab⟩
    exact ⟨a, ⟨ha, hab⟩, hl⟩

theorem mem_phiParents_live (hf : f.Coherent) :
    l ∈ (f.phiParents b).live ↔
      ∃ a, f.blockOf? l = some a ∧ f.Reached a ∧ b ∈ f.resolve (f.targets a) := by
  simp only [phiParents, PhiRepair.parentsOf, mem_labelsOf, List.mem_filter,
    FlowGraph.mem_predecessors_iff, contains_reachable_iff hf, hf.blockOf?_eq_some_iff]
  constructor
  · rintro ⟨a, ⟨⟨ha, hab⟩, hr⟩, hl⟩
    exact ⟨a, ⟨ha, hl⟩, hr, hab⟩
  · rintro ⟨a, ⟨ha, hl⟩, hr, hab⟩
    exact ⟨a, ⟨⟨ha, hab⟩, hr⟩, hl⟩

end Function

namespace PhiRepair

variable {f : Function} {T : ConstantTable} {ids : IdSupply} {s s' : PhiRepair} {P : Id → Prop}
  {b : BlockKey} {k : Block}

/-! ## 1. One block -/

/-- The repair of the phis of one block. -/
theorem mendBlock_spec {parents : PhiParents}
    (hP : ∀ phi ∈ k.phis, ∀ t, phi.type? = some t → P t)
    (h : mendBlock parents s b k = .ok s') :
    ∃ s₁ phis', Mending P s s₁ ∧ s₁.pruned = s.pruned ++ lost parents k.phis ∧
      List.Forall₂ (Mends s₁.constants parents) k.phis phis' ∧
      s' = { s₁ with
        function := s.function.setInstructions b
          (phis'.filter (isLeft parents s₁.pruned) ++ k.afterPhis)
        replacements := s.replacements ++ phis'.filterMap (collapsed? parents s₁.pruned) } := by
  unfold mendBlock at h
  obtain ⟨⟨s₁, phis'⟩, hmend, h⟩ := bind_eq_ok.mp h
  obtain ⟨hm, hpr, hall⟩ := mendPhis_spec hP hmend
  cases h
  exact ⟨s₁, phis', hm, hpr, hall, by simp only [hm.function, hm.replacements]⟩

theorem isLeft_iff_collapsed? {parents : PhiParents} {pruned : List Id} {phi : Instruction} :
    isLeft parents pruned phi = true ↔ collapsed? parents pruned phi = none := by
  simp [isLeft]

/-- Whether a phi is taken out depends on its own result only. -/
theorem collapsed?_congr {parents : PhiParents} {pruned pruned' : List Id} {phi : Instruction}
    (h : ∀ x, phi.result? = some x → (x ∈ pruned ↔ x ∈ pruned')) :
    collapsed? parents pruned phi = collapsed? parents pruned' phi := by
  unfold collapsed?
  split
  · rename_i result value parent hres _
    have hc : pruned.contains result = pruned'.contains result := by
      rw [Bool.eq_iff_iff, List.contains_iff_mem, List.contains_iff_mem]
      exact h result hres
    rw [hc]
  · rfl

theorem collapsed?_eq_some_iff {parents : PhiParents} {pruned : List Id} {phi : Instruction}
    {r : Id × Id} :
    collapsed? parents pruned phi = some r ↔
      phi.result? = some r.1 ∧ r.2 ≠ r.1 ∧ r.1 ∈ pruned ∧
        ∃ l ∈ parents.live, phi.phiIncoming = [(r.2, l)] := by
  obtain ⟨old, new⟩ := r
  unfold collapsed?
  split
  · rename_i result value parent hres hinc
    constructor
    · intro h
      split at h
      · rename_i hc
        simp only [ne_eq, Bool.and_eq_true, decide_eq_true_eq, List.contains_iff_mem] at hc
        cases h
        exact ⟨hres, hc.1.1, hc.1.2, parent, hc.2, hinc⟩
      · cases h
    · rintro ⟨hres', hne, hpr, l, hl, hinc'⟩
      rw [hres] at hres'
      rw [hinc] at hinc'
      cases hres'
      cases hinc'
      rw [if_pos]
      simp [hne, hpr, hl]
  · rename_i hno
    simp only [reduceCtorEq, false_iff]
    rintro ⟨hres, -, -, l, -, hinc⟩
    exact hno _ _ _ hres hinc

/-! ## 2. The blocks done so far -/

/-- The state of phi repair when the phis of the blocks in `done` are repaired, `mended` being their
phis after mending.  The function that is repaired is coherent and defines each id once. -/
structure Progress (P : Id → Prop) (f : Function) (T : ConstantTable) (ids : IdSupply)
    (done : List BlockKey) (s : PhiRepair) (mended : BlockKey → List Instruction) : Prop where
  source : f.Coherent
  unique : f.Unique
  frame : f.SameFrame s.function
  grows : ConstantTable.Grows P T ids s.constants s.ids
  todo : ∀ b, b ∉ done → s.function.block? b = f.block? b
  mends : ∀ b ∈ done, ∀ k, f.block? b = some k →
    List.Forall₂ (Mends s.constants (f.phiParents b)) k.phis (mended b)
  block : ∀ b ∈ done, ∀ k, f.block? b = some k → s.function.block? b = some { k with
    instructions := (mended b).filter (isLeft (f.phiParents b) s.pruned) ++ k.afterPhis }
  mem_replacements : ∀ r, r ∈ s.replacements ↔
    ∃ b ∈ done, ∃ phi ∈ mended b, collapsed? (f.phiParents b) s.pruned phi = some r
  mem_pruned : ∀ x, x ∈ s.pruned ↔ ∃ b ∈ done, ∃ k, f.block? b = some k ∧
    ∃ phi ∈ k.phis, Loses (f.phiParents b) phi ∧ phi.result? = some x

/-- Whether a phi of a repaired block is taken out does not depend on what another block loses. -/
theorem Progress.collapsed?_append_lost {done : List BlockKey}
    {mended : BlockKey → List Instruction} (hs : Progress P f T ids done s mended)
    (hdone : ∀ c ∈ done, c ∈ f.layout) (hb : b ∈ f.layout) (hnew : b ∉ done)
    (hk : f.block? b = some k) {c : BlockKey} (hc : c ∈ done) {phi : Instruction}
    (hphi : phi ∈ mended c) :
    collapsed? (f.phiParents c) (s.pruned ++ lost (f.phiParents b) k.phis) phi =
      collapsed? (f.phiParents c) s.pruned phi := by
  refine collapsed?_congr ?_
  intro x hx
  rw [List.mem_append, or_iff_left]
  intro hlost
  obtain ⟨psi, hpsi, -, hres⟩ := mem_lost.mp hlost
  obtain ⟨kc, hkc, -⟩ := hs.source.exists_block (hdone c hc)
  obtain ⟨phi₀, hphi₀, hmends⟩ := exists_of_mem_right (hs.mends c hc kc hkc) hphi
  -- the two results are one, so the two blocks are one
  have hphi₀' : phi₀ ∈ f.instructions c := by
    rw [Function.instructions_of_block? hkc]
    exact (Block.mem_of_mem_phis hphi₀).1
  have hpsi' : psi ∈ f.instructions b := by
    rw [Function.instructions_of_block? hk]
    exact (Block.mem_of_mem_phis hpsi).1
  have hcb := (hs.unique.result (hdone c hc) hb hphi₀' hpsi' (hmends.same.2.2 ▸ hx) hres).1
  exact hnew (hcb ▸ hc)

/-- **One more block.** -/
theorem Progress.step (hP : ∀ b ∈ f.layout, ∀ i ∈ f.instructions b, ∀ t, i.type? = some t → P t)
    {done : List BlockKey} {mended : BlockKey → List Instruction}
    (hs : Progress P f T ids done s mended) (hb : b ∈ f.layout) (hnew : b ∉ done)
    (hdone : ∀ c ∈ done, c ∈ f.layout)
    (h : visit (FlowGraph.ofFunction f) f.reachable s b = .ok s') :
    ∃ mended', Progress P f T ids (done ++ [b]) s' mended' := by
  obtain ⟨k, hk, -⟩ := hs.source.exists_block hb
  have hparents : parentsOf s.function (FlowGraph.ofFunction f) f.reachable b = f.phiParents b := by
    simp only [Function.phiParents, parentsOf, hs.frame.labelsOf]
  unfold visit at h
  simp only [hs.todo b hnew, hk, hparents] at h
  obtain ⟨s₁, phis', hm, hpr, hall, rfl⟩ := mendBlock_spec (fun phi hphi t ht => hP b hb phi
    (Function.instructions_of_block? hk ▸ (Block.mem_of_mem_phis hphi).1) t ht) h
  have hsame : ∀ c ∈ done, ∀ phi ∈ mended c,
      collapsed? (f.phiParents c) s₁.pruned phi = collapsed? (f.phiParents c) s.pruned phi := by
    intro c hc phi hphi
    rw [hpr]
    exact hs.collapsed?_append_lost hdone hb hnew hk hc hphi
  have hne : ∀ c ∈ done, c ≠ b := fun c hc he => hnew (he ▸ hc)
  have hmended : ∀ c ∈ done, Function.update mended b phis' c = mended c :=
    fun c hc => Function.update_of_ne (hne c hc) _ _
  have hmended' : Function.update mended b phis' b = phis' := Function.update_self ..
  refine ⟨Function.update mended b phis', hs.source, hs.unique, ?_, ?_, ?_, ?_, ?_, ?_, ?_⟩
  · exact hs.frame.trans (Function.sameFrame_setInstructions _ _ _)
  · exact hs.grows.trans hm.grows
  · intro c hc
    obtain ⟨hcd, hcb⟩ : c ∉ done ∧ c ≠ b := by simpa using hc
    simp only [Function.block?_setInstructions, if_neg hcb]
    exact hs.todo c hcd
  · refine List.forall_mem_append.mpr ⟨?_, List.forall_mem_singleton.mpr ?_⟩
    · intro c hc kc hkc
      rw [hmended c hc]
      exact (hs.mends c hc kc hkc).imp (fun _ _ hm' => hm'.mono
        (fun _ _ hu => hm.grows.undefs_mono hu))
    · intro kb hkb
      obtain rfl : k = kb := Option.some.inj (hk.symm.trans hkb)
      rw [hmended']
      exact hall
  · refine List.forall_mem_append.mpr ⟨?_, List.forall_mem_singleton.mpr ?_⟩
    · intro c hc kc hkc
      have hfilter : (mended c).filter (isLeft (f.phiParents c) s.pruned) =
          (mended c).filter (isLeft (f.phiParents c) s₁.pruned) :=
        List.filter_congr (fun phi hphi => by rw [isLeft, isLeft, hsame c hc phi hphi])
      simp only [Function.block?_setInstructions, if_neg (hne c hc), hmended c hc]
      rw [hs.block c hc kc hkc, hfilter]
    · intro kb hkb
      obtain rfl : k = kb := Option.some.inj (hk.symm.trans hkb)
      simp only [Function.block?_setInstructions, if_true, hs.todo b hnew, hk, Option.map_some,
        hmended']
  · intro r
    simp only [List.mem_append, List.mem_filterMap, List.mem_singleton, hs.mem_replacements]
    constructor
    · rintro (⟨c, hc, phi, hphi, hr⟩ | ⟨phi, hphi, hr⟩)
      · exact ⟨c, .inl hc, phi, by rwa [hmended c hc], by rwa [hsame c hc phi hphi]⟩
      · exact ⟨b, .inr rfl, phi, by rwa [hmended'], hr⟩
    · rintro ⟨c, hc | rfl, phi, hphi, hr⟩
      · rw [hmended c hc] at hphi
        exact .inl ⟨c, hc, phi, hphi, by rwa [← hsame c hc phi hphi]⟩
      · rw [hmended'] at hphi
        exact .inr ⟨phi, hphi, hr⟩
  · intro x
    simp only [hpr, List.mem_append, hs.mem_pruned, mem_lost, List.mem_singleton]
    constructor
    · rintro (⟨c, hc, h⟩ | ⟨phi, hphi, h⟩)
      · exact ⟨c, .inl hc, h⟩
      · exact ⟨b, .inr rfl, k, hk, phi, hphi, h⟩
    · rintro ⟨c, hc | rfl, kc, hkc, phi, hphi, h⟩
      · exact .inl ⟨c, hc, kc, hkc, phi, hphi, h⟩
      · obtain rfl : k = kc := Option.some.inj (hk.symm.trans hkc)
        exact .inr ⟨phi, hphi, h⟩

/-! ## 3. The whole function -/

/-- The outcome of phi repair, `mended` being the phis of the reachable blocks after mending. -/
structure Repaired (P : Id → Prop) (f : Function) (T : ConstantTable) (ids : IdSupply)
    (s : PhiRepair) (mended : BlockKey → List Instruction) : Prop where
  source : f.Coherent
  unique : f.Unique
  frame : f.SameFrame s.function
  grows : ConstantTable.Grows P T ids s.constants s.ids
  mends : ∀ b, f.Reached b → ∀ k, f.block? b = some k →
    List.Forall₂ (Mends s.constants (f.phiParents b)) k.phis (mended b)
  live : ∀ b, f.Reached b → ∀ k, f.block? b = some k → s.function.block? b = some { k with
    instructions := ((mended b).filter (isLeft (f.phiParents b) s.pruned) ++ k.afterPhis).map
      (Instruction.mapRefs (rename s.replacements)) }
  dead : ∀ b ∈ f.layout, ¬ f.Reached b → ∀ k, f.block? b = some k →
    s.function.block? b = some { k with
      instructions := k.instructions.map (Instruction.mapRefs (rename s.replacements)) }
  mem_replacements : ∀ r, r ∈ s.replacements ↔
    ∃ b, f.Reached b ∧ ∃ phi ∈ mended b, collapsed? (f.phiParents b) s.pruned phi = some r
  mem_pruned : ∀ x, x ∈ s.pruned ↔ ∃ b, f.Reached b ∧ ∃ k, f.block? b = some k ∧
    ∃ phi ∈ k.phis, Loses (f.phiParents b) phi ∧ phi.result? = some x

theorem Repaired.coherent {mended : BlockKey → List Instruction}
    (h : Repaired P f T ids s mended) : s.function.Coherent := h.frame.coherent h.source

/-- **What phi repair does.** -/
theorem run_spec (hf : f.Coherent) (hu : f.Unique)
    (hP : ∀ b ∈ f.layout, ∀ i ∈ f.instructions b, ∀ t, i.type? = some t → P t)
    (h : run f T ids = .ok s) : ∃ mended, Repaired P f T ids s mended := by
  unfold run at h
  obtain ⟨s₁, hfold, h⟩ := bind_eq_ok.mp h
  cases h
  have hmem : ∀ b, b ∈ f.layout.filter f.reachable.contains ↔ f.Reached b := by
    intro b
    rw [List.mem_filter, Function.contains_reachable_iff hf]
    exact ⟨fun hb => hb.2, fun hb => ⟨hb.mem_layout hf, hb⟩⟩
  have hnodup : (f.layout.filter f.reachable.contains).Nodup := hf.nodup.filter _
  obtain ⟨mended, hs⟩ : ∃ mended,
      Progress P f T ids (f.layout.filter f.reachable.contains) s₁ mended := by
    refine foldlM_induct_done (P := fun done s => ∃ mended, Progress P f T ids done s mended) hfold
      ⟨fun _ => [], hf, hu, .refl f, .refl, fun _ _ => rfl, by simp, by simp, by simp, by simp⟩ ?_
    rintro done b after s s' hsplit ⟨mended, hs⟩ hstep
    have hsub : ∀ c ∈ done ++ [b], c ∈ f.layout := by
      intro c hc
      refine (List.mem_filter.mp (?_ : c ∈ f.layout.filter f.reachable.contains)).1
      rw [hsplit, List.append_cons]
      exact List.mem_append_left _ hc
    have hnew : b ∉ done := by
      rw [hsplit] at hnodup
      exact fun hb => (List.nodup_append.mp hnodup).2.2 b hb b (by simp) rfl
    exact hs.step hP (hsub b (by simp)) hnew (fun c hc => hsub c (by simp [hc])) hstep
  have hsubst := fun c => block?_substitute s₁.function s₁.replacements c
  rw [hs.frame.layout] at hsubst
  refine ⟨mended, hf, hu, ?_, hs.grows, ?_, ?_, ?_, ?_, ?_⟩
  · exact hs.frame.trans (sameFrame_substitute _ _)
  · exact fun b hb => hs.mends b ((hmem b).mpr hb)
  · intro b hb k hk
    simp only [hsubst b, if_pos (hb.mem_layout hf), hs.block b ((hmem b).mpr hb) k hk,
      Option.map_some]
  · intro b hb hnot k hk
    simp only [hsubst b, if_pos hb, hs.todo b (fun hd => hnot ((hmem b).mp hd)), hk,
      Option.map_some]
  · intro r
    simp only [hs.mem_replacements, hmem]
  · intro x
    simp only [hs.mem_pruned, hmem]

/-! ## 4. Repair that changes nothing -/

/-- Neither a phi nor a mark has been touched. -/
def Quiet (s : PhiRepair) : Prop := s.changed = false ∧ s.replacements = []

/-- Where every phi has an even number of operands, a block whose repair is not marked as a change
is left as it is. -/
theorem mendBlock_quiet {parents : PhiParents} (hk : s.function.block? b = some k)
    (heven : ∀ phi ∈ k.phis, phi.operands.length % 2 = 0)
    (h : mendBlock parents s b k = .ok s') (hquiet : s'.Quiet) : s' = s := by
  unfold mendBlock at h
  obtain ⟨⟨s₁, phis'⟩, hmend, h⟩ := bind_eq_ok.mp h
  cases h
  obtain ⟨hchanged, hreplaced⟩ := hquiet
  obtain ⟨rfl, rfl⟩ := mendPhis_quiet heven hmend hchanged
  obtain ⟨hnone, hnew⟩ := List.append_eq_nil_iff.mp hreplaced
  have hkept : k.phis.filter (isLeft parents s₁.pruned) = k.phis := by
    refine List.filter_eq_self.mpr (fun phi hphi => isLeft_iff_collapsed?.mpr ?_)
    exact List.filterMap_eq_nil_iff.mp hnew phi hphi
  have hsplit : k.phis ++ k.afterPhis = s₁.function.instructions b := by
    rw [Function.instructions_of_block? hk]
    exact List.takeWhile_append_dropWhile
  simp only [hkept, hsplit, Function.setInstructions_self, hnew, List.append_nil]

theorem visit_mono {g : FlowGraph} {live : KeySet BlockKey} (h : visit g live s b = .ok s')
    (hquiet : s'.Quiet) : s.Quiet := by
  unfold visit at h
  split at h
  · obtain ⟨s₁, phis', hm, -, -, rfl⟩ := mendBlock_spec (P := fun _ => True)
      (fun _ _ _ _ => trivial) h
    exact ⟨hm.quiet hquiet.1, (List.append_eq_nil_iff.mp hquiet.2).1⟩
  · cases h
    exact hquiet

/-- **Repair that is not marked as a change is none.** -/
theorem run_quiet
    (heven : ∀ b ∈ f.layout, ∀ k, f.block? b = some k → ∀ phi ∈ k.phis, phi.operands.length % 2 = 0)
    (h : run f T ids = .ok s) (hquiet : s.changed = false) : s = ⟨f, T, ids, [], [], false⟩ := by
  unfold run at h
  obtain ⟨s₁, hfold, h⟩ := bind_eq_ok.mp h
  cases h
  have hq : s₁.Quiet := by simpa [Quiet] using hquiet
  obtain rfl : s₁ = ⟨f, T, ids, [], [], false⟩ := by
    refine (foldlM_quiet (Q := Quiet) hfold hq (fun s b s' hstep => visit_mono hstep) ?_).1
    intro b hb s' hstep hquiet
    unfold visit at hstep
    split at hstep
    · rename_i k hk
      exact mendBlock_quiet hk (heven b (List.mem_filter.mp hb).1 k hk) hstep hquiet
    · exact (Except.ok.inj hstep).symm
  simp [substitute]

/-- **Phis that match the predecessors need no repair.** -/
theorem run_of_matching (hf : f.Coherent)
    (h : ∀ b, f.Reached b → ∀ k, f.block? b = some k → ∀ phi ∈ k.phis,
      phi.operands.length % 2 = 0 ∧ (∀ p ∈ phi.phiIncoming, p.2 ∈ (f.phiParents b).all) ∧
        (phi.type?.isSome → ∀ l ∈ (f.phiParents b).live, ∃ p ∈ phi.phiIncoming, p.2 = l)) :
    run f T ids = .ok ⟨f, T, ids, [], [], false⟩ := by
  refine bind_eq_ok.mpr ⟨⟨f, T, ids, [], [], false⟩, foldlM_fixed (fun b hb => ?_), by
    simp [substitute]⟩
  obtain ⟨hlayout, hlive⟩ := List.mem_filter.mp hb
  obtain ⟨k, hk, -⟩ := hf.exists_block hlayout
  have hreached := (Function.contains_reachable_iff hf).mp hlive
  have hmend : mendPhis (f.phiParents b) ⟨f, T, ids, [], [], false⟩ k.phis =
      .ok (⟨f, T, ids, [], [], false⟩, k.phis) := mendPhis_of_matching (h b hreached k hk)
  have hnone : ∀ phi, collapsed? (f.phiParents b) [] phi = none := by
    intro phi
    refine Option.eq_none_iff_forall_ne_some.mpr (fun r hr => ?_)
    simpa using (collapsed?_eq_some_iff.mp hr).2.2.1
  have hkept : k.phis.filter (isLeft (f.phiParents b) []) = k.phis :=
    List.filter_eq_self.mpr (fun phi _ => isLeft_iff_collapsed?.mpr (hnone phi))
  have hsplit : k.phis ++ k.afterPhis = f.instructions b := by
    rw [Function.instructions_of_block? hk]
    exact List.takeWhile_append_dropWhile
  rw [visit]
  simp only [hk]
  refine bind_eq_ok.mpr ⟨_, hmend, ?_⟩
  have hparents : parentsOf f (FlowGraph.ofFunction f) f.reachable b = f.phiParents b := rfl
  simp [hparents, hkept, hnone, hsplit]

end PhiRepair
end ShaderIR
