import ShaderIR.Proofs.DeadBranch.Removal
import ShaderIR.Proofs.DeadBranch.RepairedFunction

/-!
# The pairs of phis after repair and removal

Phis are repaired while the unreachable blocks are still there, and phis that give way are replaced
all over the function.  If no branch target is replaced, control gets where it got before, so the
pairs that were right when they were written are right in the end: a block that is named in a pair
stays in place for it and keeps its terminator.

The shape of the blocks does not matter for this, and no block has to be sound.

* `exists_mends`: the phis in the end are mended and renamed phis;
* `phi_parents`: every pair names a block that branches to the phi;
* `phi_covers`: a phi with a type has a pair for each reachable block that branches to it;
* `Function.PhisAgree`: both, and `PhisAgree.run_eq`: then there is nothing left to repair.
-/

namespace ShaderIR

/-- The phis that lead reachable blocks agree with the branches to these blocks: their pairs name
blocks that branch there, and one with a type has a pair for each reachable one. -/
structure Function.PhisAgree (f : Function) : Prop where
  parents : ∀ b, f.Reached b → ∀ k, f.block? b = some k → ∀ phi ∈ k.phis, ∀ p ∈ phi.phiIncoming,
    ∃ a ∈ f.layout, f.label? a = some p.2 ∧ b ∈ f.resolve (f.targets a)
  covers : ∀ b, f.Reached b → ∀ k, f.block? b = some k → ∀ phi ∈ k.phis, phi.type?.isSome →
    ∀ a, f.Reached a → b ∈ f.resolve (f.targets a) →
      ∃ p ∈ phi.phiIncoming, f.label? a = some p.2

namespace PhiRepair.Repaired

variable {P : Id → Prop} {f f' : Function} {T : ConstantTable} {ids : IdSupply} {s : PhiRepair}
  {mended : BlockKey → List Instruction} {killed killed' : SortedSet Id} {a b : BlockKey}
  {k' : Block} {phi : Instruction}

section
variable (h : Repaired P f T ids s mended) (hr : s.function.Removed killed f' killed')
  (hfix : ∀ a ∈ f.layout, ∀ l ∈ f.targets a, rename s.replacements l = l)
include h hr hfix

/-! ## 1. Control -/

theorem reached_result : f'.Reached b ↔ f.Reached b :=
  hr.reached_iff.trans (h.reached_iff_of_fixed hfix)

/-- A reachable block is as repair left it. -/
theorem block?_result {k : Block} (hb : f.Reached b) (hk : f.block? b = some k) :
    f'.block? b = some { k with
      instructions := ((mended b).filter (isLeft (f.phiParents b) s.pruned) ++ k.afterPhis).map
        (Instruction.mapRefs (rename s.replacements)) } := by
  rw [hr.block?_of_reached ((h.reached_iff_of_fixed hfix).mpr hb)]
  exact h.live b hb k hk

/-- A branch from a reachable block is one that was there before repair. -/
theorem mem_resolve_of_result (ha : f.Reached a) (hedge : b ∈ f'.resolve (f'.targets a)) :
    b ∈ f.resolve (f.targets a) := by
  have hlayout := ha.mem_layout h.source
  obtain ⟨l, hl, hlb⟩ := Function.mem_resolve.mp hedge
  rw [hr.targets_of_reached ((h.reached_iff_of_fixed hfix).mpr ha),
    h.targets_of_fixed (hfix a hlayout) hlayout] at hl
  refine Function.mem_resolve.mpr ⟨l, hl, ?_⟩
  rw [← h.frame.blockOf?]
  exact (hr.blockOf?_eq_some_iff.mp hlb).1

/-- A branch to a reachable block is left if the block it comes from is. -/
theorem mem_resolve_result (ha : a ∈ f'.layout) (hb : f.Reached b)
    (hedge : b ∈ f.resolve (f.targets a)) : b ∈ f'.resolve (f'.targets a) := by
  have hlayout : a ∈ f.layout := h.frame.layout ▸ (hr.mem_layout.mp ha).1
  obtain ⟨l, hl, hlb⟩ := Function.mem_resolve.mp hedge
  have hl' : l ∈ s.function.targets a := by
    rwa [h.targets_of_fixed (hfix a hlayout) hlayout]
  refine Function.mem_resolve.mpr ⟨l, hr.mem_targets ha hl', hr.blockOf?_eq_some_iff.mpr ⟨?_, ?_⟩⟩
  · rwa [h.frame.blockOf?]
  · exact Function.stays_of_reached hr.source ((h.reached_iff_of_fixed hfix).mpr hb)

/-! ## 2. Phis -/

/-- **The phis of a reachable block** are those there were, mended and renamed. -/
theorem exists_mends (hb : f'.Reached b) (hk' : f'.block? b = some k') (hphi : phi ∈ k'.phis) :
    ∃ k phi₀ phi₁, f.block? b = some k ∧ phi₀ ∈ k.phis ∧
      Mends s.constants (f.phiParents b) phi₀ phi₁ ∧
      phi = phi₁.mapRefs (rename s.replacements) := by
  have hlive := (h.reached_result hr hfix).mp hb
  obtain ⟨k, hk, -⟩ := h.source.exists_block (hlive.mem_layout h.source)
  obtain rfl := Option.some.inj ((h.block?_result hr hfix hlive hk).symm.trans hk')
  have hisphi : ∀ i ∈ (mended b).filter (isLeft (f.phiParents b) s.pruned),
      i.opcode.isPhi = true :=
    fun i hi => Opcode.isPhi_iff.mpr (h.opcode_of_mem_mended hlive hk (List.mem_filter.mp hi).1)
  simp only [Block.phis, Block.afterPhis, List.takeWhile_map] at hphi
  obtain ⟨phi₁, hphi₁, rfl⟩ := List.mem_map.mp hphi
  rw [show ((fun i : Instruction => i.opcode.isPhi) ∘ Instruction.mapRefs (rename s.replacements)) =
    fun i => i.opcode.isPhi from rfl, (phis_append_dropWhile hisphi).1] at hphi₁
  obtain ⟨phi₀, hphi₀, hmends⟩ :=
    exists_of_mem_right (h.mends b hlive k hk) (List.mem_filter.mp hphi₁).1
  exact ⟨k, phi₀, phi₁, hk, hphi₀, hmends, rfl⟩

/-- **Every pair of a phi names a block that branches to the phi.** -/
theorem phi_parents (hn : f.bodyIds.Nodup) (hb : f'.Reached b) (hk' : f'.block? b = some k')
    (hphi : phi ∈ k'.phis) {p : Id × Id} (hp : p ∈ phi.phiIncoming) :
    ∃ a, f'.blockOf? p.2 = some a ∧ b ∈ f'.resolve (f'.targets a) := by
  have hu₁ := Function.unique_of_nodup (hn.sublist h.bodyIds_sublist)
  have hlive := (h.reached_result hr hfix).mp hb
  have hlive₁ := (h.reached_iff_of_fixed hfix).mpr hlive
  -- the phi is there before the removal, so what it names is kept
  have hmem : phi ∈ s.function.remains b := by
    rw [hr.block?_of_reached hlive₁] at hk'
    rw [Function.remains_of_reached hr.source hlive₁, Function.instructions_of_block? hk']
    exact (Block.mem_of_mem_phis hphi).1
  have hkept : ∀ c, s.function.blockOf? p.2 = some c → f'.blockOf? p.2 = some c := fun c hc =>
    hr.blockOf?_of_mem_uses hu₁ hmem (Instruction.mem_uses_of_mem_phiIncoming hp).2 hc
  obtain ⟨k, phi₀, phi₁, hk, hphi₀, ⟨supplied, rfl, hsupplied, -⟩, rfl⟩ :=
    h.exists_mends hr hfix hb hk' hphi
  rw [Instruction.phiIncoming_mapRefs] at hp
  obtain ⟨q, hq, rfl⟩ := List.mem_map.mp hp
  have hparent : ∃ a, f.blockOf? q.2 = some a ∧ b ∈ f.resolve (f.targets a) := by
    rw [phiIncoming_mended] at hq
    rcases List.mem_append.mp hq with hq | hq
    · exact (Function.mem_phiParents_all h.source).mp (by simpa using (List.mem_filter.mp hq).2)
    · obtain ⟨a, hl, -, hedge⟩ := (Function.mem_phiParents_live h.source).mp (hsupplied q hq).1
      exact ⟨a, hl, hedge⟩
  obtain ⟨a, ha, hedge⟩ := hparent
  have ha' : f'.blockOf? (Prod.map (rename s.replacements) (rename s.replacements) q).2 = some a := by
    refine hkept a ?_
    rw [Prod.map_snd, h.rename_label ha, h.frame.blockOf?, ha]
  exact ⟨a, ha', h.mem_resolve_result hr hfix (hr.coherent.indexed _ _ ha').1 hlive hedge⟩

/-- **A phi with a type has a pair for each reachable block that branches to it.** -/
theorem phi_covers (hb : f'.Reached b) (hk' : f'.block? b = some k') (hphi : phi ∈ k'.phis)
    (htype : phi.type?.isSome) (ha : f'.Reached a) (hedge : b ∈ f'.resolve (f'.targets a)) :
    f'.HasPairFor phi a := by
  have halive := (h.reached_result hr hfix).mp ha
  obtain ⟨k, phi₀, phi₁, hk, hphi₀, ⟨supplied, rfl, -, hcover⟩, rfl⟩ :=
    h.exists_mends hr hfix hb hk' hphi
  intro l hl
  have hla : f.blockOf? l = some a := by
    rw [← h.frame.blockOf?]
    refine (hr.blockOf?_eq_some_iff.mp (hr.coherent.blockOf?_eq_some_iff.mpr ⟨?_, hl⟩)).1
    exact Function.ReachedBy.mem_layout hr.coherent ha
  have hparent : l ∈ (f.phiParents b).live := (Function.mem_phiParents_live h.source).mpr
    ⟨a, hla, halive, h.mem_resolve_of_result hr hfix halive hedge⟩
  obtain ⟨p, hp, rfl⟩ := hcover htype l hparent
  refine ⟨Prod.map (rename s.replacements) (rename s.replacements) p, ?_, h.rename_label hla⟩
  rw [Instruction.phiIncoming_mapRefs]
  exact List.mem_map_of_mem hp

/-- **The phis of reachable blocks agree with the predecessors.** -/
theorem phisAgree (hn : f.bodyIds.Nodup) : f'.PhisAgree := by
  constructor
  · intro b hb k hk phi hphi p hp
    obtain ⟨a, ha, hedge⟩ := h.phi_parents hr hfix hn hb hk hphi hp
    obtain ⟨hlayout, hlabel⟩ := hr.coherent.indexed p.2 a ha
    exact ⟨a, hlayout, hlabel, hedge⟩
  · intro b hb k hk phi hphi htype a ha hedge
    obtain ⟨l, hl, -⟩ := hr.coherent.named a (Function.ReachedBy.mem_layout hr.coherent ha)
    obtain ⟨p, hp, rfl⟩ :=
      h.phi_covers hr hfix hb hk hphi htype ha hedge l hl
    exact ⟨p, hp, hl⟩

end
end PhiRepair.Repaired

/-! ## 3. Phis that agree -/

/-- **Phis that agree with the predecessors need no repair.** -/
theorem Function.PhisAgree.run_eq {f : Function} {T : ConstantTable} {ids : IdSupply}
    (hf : f.Coherent) (h : f.PhisAgree)
    (heven : ∀ b, f.Reached b → ∀ k, f.block? b = some k → ∀ phi ∈ k.phis,
      phi.operands.length % 2 = 0) :
    PhiRepair.run f T ids = .ok ⟨f, T, ids, [], [], false⟩ := by
  refine PhiRepair.run_of_matching hf (fun b hb k hk phi hphi => ⟨?_, fun p hp => ?_, ?_⟩)
  · exact heven b hb k hk phi hphi
  · obtain ⟨a, ha, hlabel, hedge⟩ := h.parents b hb k hk phi hphi p hp
    exact (mem_phiParents_all hf).mpr ⟨a, hf.blockOf?_eq_some_iff.mpr ⟨ha, hlabel⟩, hedge⟩
  · intro htype l hl
    obtain ⟨a, hla, ha, hedge⟩ := (mem_phiParents_live hf).mp hl
    obtain ⟨p, hp, hlabel⟩ := h.covers b hb k hk phi hphi htype a ha hedge
    exact ⟨p, hp, Option.some.inj (hlabel.symm.trans (hf.indexed l a hla).2)⟩

end ShaderIR
