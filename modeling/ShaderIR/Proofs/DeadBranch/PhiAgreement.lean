import ShaderIR.Proofs.DeadBranch.Phases
import ShaderIR.Proofs.DeadBranch.PhiPairs

/-!
# Phis agree with the predecessors

After the pass, the phis of a reachable block name blocks that branch to it, and a phi with a type has
a value for each reachable one of them.  No check has to have passed before: blocks may lack a
terminator, branches may lead nowhere, phis may be in disorder.

One thing has to be said about branches, because a phi that gives way is replaced all over the
function.  If a block branches to the result of a phi, the replacement is its new target, and that
may be a block whose phis have already been mended without it.  So no block may branch to the result
of a phi.  Folding keeps it so: a header that gets an edge to its merge block gets one to a block.

* `Folding.run_keeps`: what folding does to a function with blocks of any shape;
* `phis_agree_with_predecessors`: the phis in the end;
* `phi_misses_new_edge`: a branch to the result of a phi.
-/

namespace ShaderIR

namespace Function

variable {f f' : Function} {w w' : Workspace} {b : BlockKey} {l : Id}

/-- No block branches to the result of a phi that leads a block. -/
def BranchesPastPhis (f : Function) : Prop :=
  ∀ a ∈ f.layout, ∀ l ∈ f.targets a, ∀ b ∈ f.layout, ∀ k ∈ f.block? b, ∀ phi ∈ k.phis,
    phi.result? ≠ some l

instance (f : Function) : Decidable f.BranchesPastPhis :=
  inferInstanceAs (Decidable (∀ a ∈ f.layout, ∀ l ∈ f.targets a, ∀ b ∈ f.layout, ∀ k ∈ f.block? b,
    ∀ phi ∈ k.phis, phi.result? ≠ some l))

end Function

/-! ## 1. Folding -/

namespace Folding

variable {f : Function} {T : ConstantTable} {ids : IdSupply} {s s' : Folding} {b c : BlockKey}
  {e : HeaderEdit} {l : Id}

namespace Rewrite

/-- A new target was one before, or it is the label of a block. -/
theorem mem_targets (h : Rewrite s b e s')
    (hl : l ∈ s'.function.targets b) :
    l ∈ s.function.targets b ∨ ∃ c, s.function.blockOf? l = some c := by
  rw [h.targets_self, h.ending.mem_targets_iff] at hl
  rcases h.ending.blockOf?_of_mem_edges hl with rfl | hc
  · left
    rw [h.targets_before]
    exact ConstantTable.mem_branchTargets_of_takenTarget? h.taken
  · exact .inr hc

theorem phis_of_block? (h : Rewrite s b e s') {k' : Block} (hk' : s'.function.block? c = some k') :
    ∃ k, s.function.block? c = some k ∧ k'.phis = k.phis := by
  by_cases hc : c = b
  · subst hc
    obtain rfl := Option.some.inj (h.block?_self.symm.trans hk')
    exact ⟨e.block, h.block, h.phis_newBlock⟩
  · exact ⟨k', (h.block?_of_ne hc).symm.trans hk', rfl⟩

theorem bodyIds_sublist (h : Rewrite s b e s') :
    s'.function.bodyIds.Sublist s.function.bodyIds := by
  refine Function.bodyIds_sublist (by rw [h.frame.layout]) (fun c _ => h.frame.label? c)
    (fun c _ => ?_)
  by_cases hc : c = b
  · subst hc
    rw [Function.instructions_of_block? h.block?_self, Function.instructions_of_block? h.block]
    exact h.results_newBlock
  · rw [h.instructions_of_ne hc]

/-- A new ending does not make a block branch to the result of a phi. -/
theorem branchesPastPhis (hu : s.function.Unique) (h : Rewrite s b e s')
    (hpast : s.function.BranchesPastPhis) : s'.function.BranchesPastPhis := by
  intro a ha l hl c hc k' hk' phi hphi
  rw [h.frame.layout] at ha hc
  obtain ⟨k, hk, hsame⟩ := h.phis_of_block? hk'
  rw [hsame] at hphi
  have hold : l ∈ s.function.targets a → phi.result? ≠ some l :=
    fun hl => hpast a ha l hl c hc k hk phi hphi
  by_cases hab : a = b
  · subst hab
    rcases h.mem_targets hl with hl | ⟨d, hd⟩
    · exact hold hl
    · obtain ⟨hlayout, hlabel⟩ := h.source.indexed l d hd
      exact hu.label d hlayout c hc phi (Function.mem_instructions_of_phis hk hphi) l hlabel
  · rw [h.targets_of_ne hab] at hl
    exact hold hl

end Rewrite

/-- **What folding keeps of a function with blocks of any shape.** -/
theorem run_keeps (hf : f.Coherent) (hn : f.bodyIds.Nodup) (hpast : f.BranchesPastPhis)
    (h : run f T ids = .ok s) :
    f.SameFrame s.function ∧ s.function.bodyIds.Nodup ∧ s.function.BranchesPastPhis := by
  refine run_induct_rewrite (P := fun s => s.function.bodyIds.Nodup ∧ s.function.BranchesPastPhis)
    hf h ⟨hn, hpast⟩ ?_
  rintro s b e s' ⟨hn, hpast⟩ he
  exact ⟨hn.sublist he.bodyIds_sublist, he.branchesPastPhis (Function.unique_of_nodup hn) hpast⟩

end Folding

/-! ## 2. Replaced phis -/

/-- If no block branches to the result of a phi, no branch target is replaced. -/
theorem PhiRepair.Repaired.rename_target_of_past {P : Id → Prop} {f : Function}
    {T : ConstantTable} {ids : IdSupply} {s : PhiRepair} {mended : BlockKey → List Instruction}
    (h : Repaired P f T ids s mended) (hpast : f.BranchesPastPhis) :
    ∀ a ∈ f.layout, ∀ l ∈ f.targets a, rename s.replacements l = l := by
  intro a ha l hl
  refine rename_of_not_mem (fun hmem => ?_)
  obtain ⟨r, hr, rfl⟩ := List.mem_map.mp hmem
  obtain ⟨b, hb, k, hk, phi, hphi, hres⟩ := h.phi_of_mem_replacements hr
  exact hpast a ha r.1 hl b (hb.mem_layout h.source) k hk phi hphi hres

namespace Function

variable {f f' : Function} {w w' : Workspace} {changed : Bool}

/-- **After the pass the phis agree with the predecessors.** -/
theorem phis_agree_with_predecessors (hf : f.Coherent) (hn : f.bodyIds.Nodup)
    (hpast : f.BranchesPastPhis) (h : f.eliminateDeadBranches w = .ok (f', w', changed)) :
    f'.PhisAgree := by
  obtain ⟨folded, hfold, h⟩ := bind_eq_ok.mp h
  obtain ⟨repaired, hrepair, h⟩ := bind_eq_ok.mp h
  obtain ⟨⟨g, killed, removed⟩, hremove, h⟩ := bind_eq_ok.mp h
  cases h
  obtain ⟨hframe, hn₁, hpast₁⟩ := Folding.run_keeps hf hn hpast hfold
  obtain ⟨mended, hrepaired⟩ := PhiRepair.run_spec (P := fun _ => True) (hframe.coherent hf)
    (unique_of_nodup hn₁) (fun _ _ _ _ _ _ => trivial) hrepair
  have hremoved := removeUnreachable_spec hrepaired.coherent hremove
  exact hrepaired.phisAgree hremoved (hrepaired.rename_target_of_past hpast₁) hn₁

/-- A function that no check would pass: block `%12` branches nowhere, and the phi `%21` has no
pairs. -/
def careless : Function := .ofBlocks ⟨1⟩ ⟨2⟩ ⟨3⟩ [
  ⟨⟨10⟩, [.selectionMerge ⟨13⟩, .branchConditional ⟨5⟩ ⟨11⟩ ⟨12⟩]⟩,
  ⟨⟨11⟩, [.branch ⟨13⟩]⟩,
  ⟨⟨12⟩, [.branchConditional ⟨5⟩ ⟨13⟩ ⟨99⟩]⟩,
  ⟨⟨13⟩, [.phi ⟨4⟩ ⟨20⟩ [(⟨6⟩, ⟨12⟩), (⟨5⟩, ⟨11⟩)], .phi ⟨4⟩ ⟨21⟩ [], .ret]⟩]

/-- Block `%12` branches to the result of its phi.  Block `%10` is folded, so the phi gives way to
its value from `%11`, and that is the label of block `%13`. -/
def branchingToPhi : Function := .ofBlocks ⟨1⟩ ⟨2⟩ ⟨3⟩ [
  ⟨⟨10⟩, [.selectionMerge ⟨12⟩, .branchConditional ⟨5⟩ ⟨11⟩ ⟨12⟩]⟩,
  ⟨⟨11⟩, [.branch ⟨12⟩]⟩,
  ⟨⟨12⟩, [.phi ⟨4⟩ ⟨20⟩ [(⟨13⟩, ⟨11⟩), (⟨5⟩, ⟨10⟩)], .branch ⟨20⟩]⟩,
  ⟨⟨13⟩, [.phi ⟨4⟩ ⟨21⟩ [], .ret]⟩]

/-- A module with the booleans, an undefined one among them, and the function. -/
def inBoolModule (f : Function) : Module := .ofFunction 22
  (Module.boolGlobals ++ [⟨.undef, some ⟨4⟩, some ⟨7⟩, []⟩]) f

theorem phis_agree_with_predecessors_careless :
    careless.Coherent ∧ careless.bodyIds.Nodup ∧ careless.BranchesPastPhis ∧
      ∃ f' w', careless.eliminateDeadBranches (.ofModule careless.inBoolModule) =
        .ok (f', w', true) ∧ f'.PhisAgree := by
  have hco : careless.Coherent := by decide
  have hn : careless.bodyIds.Nodup := by decide
  have hpast : careless.BranchesPastPhis := by decide
  have hrun : (careless.eliminateDeadBranches (.ofModule careless.inBoolModule)).toOption.map
      (fun r => r.2.2) = some true := by cbv
  obtain ⟨⟨f', w', changed⟩, h, rfl⟩ := toOption_map_eq_some.mp hrun
  exact ⟨hco, hn, hpast, f', w', h, phis_agree_with_predecessors hco hn hpast h⟩

/-- **A branch to the result of a phi** may become an edge that no phi knows of. -/
theorem phi_misses_new_edge :
    branchingToPhi.Coherent ∧ branchingToPhi.bodyIds.Nodup ∧
      ∃ f' w', branchingToPhi.eliminateDeadBranches (.ofModule branchingToPhi.inBoolModule) =
        .ok (f', w', true) ∧ ¬ f'.PhisAgree := by
  refine ⟨by decide, by decide, ?_⟩
  have hrun : (branchingToPhi.eliminateDeadBranches
      (.ofModule branchingToPhi.inBoolModule)).toOption.map (fun r => (r.2.2,
        decide r.1.Coherent, r.1.reachable.contains ⟨2⟩, r.1.reachable.contains ⟨3⟩,
        r.1.resolve (r.1.targets ⟨2⟩), (r.1.block? ⟨3⟩).map Block.phis)) =
      some (true, true, true, true, [⟨3⟩], some [.phi ⟨4⟩ ⟨21⟩ []]) := by cbv
  obtain ⟨⟨f', w', changed⟩, h, hout⟩ := toOption_map_eq_some.mp hrun
  simp only [Prod.mk.injEq, decide_eq_true_eq] at hout
  obtain ⟨rfl, hco, ha, hb, hedge, hphis⟩ := hout
  obtain ⟨k, hk, hkphis⟩ := Option.map_eq_some_iff.mp hphis
  refine ⟨f', w', h, fun hagree => ?_⟩
  obtain ⟨p, hp, -⟩ := hagree.covers ⟨3⟩ ((contains_reachable_iff hco).mp hb) k hk
    (.phi ⟨4⟩ ⟨21⟩ []) (by simp [hkphis]) rfl ⟨2⟩ ((contains_reachable_iff hco).mp ha)
    (by simp [hedge])
  cases hp

end Function
end ShaderIR
