import ShaderIR.Proofs.DeadBranch.Outcome

/-!
# Definitions keep dominating their uses

In a function in which every use is dominated by its definition, this is still so when the dead
branches are gone.  Folding has checked it for its new edges.  A phi that collapses is replaced by a
value that is available wherever the phi was, the undefined values that phis are supplied with are no
values of the body, and the removal touches no block that control gets to.

The blocks that control does not get to are another matter.  One of them may have to stay, and its
phis are left as they were: they may hold a value for a parent that the value has stopped to dominate.

* `Phases.available_result`: what is available after folding is available in the end, renamed;
* `uses_stay_dominated`: the uses in reachable blocks stay dominated;
* `stale_phi_of_dead_block`: the phis of a block that is only kept do not.
-/

namespace ShaderIR.Function

open PhiRepair

variable {f f' : Function} {w w' : Workspace} {folded : Folding} {repaired : PhiRepair}
  {mended : BlockKey → List Instruction} {a b c d : BlockKey} {x : Id} {i : Instruction}

/-! ## 1. Availability, from folding to the end -/

namespace Phases

/-- A definition in the end is one after folding, in the same block. -/
theorem definedIn?_folded (h : Phases f w f' w' folded repaired mended)
    (hx : f'.definedIn? x = some d) : folded.function.definedIn? x = some d := by
  have hw := h.wellFormed_folded
  obtain ⟨hd, i, hi, hix⟩ := h.wellFormed_result.unique.definedIn?_eq_some_iff.mp hx
  have hd₂ := (h.remove.mem_layout.mp hd).1
  have hd₁ : d ∈ folded.function.layout := h.repair.frame.layout ▸ hd₂
  rw [h.remove.instructions hd] at hi
  have hleft := List.mem_filterMap.mpr ⟨i, (remains_sublist _ d).subset hi, hix⟩
  obtain ⟨j, hj, hjx⟩ := List.mem_filterMap.mp ((h.repair.results_sublist hd₁).subset hleft)
  exact hw.unique.definedIn?_eq_some_iff.mpr ⟨hd₁, j, hj, hjx⟩

/-- A dominator after folding is a dominator in the end. -/
theorem dominatedBy_result (h : Phases f w f' w' folded repaired mended)
    (hd : folded.function.DominatedBy folded.function.targets d b) (hb : f'.Reached b) :
    f'.DominatedBy f'.targets d b := by
  obtain ⟨e, he, hd⟩ := hd
  obtain ⟨e', he', hb⟩ := hb
  have hentry : f'.entry? = folded.function.entry? := by
    rw [h.remove.entry?, h.repair.frame.entry?]
  obtain rfl := Option.some.inj (he'.symm.trans (hentry.trans he))
  refine ⟨e', he', hd.mono (fun a c ha hac => ?_) hb⟩
  -- an edge out of a reachable block is one that folding left
  have hlayout : a ∈ f'.layout := ReachedBy.mem_layout h.remove.coherent ⟨e', he', ha⟩
  obtain ⟨l, hl, hlc⟩ := mem_resolve.mp hac
  rw [h.targets_result hlayout] at hl
  exact mem_resolve.mpr ⟨l, hl, h.blockOf?_eq hlc⟩

/-- **What is available after folding is available in the end**, under its new name. -/
theorem available_result (hf : f.Ready w) (h : Phases f w f' w' folded repaired mended)
    (hx : folded.function.AvailableBy folded.function.targets x b) (hb : f'.Reached b) :
    f'.AvailableBy f'.targets (rename repaired.replacements x) b := by
  have hrename : folded.function.AvailableBy folded.function.targets
      (rename repaired.replacements x) b := by
    -- only what is available matters here, not what it is worth
    refine (@rename_sound Unit _ (fun _ => ())
      (fun y => folded.function.AvailableBy folded.function.targets y b)
      (fun r hr hr₁ => ⟨?_, rfl⟩) _ hx).1
    obtain ⟨phi, c, a, hc⟩ := h.collapses hf hr
    exact hc.availableBy hr₁
  intro d hd
  exact h.dominatedBy_result (hrename d (h.definedIn?_folded hd)) hb

/-- After folding, definitions dominate their uses if they did before. -/
theorem inOrder_folded (hf : f.Ready w) (h : Phases f w f' w' folded repaired mended)
    (horder : f.InOrderBy f.targets) : folded.function.InOrderBy folded.function.targets := by
  cases hchanged : folded.changed with
  | true => exact h.inOrder_of_changed hf hchanged
  | false =>
    have hsame : folded.function = f := by rw [Folding.run_quiet h.run hchanged]
    rwa [hsame]

/-! ## 2. The uses of a reachable block -/

/-- The pairs of a phi of a reachable block, after mending or not. -/
theorem available_of_phi (hf : f.Ready w) (h : Phases f w f' w' folded repaired mended)
    (horder : folded.function.InOrderBy folded.function.targets) (hb : folded.function.Reached b)
    (hi : i ∈ folded.function.instructions b ∨ i ∈ mended b) (hphi : i.opcode.isPhi = true)
    {p : Id × Id} (hp : p ∈ i.phiIncoming) (ha : folded.function.blockOf? p.2 = some a)
    (hareach : folded.function.Reached a) :
    folded.function.AvailableBy folded.function.targets p.1 a := by
  have hw := h.wellFormed_folded
  rcases hi with hi | hi
  · exact (horder b hb i hi).phi hphi p hp a ha hareach
  · obtain ⟨k, hk, -⟩ := hw.coherent.exists_block (hb.mem_layout hw.coherent)
    obtain ⟨phi, hphi, hmends⟩ := exists_of_mem_right (h.repair.mends b hb k hk) hi
    exact h.available_of_mends hf hb hk hphi hmends horder hp ha hareach

/-- The parents of these pairs are labels. -/
theorem blockOf?_of_phi (h : Phases f w f' w' folded repaired mended)
    (hb : folded.function.Reached b) (hi : i ∈ folded.function.instructions b ∨ i ∈ mended b)
    (hphi : i.opcode.isPhi = true) {p : Id × Id} (hp : p ∈ i.phiIncoming) :
    (folded.function.blockOf? p.2).isSome := by
  have hw := h.wellFormed_folded
  have hlayout := hb.mem_layout hw.coherent
  obtain ⟨k, hk, -⟩ := hw.coherent.exists_block hlayout
  have hsound := hw.sound b hlayout k hk
  rcases hi with hi | hi
  · rw [instructions_of_block? hk] at hi
    exact hsound.refs i hi p.2 (Instruction.mem_blockRefs.mpr (.inr (.inr ⟨hphi, p, hp, rfl⟩)))
  · exact h.repair.blockOf?_of_mended hb hk hsound hi hp

/-- **Definitions dominate their uses in the end if they do so after folding.** -/
theorem inOrder_result (hf : f.Ready w) (h : Phases f w f' w' folded repaired mended)
    (horder : folded.function.InOrderBy folded.function.targets) : f'.InOrderBy f'.targets := by
  have hw := h.wellFormed_folded
  intro b hb i' hi'
  have hlive := h.reached_iff.mp hb
  obtain ⟨i, rfl, hi⟩ := h.origin (ReachedBy.mem_layout h.remove.coherent hb) hi'
  have hi : i ∈ folded.function.instructions b ∨ i ∈ mended b := hi.imp_right And.right
  refine ⟨fun hphi q hq a ha hareach => ?_, fun hphi y hy => ?_⟩
  · -- a pair is a use in its parent, which has kept its label
    rw [Instruction.phiIncoming_mapRefs] at hq
    obtain ⟨p, hp, rfl⟩ := List.mem_map.mp hq
    obtain ⟨c, hc⟩ := Option.isSome_iff_exists.mp (h.blockOf?_of_phi hlive hi hphi hp)
    have hlabel : rename repaired.replacements p.2 = p.2 := h.repair.rename_label hc
    have hpa : folded.function.blockOf? p.2 = some a := by
      rw [Prod.map_snd, hlabel] at ha
      exact h.blockOf?_eq ha
    exact h.available_result hf
      (h.available_of_phi hf horder hlive hi hphi hp hpa (h.reached_iff.mp hareach)) hareach
  · have hmem : i ∈ folded.function.instructions b := by
      rcases hi with hi | hi
      · exact hi
      · obtain ⟨k, hk, -⟩ := hw.coherent.exists_block (hlive.mem_layout hw.coherent)
        rw [Instruction.opcode_mapRefs, h.repair.opcode_of_mem_mended hlive hk hi] at hphi
        cases hphi
    have hused := (horder b hlive i hmem).other hphi
    rw [Instruction.uses_mapRefs] at hy
    rcases List.mem_append.mp hy with htype | hoperand
    · -- a type is not renamed
      intro d hd
      exact h.dominatedBy_result
        (hused y (List.mem_append_left _ htype) d (h.definedIn?_folded hd)) hb
    · obtain ⟨x, hx, rfl⟩ := List.mem_map.mp hoperand
      exact h.available_result hf (hused x (List.mem_append_right _ hx)) hb

end Phases

/-- **The uses in reachable blocks stay dominated by their definitions.** -/
theorem uses_stay_dominated {m : Module} {changed : Bool} (hm : m.Coherent)
    (hok : m.check = .ok []) (hf : f ∈ m.functionList) (hphis : f.RegularPhis)
    (hT : w.constants.Tracks w.ids m.globals m.bound)
    (h : f.eliminateDeadBranches w = .ok (f', w', changed)) (horder : f.InOrderBy f.targets) :
    f'.InOrderBy f'.targets := by
  have hready := ready_of_accepted ((Module.check_eq_ok_nil_iff hm).mp hok) hf hphis hT
  obtain ⟨folded, repaired, mended, hphases⟩ := eliminateDeadBranches_phases hready.wellFormed h
  exact hphases.inOrder_result hready (hphases.inOrder_folded hready horder)

/-! ## 3. Blocks that are only kept -/

/-- Uses are dominated by their definitions, the pairs of the phis of all blocks included. -/
structure InOrderThroughout (f : Function) : Prop where
  other : ∀ b, f.Reached b → ∀ i ∈ f.instructions b, i.opcode.isPhi = false →
    ∀ x ∈ i.uses, f.AvailableBy f.targets x b
  phi : ∀ b ∈ f.layout, ∀ i ∈ f.instructions b, i.opcode.isPhi = true →
    ∀ p ∈ i.phiIncoming, ∀ a, f.blockOf? p.2 = some a → f.Reached a →
      f.AvailableBy f.targets p.1 a

/-- Whether the pairs of all phis are in order. -/
def arePhisDominated (f : Function) : Bool :=
  f.layout.all (fun b => (f.instructions b).all (fun i => !i.opcode.isPhi ||
    i.phiIncoming.all (f.isIncomingDominated f.definitions (f.dominatorsBy f.targets))))

theorem arePhisDominated_iff (hf : f.Coherent) : f.arePhisDominated = true ↔
    ∀ b ∈ f.layout, ∀ i ∈ f.instructions b, i.opcode.isPhi = true → ∀ p ∈ i.phiIncoming,
      ∀ a, f.blockOf? p.2 = some a → f.Reached a → f.AvailableBy f.targets p.1 a := by
  simp only [arePhisDominated, List.all_eq_true, Bool.or_eq_true, Bool.not_eq_true',
    isIncomingDominated_iff hf, Reached]
  refine forall₂_congr (fun b _ => forall₂_congr (fun i _ => ?_))
  cases i.opcode.isPhi <;> simp

/-- The value `%20` of block `%11` dominates block `%12`, where the phi of `%13` takes it from.  First
`%12` is folded, and control does not get to `%13` any more.  Then `%15` gets an edge to its merge
block `%19`, and that leads to `%12` past `%11`.  Block `%13` stays for the phi of `%14`. -/
def bypassed : Function := .ofBlocks ⟨1⟩ ⟨2⟩ ⟨3⟩ [
  ⟨⟨10⟩, [.branchConditional ⟨7⟩ ⟨11⟩ ⟨15⟩]⟩,
  ⟨⟨11⟩, [⟨.logicalNot, some ⟨4⟩, some ⟨20⟩, [.ref ⟨7⟩]⟩, .branch ⟨12⟩]⟩,
  ⟨⟨12⟩, [.selectionMerge ⟨14⟩, .branchConditional ⟨5⟩ ⟨14⟩ ⟨13⟩]⟩,
  ⟨⟨13⟩, [.phi ⟨4⟩ ⟨21⟩ [(⟨20⟩, ⟨12⟩)], .branch ⟨14⟩]⟩,
  ⟨⟨14⟩, [.phi ⟨4⟩ ⟨22⟩ [(⟨5⟩, ⟨12⟩), (⟨21⟩, ⟨13⟩)], .branch ⟨15⟩]⟩,
  ⟨⟨15⟩, [.selectionMerge ⟨19⟩, .branchConditional ⟨5⟩ ⟨16⟩ ⟨18⟩]⟩,
  ⟨⟨16⟩, [.selectionMerge ⟨18⟩, .branchConditional ⟨7⟩ ⟨17⟩ ⟨17⟩]⟩,
  ⟨⟨17⟩, [.ret]⟩,
  ⟨⟨18⟩, [.ret]⟩,
  ⟨⟨19⟩, [.branchConditional ⟨7⟩ ⟨18⟩ ⟨12⟩]⟩]

/-- The module of `bypassed`. -/
def bypassedModule : Module := .ofFunction 23
  (Module.boolGlobals ++ [⟨.undef, some ⟨4⟩, some ⟨7⟩, []⟩]) bypassed

theorem bypassed_accepted :
    bypassedModule.Coherent ∧ bypassedModule.check = .ok [] ∧ bypassed.RegularPhis :=
  ⟨by decide, by cbv, by decide⟩

theorem bypassed_inOrder : bypassed.InOrderBy bypassed.targets :=
  (keepsDominance_iff (by decide)).mp (by cbv)

/-- Both folds are made, and the phi of `%13` is left as it was. -/
theorem bypassed_run : ∃ f' w',
    bypassed.eliminateDeadBranches (.ofModule bypassedModule) = .ok (f', w', true) ∧
      f'.Coherent ∧ f'.arePhisDominated = false := by
  have hrun : (bypassed.eliminateDeadBranches (.ofModule bypassedModule)).toOption.map
      (fun r => (r.1.arePhisDominated, r.2.2)) = some (false, true) := by cbv
  obtain ⟨⟨f', w', changed⟩, h, hout⟩ := toOption_map_eq_some.mp hrun
  obtain ⟨hphis, rfl⟩ := Prod.mk.inj hout
  obtain ⟨hm, hcheck, -⟩ := bypassed_accepted
  have hwf : bypassed.WellFormed :=
    wellFormed_of_accepted ((Module.check_eq_ok_nil_iff hm).mp hcheck) (List.mem_singleton.mpr rfl)
  obtain ⟨folded, repaired, mended, hphases⟩ := eliminateDeadBranches_phases hwf h
  exact ⟨f', w', h, hphases.remove.coherent, hphis⟩

/-- The uses of reachable blocks stay dominated here, too. -/
theorem uses_stay_dominated_bypassed :
    bypassedModule.Coherent ∧ bypassedModule.check = .ok [] ∧ bypassed.RegularPhis ∧
      bypassed.InOrderBy bypassed.targets ∧
      ∃ f' w', bypassed.eliminateDeadBranches (.ofModule bypassedModule) = .ok (f', w', true) ∧
        f'.InOrderBy f'.targets := by
  obtain ⟨hm, hcheck, hphis⟩ := bypassed_accepted
  obtain ⟨f', w', hrun, -⟩ := bypassed_run
  exact ⟨hm, hcheck, hphis, bypassed_inOrder, f', w', hrun,
    uses_stay_dominated hm hcheck (List.mem_singleton.mpr rfl) hphis
      (ConstantTable.tracks_snapshot _ _) hrun bypassed_inOrder⟩

/-- **The phi of a block that is only kept** may hold a value that does not dominate its parent. -/
theorem stale_phi_of_dead_block :
    bypassedModule.Coherent ∧ bypassedModule.check = .ok [] ∧ bypassed.RegularPhis ∧
      bypassed.InOrderThroughout ∧
      ∃ f' w', bypassed.eliminateDeadBranches (.ofModule bypassedModule) = .ok (f', w', true) ∧
        ¬ f'.InOrderThroughout := by
  obtain ⟨hm, hcheck, hphis⟩ := bypassed_accepted
  obtain ⟨f', w', hrun, hco, hstale⟩ := bypassed_run
  refine ⟨hm, hcheck, hphis, ⟨fun b hb i hi => (bypassed_inOrder b hb i hi).other,
    (arePhisDominated_iff (by decide)).mp (by cbv)⟩, f', w', hrun, fun hall => ?_⟩
  rw [(arePhisDominated_iff hco).mpr hall.phi] at hstale
  cases hstale

end ShaderIR.Function
