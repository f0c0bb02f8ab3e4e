import ShaderIR.Proofs.DeadBranch.Outcome

/-!
# The ids that are killed

An id stops existing in one of three ways: its phi gives way to a value, its instruction is stripped
from an unreachable block that has to stay, or its block is removed.  Each way marks it as killed.
Ids are defined once, so what is marked has no second definition that would be left, and every
mention was renamed or would have kept the definition.

* `Repaired.not_mem_bodyIds`: a phi that has given way is not defined any more;
* `Removed.not_mem_bodyIds`: nor is what a removal has lost;
* `killed_iff_gone`: the killed ids are those that are gone, and nothing mentions them.
-/

namespace ShaderIR

/-! ## 1. Phis that have given way -/

namespace PhiRepair.Repaired

variable {P : Id → Prop} {f : Function} {T : ConstantTable} {ids : IdSupply} {s : PhiRepair}
  {mended : BlockKey → List Instruction} {x : Id}

/-- The results of a block, phis first, before and after mending. -/
theorem results_eq (h : Repaired P f T ids s mended) {b : BlockKey} (hb : f.Reached b) {k : Block}
    (hk : f.block? b = some k) :
    (f.instructions b).filterMap Instruction.result? =
      (mended b).filterMap Instruction.result? ++ k.afterPhis.filterMap Instruction.result? := by
  have hsplit : k.instructions = k.phis ++ k.afterPhis := List.takeWhile_append_dropWhile.symm
  rw [Function.instructions_of_block? hk, hsplit, List.filterMap_append,
    results_mended (h.mends b hb k hk)]

/-- **A phi that has given way is not defined any more.** -/
theorem not_mem_bodyIds (hn : f.bodyIds.Nodup) (h : Repaired P f T ids s mended)
    (hx : x ∈ s.replacements.map Prod.fst) : x ∉ s.function.bodyIds := by
  have hu := Function.unique_of_nodup hn
  obtain ⟨r, hr, rfl⟩ := List.mem_map.mp hx
  obtain ⟨b, hb, phi, hphi, hcollapsed⟩ := (h.mem_replacements r).mp hr
  obtain ⟨hres, -⟩ := collapsed?_eq_some_iff.mp hcollapsed
  have hlayout := hb.mem_layout h.source
  obtain ⟨k, hk, -⟩ := h.source.exists_block hlayout
  have hresults := h.results_eq hb hk
  have hnodup : ((f.instructions b).filterMap Instruction.result?).Nodup :=
    (List.nodup_append.mp ((List.nodup_flatMap.mp hn).1 b hlayout)).2.1
  rw [hresults] at hnodup
  obtain ⟨hmended, -, hdisjoint⟩ := List.nodup_append.mp hnodup
  have hdefined : ∃ i ∈ f.instructions b, i.result? = some r.1 := by
    refine List.mem_filterMap.mp ?_
    rw [hresults]
    exact List.mem_append_left _ (List.mem_filterMap.mpr ⟨phi, hphi, hres⟩)
  obtain ⟨i₀, hi₀, hres₀⟩ := hdefined
  intro hmem
  rw [Function.mem_bodyIds, h.frame.layout] at hmem
  rcases hmem with ⟨c, hc, hlabel⟩ | ⟨c, hc, i, hi, hix⟩
  · rw [h.frame.label? c] at hlabel
    exact hu.label c hc b hlayout i₀ hi₀ r.1 hlabel hres₀
  · -- the one definition is in the block of the phi
    obtain ⟨j, hj, hjx⟩ := List.mem_filterMap.mp
      ((h.results_sublist hc).subset (List.mem_filterMap.mpr ⟨i, hi, hix⟩))
    obtain ⟨rfl, -⟩ := hu.result hlayout hc hi₀ hj hres₀ hjx
    have hleft := List.mem_filterMap.mpr ⟨i, hi, hix⟩
    rw [Function.instructions_of_block? (h.live b hb k hk), results_mapRefs,
      List.filterMap_append] at hleft
    rcases List.mem_append.mp hleft with hkept | hafter
    · obtain ⟨phi₁, hphi₁, hres₁⟩ := List.mem_filterMap.mp hkept
      obtain ⟨hphi₁, hleft₁⟩ := List.mem_filter.mp hphi₁
      obtain rfl := Function.eq_of_mem_of_nodup_results hmended hphi hphi₁ hres hres₁
      cases (isLeft_iff_collapsed?.mp hleft₁).symm.trans hcollapsed
    · exact hdisjoint r.1 (List.mem_filterMap.mpr ⟨phi, hphi, hres⟩) r.1 hafter rfl

end PhiRepair.Repaired

namespace Function

variable {f f' : Function} {b c : BlockKey} {x : Id} {killed killed' : SortedSet Id}

/-! ## 2. What a removal loses -/

/-- What is lost in a dead block was defined there. -/
theorem mem_bodyIds_of_lostIn (hf : f.Coherent) (hb : f.Dead b) (hx : x ∈ f.lostIn f.sites b) :
    x ∈ f.bodyIds := by
  obtain ⟨k, hk, -⟩ := hf.exists_block hb.1
  rcases (mem_lostIn_iff hk).mp hx with ⟨-, hlabel⟩ | ⟨n, i, hn, hix, -⟩
  · exact mem_bodyIds.mpr (.inl ⟨b, hb.1, hlabel⟩)
  · exact mem_bodyIds.mpr (.inr ⟨b, hb.1, i, List.mem_of_getElem? hn, hix⟩)

/-- **What a removal has lost is not defined any more.** -/
theorem Removed.not_mem_bodyIds (hu : f.Unique) (h : f.Removed killed f' killed') (hb : f.Dead b)
    (hx : x ∈ f.lostIn f.sites b) : x ∉ f'.bodyIds := by
  obtain ⟨k, hk, -⟩ := h.source.exists_block hb.1
  intro hmem
  rcases (mem_lostIn_iff hk).mp hx with ⟨hret, hlabel⟩ | ⟨n, i, hn, hix, hdropped⟩
  · rcases Function.mem_bodyIds.mp hmem with ⟨c, hc, hlabel'⟩ | ⟨c, hc, j, hj, hjx⟩
    · -- the block of the label has been removed
      rw [h.label? hc] at hlabel'
      obtain rfl := h.source.eq_of_label? hb.1 (h.mem_layout.mp hc).1 hlabel hlabel'
      have hdead : f'.Dead b := ⟨hc, fun hr => hb.2 (h.reached_iff.mp hr)⟩
      rw [(h.dead_iff.mp hdead).2] at hret
      cases hret
    · rw [h.instructions hc] at hj
      exact hu.label b hb.1 c (h.mem_layout.mp hc).1 j ((remains_sublist f c).subset hj) x hlabel hjx
  · rcases Function.mem_bodyIds.mp hmem with ⟨c, hc, hlabel'⟩ | ⟨c, hc, j, hj, hjx⟩
    · rw [h.label? hc] at hlabel'
      exact hu.label c (h.mem_layout.mp hc).1 b hb.1 i (List.mem_of_getElem? hn) x hlabel' hix
    · rw [h.instructions hc] at hj
      obtain ⟨rfl, -⟩ := hu.result hb.1 (h.mem_layout.mp hc).1 (List.mem_of_getElem? hn)
        ((remains_sublist f c).subset hj) hix hjx
      rw [remains_of_not_reached h.source hb.2] at hj
      obtain ⟨m, hm, hkept⟩ := mem_splitKept.mp hj
      obtain ⟨-, rfl⟩ := hu.place b hb.1 b hb.1 n m i j x hn hm hix hjx
      rw [hdropped] at hkept
      cases hkept

/-! ## 3. The whole run -/

namespace Phases

variable {w w' : Workspace} {folded : Folding} {repaired : PhiRepair}
  {mended : BlockKey → List Instruction}

/-- **What has been killed was defined and is not any more.** -/
theorem gone_of_killed (h : Phases f w f' w' folded repaired mended)
    (hx : w'.killed.contains x = true) :
    w.killed.contains x = true ∨ (x ∈ f.bodyIds ∧ x ∉ f'.bodyIds) := by
  have hw := h.wellFormed_folded
  have hw₂ := h.wellFormed_repaired
  have hfolded : ∀ {y}, y ∈ folded.function.bodyIds → y ∈ f.bodyIds := fun hy =>
    h.fold.bodyIds_sublist.subset hy
  have hrepaired : ∀ {y}, y ∈ repaired.function.bodyIds → y ∈ f.bodyIds := fun hy =>
    hfolded (h.repair.bodyIds_sublist.subset hy)
  rcases (h.remove.killed x).mp hx with ⟨b, hb, hlost⟩ | hbefore
  · exact .inr ⟨hrepaired (mem_bodyIds_of_lostIn hw₂.coherent hb hlost),
      h.remove.not_mem_bodyIds hw₂.unique hb hlost⟩
  · rw [SortedSet.contains_addAll, Bool.or_eq_true, List.contains_iff_mem] at hbefore
    rcases hbefore with hreplaced | hkilled
    · refine .inr ⟨hfolded (h.repair.mem_bodyIds_of_replaced hreplaced), fun hleft => ?_⟩
      exact h.repair.not_mem_bodyIds hw.nodup hreplaced (h.remove.bodyIds_sublist.subset hleft)
    · exact .inl hkilled

end Phases

/-- **The killed ids are those that are gone, and nothing mentions them.** -/
theorem killed_iff_gone {m : Module} {w w' : Workspace} {changed : Bool} (hm : m.Coherent)
    (hok : m.check = .ok []) (hf : f ∈ m.functionList) (hr : f.Regular)
    (htype : ∀ x ∈ f.bodyIds, ¬ f.UsesType x)
    (hT : w.constants.Tracks w.ids m.globals m.bound) (hkilled : w.killed = SortedMap.empty)
    (h : f.eliminateDeadBranches w = .ok (f', w', changed)) :
    (∀ x, w'.killed.contains x = true ↔ x ∈ f.bodyIds ∧ x ∉ f'.bodyIds) ∧
      ∀ b ∈ f'.layout, ∀ i ∈ f'.instructions b, ∀ x ∈ i.uses, w'.killed.contains x = false := by
  have ha := (Module.check_eq_ok_nil_iff hm).mp hok
  have hready := ready_of_accepted ha hf hr.phi hT
  have hwf := hready.wellFormed
  obtain ⟨folded, repaired, mended, hphases⟩ := eliminateDeadBranches_phases hwf h
  have hempty : ∀ x, w.killed.contains x = false := fun x => by rw [hkilled]; rfl
  have hexact : ∀ x, w'.killed.contains x = true ↔ x ∈ f.bodyIds ∧ x ∉ f'.bodyIds := by
    intro x
    constructor
    · intro hx
      refine (hphases.gone_of_killed hx).resolve_left (fun hbefore => ?_)
      simp [hempty x] at hbefore
    · rintro ⟨hx, hgone⟩
      exact hphases.killed_of_gone hr.ends hx hgone
  refine ⟨hexact, fun b hb i hi x hx => Bool.eq_false_iff.mpr (fun hdead => ?_)⟩
  obtain ⟨hbody, hgone⟩ := (hexact x).mp hdead
  exact hgone (hphases.mem_bodyIds hready hr.ends (mem_bodyUses.mpr ⟨b, hb, i, hi, hx⟩) hbody
    (htype x hbody))

/-- Two selections on `true`, one after the other, and a block that nothing leads to.  The phi `%20`
gives way, the block `%14` stays for the phi `%23` but loses `%22`, and `%16` goes. -/
def twoSelections : Function := .ofBlocks ⟨1⟩ ⟨2⟩ ⟨3⟩ [
  ⟨⟨10⟩, [.selectionMerge ⟨12⟩, .branchConditional ⟨5⟩ ⟨11⟩ ⟨12⟩]⟩,
  ⟨⟨11⟩, [.branch ⟨12⟩]⟩,
  ⟨⟨12⟩, [.phi ⟨4⟩ ⟨20⟩ [(⟨5⟩, ⟨11⟩), (⟨6⟩, ⟨10⟩)], .selectionMerge ⟨15⟩,
    .branchConditional ⟨5⟩ ⟨13⟩ ⟨14⟩]⟩,
  ⟨⟨13⟩, [.branch ⟨15⟩]⟩,
  ⟨⟨14⟩, [⟨.logicalNot, some ⟨4⟩, some ⟨21⟩, [.ref ⟨20⟩]⟩,
    ⟨.logicalNot, some ⟨4⟩, some ⟨22⟩, [.ref ⟨20⟩]⟩, .branch ⟨15⟩]⟩,
  ⟨⟨15⟩, [.phi ⟨4⟩ ⟨23⟩ [(⟨20⟩, ⟨13⟩), (⟨21⟩, ⟨14⟩)], .ret]⟩,
  ⟨⟨16⟩, [.ret]⟩]

/-- The module of `twoSelections`. -/
def twoSelectionsModule : Module := .ofFunction 24 Module.boolGlobals twoSelections

theorem killed_iff_gone_twoSelections :
    twoSelectionsModule.Coherent ∧ twoSelectionsModule.check = .ok [] ∧ twoSelections.Regular ∧
      (∀ x ∈ twoSelections.bodyIds, ¬ twoSelections.UsesType x) ∧
      ∃ f' w', twoSelections.eliminateDeadBranches (.ofModule twoSelectionsModule) =
          .ok (f', w', true) ∧
        w'.killed = SortedSet.ofElements [⟨16⟩, ⟨20⟩, ⟨22⟩] ∧
        (∀ x, w'.killed.contains x = true ↔ x ∈ twoSelections.bodyIds ∧ x ∉ f'.bodyIds) ∧
        ∀ b ∈ f'.layout, ∀ i ∈ f'.instructions b, ∀ x ∈ i.uses, w'.killed.contains x = false := by
  have hm : twoSelectionsModule.Coherent := by decide
  have hcheck : twoSelectionsModule.check = .ok [] := by cbv
  have hregular : twoSelections.Regular := by decide
  have htype : ∀ x ∈ twoSelections.bodyIds, ¬ twoSelections.UsesType x := by decide
  have hrun : (twoSelections.eliminateDeadBranches (.ofModule twoSelectionsModule)).toOption.map
      (fun r => (r.2.1.killed, r.2.2)) =
        some (SortedSet.ofElements [⟨16⟩, ⟨20⟩, ⟨22⟩], true) := by cbv
  refine ⟨hm, hcheck, hregular, htype, ?_⟩
  obtain ⟨⟨f', w', changed⟩, h, hout⟩ := toOption_map_eq_some.mp hrun
  obtain ⟨hkilled, rfl⟩ := Prod.mk.inj hout
  exact ⟨f', w', h, hkilled, killed_iff_gone hm hcheck (List.mem_singleton.mpr rfl) hregular
    htype (ConstantTable.tracks_snapshot _ _) rfl h⟩

end Function
end ShaderIR
