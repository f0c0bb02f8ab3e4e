import ShaderIR.Proofs.DeadBranch.Phases

/-!
# Structured legality

A proposal is judged by itself, against the function as it is at that moment.  This file shows that
the judgements compose: over a whole run no block becomes reachable, and none that a surviving merge
declaration names is lost.

The delicate case is a header that keeps its merge block.  If that block could not be reached before,
the new edge would open a way to it.  But then the block leads nowhere, so without the edge nothing
else would be lost either: the proposal without the merge block would have been legal, and it comes
first.

* `Lawful`: the invariant, which compares a function with the one folding began with;
* `Step.lawful`: a step keeps it; `run_lawful`: so does a run;
* `Function.Phases.declared`: what is left of the declarations in the end.
-/

namespace ShaderIR

variable {f g : Function} {b c : BlockKey} {l : Id}

namespace Function

/-- The merge blocks and continue targets of reachable blocks can be reached, or lead nowhere. -/
def DeclaresEnds (f : Function) : Prop :=
  ∀ b, f.Reached b → ∀ l ∈ f.declared b, ∀ c, f.blockOf? l = some c →
    f.Reached c ∨ f.targets c = []

/-- The same as a test. -/
def declaresEnds (f : Function) : Bool :=
  f.layout.all (fun b => !f.reachable.contains b || (f.declared b).all (fun l =>
    (f.blockOf? l).all (fun c => f.reachable.contains c || f.targets c = [])))

theorem declaresEnds_iff (hf : f.Coherent) : f.declaresEnds = true ↔ f.DeclaresEnds := by
  have htest : f.declaresEnds = true ↔ ∀ b ∈ f.layout, f.Reached b → ∀ l ∈ f.declared b, ∀ c,
      f.blockOf? l = some c → f.Reached c ∨ f.targets c = [] := by
    simp only [declaresEnds, List.all_eq_true, Bool.or_eq_true, Bool.not_eq_true',
      Option.all_eq_true, decide_eq_true_eq, contains_reachable_iff hf]
    refine forall₂_congr (fun b _ => ?_)
    rw [← Bool.not_eq_true, contains_reachable_iff hf, ← imp_iff_not_or]
  rw [htest]
  exact ⟨fun h b hb => h b (hb.mem_layout hf) hb, fun h b _ hb => h b hb⟩

/-- A declaration is an instruction other than a phi that mentions what it declares. -/
theorem exists_of_mem_declared (hparts : f.HasParts) (hb : b ∈ f.layout) (hl : l ∈ f.declared b) :
    ∃ i ∈ f.instructions b, i.opcode.isPhi = false ∧ l ∈ i.uses := by
  cases hk : f.block? b with
  | none => simp [declared, hk] at hl
  | some k =>
    obtain ⟨body, merge?, t, hp⟩ := hparts b hb k hk
    obtain ⟨p, hp', hlp⟩ := (declared_of_block? hk hp).mp hl
    obtain ⟨i, rfl, hi⟩ := Option.bind_eq_some_iff.mp hp'
    refine ⟨i, ?_, Opcode.isPhi_of_isMerge (hp.merge i rfl),
      Instruction.mem_uses_of_mergeTargets? hi hlp⟩
    rw [instructions_of_block? hk]
    exact hp.mem_instructions_iff.mpr (.inr (.inl rfl))

end Function

/-! ## 1. The invariant -/

/-- How a folded function `g` compares with the function `f` before. -/
structure Lawful (f g : Function) : Prop where
  /-- No block becomes reachable. -/
  reached : ∀ b, g.Reached b → f.Reached b
  /-- What a reachable block declares can be reached, unless it never could. -/
  declared : ∀ b, g.Reached b → ∀ l ∈ g.declared b, ∀ c, g.blockOf? l = some c →
    g.Reached c ∨ (¬ f.Reached c ∧ f.targets c = [])
  /-- Unreachable blocks are left alone. -/
  untouched : ∀ b, ¬ f.Reached b → g.targets b = f.targets b

theorem lawful_refl (h : f.DeclaresEnds) : Lawful f f where
  reached _ hb := hb
  declared b hb l hl c hc := by
    by_cases hr : f.Reached c
    · exact .inl hr
    · exact .inr ⟨hr, (h b hb l hl c hc).resolve_left hr⟩
  untouched _ _ := rfl

namespace Folding

variable {s s' : Folding} {e : HeaderEdit}

/-- A header declares the merge block of its selection. -/
theorem Step.merge_mem_declared (h : Step s b e s') :
    e.selection.merge ∈ s.function.declared b := by
  obtain ⟨i, hp⟩ := h.parts
  obtain ⟨j, hj, ho, -, hm, -, -⟩ := hp.selection?_eq_some_iff.mp h.selection
  refine (Function.declared_of_block? h.block hp).mpr ⟨(e.selection.merge, none), ?_, .inl rfl⟩
  cases hj
  simp [Instruction.mergeTargets?, ho, hm]

/-- The label that a branch always goes to is one of the targets of its block. -/
theorem Step.live_mem_targets (h : Step s b e s') : e.live ∈ s.function.targets b := by
  obtain ⟨i, hp⟩ := h.parts
  rw [Function.targets_of_block? h.block, hp.targets_eq]
  exact ConstantTable.mem_branchTargets_of_takenTarget? h.taken

/-- Without an edge to a block that leads nowhere, nothing else is lost. -/
theorem reachedBy_live_of_leaf {header leaf : BlockKey} {live merge : Id}
    (hleaf : g.targets leaf = []) (hne : leaf ≠ header)
    (hmerge : ∀ c, g.blockOf? merge = some c → c = leaf)
    (hb : g.ReachedBy (g.withTargets header [live, merge]) b) :
    g.ReachedBy (g.withTargets header [live]) b ∨ b = leaf := by
  refine Function.ReachedBy.induct
    (P := fun b => g.ReachedBy (g.withTargets header [live]) b ∨ b = leaf)
    (fun r hr => .inl (.entry hr)) (fun a c _ ha hc => ?_) hb
  rcases ha with ha | rfl
  · by_cases hah : a = header
    · subst hah
      rw [Function.withTargets_self] at hc
      obtain ⟨l, hl, hlc⟩ := Function.mem_resolve.mp hc
      rcases List.mem_cons.mp hl with rfl | hl
      · exact .inl (ha.step (Function.mem_resolve.mpr
          ⟨l, by simp [Function.withTargets_self], hlc⟩))
      · obtain rfl := List.mem_singleton.mp hl
        exact .inr (hmerge c hlc)
    · refine .inl (ha.step ?_)
      rwa [Function.withTargets_of_ne hah] at hc ⊢
  · rw [Function.withTargets_of_ne hne, hleaf] at hc
    simp [Function.resolve] at hc

/-- The merge block that a header keeps could be reached already. -/
theorem Step.reached_of_mem_edges (h : Step s b e s') (hlaw : Lawful f s.function)
    (hl : l ∈ e.edges) (hc : s.function.blockOf? l = some c) : s.function.Reached c := by
  have hlive : ∀ c, s.function.blockOf? e.live = some c → s.function.Reached c := fun c hc =>
    h.reached.step (Function.mem_resolve.mpr ⟨_, h.live_mem_targets, hc⟩)
  rcases h.ending.mem_edges hl with rfl | rfl
  · exact hlive c hc
  · by_contra hnot
    have hend := h.ending
    have hdecl := h.merge_mem_declared
    obtain ⟨hfc, htargets⟩ :=
      (hlaw.declared b h.reached _ hdecl c hc).resolve_left hnot
    have hleaf : s.function.targets c = [] := (hlaw.untouched c hfc).trans htargets
    generalize e.newMerge? = merge?, e.newBranch = t', e.edges = edges, s'.constants = T,
      s'.ids = ids at hend hl
    cases hend with
    | fold legal =>
      rw [List.mem_singleton] at hl
      rw [hl] at hc
      exact hnot (hlive c hc)
    | narrow ne illegal legal condition =>
      refine illegal (legal.of_subset (by simp) (fun d hd hd' => ?_))
      refine (reachedBy_live_of_leaf hleaf (fun he => hnot (he ▸ h.reached))
        (fun c' hc' => Option.some.inj (hc'.symm.trans hc)) hd').resolve_right ?_
      rintro rfl
      exact hnot hd

/-- A step makes no block reachable. -/
theorem Step.reached_mono (h : Step s b e s') (hlaw : Lawful f s.function)
    (hc : s'.function.Reached c) : s.function.Reached c := by
  rw [h.reached_iff] at hc
  refine Function.ReachedBy.induct (fun r hr => .entry hr) (fun a d _ ha hd => ?_) hc
  by_cases hab : a = b
  · subst hab
    rw [Function.withTargets_self] at hd
    obtain ⟨l, hl, hld⟩ := Function.mem_resolve.mp hd
    exact h.reached_of_mem_edges hlaw hl hld
  · rw [Function.withTargets_of_ne hab] at hd
    exact ha.step hd

/-- What the header declares after a step is where it goes. -/
theorem Step.declared_self (h : Step s b e s') (hl : l ∈ s'.function.declared b) :
    l ∈ s'.function.targets b := by
  rw [Function.declared_of_block? h.block?_self h.newParts] at hl
  rw [h.targets_self, h.ending.mem_targets_iff]
  obtain ⟨p, hp, hlp⟩ := hl
  have hend := h.ending
  generalize e.newMerge? = merge?, e.newBranch = t', e.edges = edges, s'.constants = T,
    s'.ids = ids at hend hp ⊢
  cases hend with
  | fold => cases hp
  | narrow =>
    obtain rfl : (e.selection.merge, none) = p := Option.some.inj hp
    obtain rfl : l = e.selection.merge := by simpa using hlp
    simp

/-- **A step keeps the invariant.** -/
theorem Step.lawful (h : Step s b e s') (hparts : s.function.HasParts)
    (hlaw : Lawful f s.function) : Lawful f s'.function := by
  refine ⟨fun c hc => hlaw.reached c (h.reached_mono hlaw hc), ?_, ?_⟩
  · intro a ha l hl c hc
    by_cases hab : a = b
    · subst hab
      exact .inl (ha.step (Function.mem_resolve.mpr ⟨l, h.declared_self hl, hc⟩))
    · have ha' := h.reached_mono hlaw ha
      have hl' : l ∈ s.function.declared a := by
        rwa [Function.declared, h.block?_of_ne hab] at hl
      rw [h.frame.blockOf?] at hc
      refine (hlaw.declared a ha' l hl' c hc).imp_left (fun hr => ?_)
      -- the declaration mentions the block, so a legal proposal cannot have lost it
      by_contra hlost
      rw [h.reached_iff] at hlost ha
      obtain ⟨i, hi, hphi, hli⟩ :=
        Function.exists_of_mem_declared hparts (Function.ReachedBy.mem_layout h.source ha') hl'
      exact h.legal.unnamed c hr hlost l (h.source.indexed l c hc).2 a ha hab i hi hphi hli
  · intro c hc
    have hcb : c ≠ b := fun he => hc (he ▸ hlaw.reached b h.reached)
    rw [h.targets_of_ne hcb, hlaw.untouched c hc]

/-- **So does a run.** -/
theorem run_lawful {T : ConstantTable} {ids : IdSupply} (hf : f.WellFormed)
    (hdecl : f.DeclaresEnds) (h : run f T ids = .ok s) : Lawful f s.function := by
  refine (run_induct (P := fun s => Lawful f s.function) hf.coherent hf.sound.hasParts h
    (lawful_refl hdecl) ?_).2
  intro done s b e s' hs _ _ hlaw hstep
  exact hstep.lawful (hs.soundBlocks hf.sound).hasParts hlaw

end Folding

/-! ## 2. The whole elimination -/

namespace Function

variable {f' : Function} {w w' : Workspace} {changed : Bool} {folded : Folding}
  {repaired : PhiRepair} {mended : BlockKey → List Instruction}

/-- What a block declares in the end it declared after folding, and it names the same block. -/
theorem Phases.declared (h : Phases f w f' w' folded repaired mended) (hb : f'.Reached b)
    (hl : l ∈ f'.declared b) :
    l ∈ folded.function.declared b ∧
      ∃ c, folded.function.blockOf? l = some c ∧ f'.blockOf? l = some c := by
  have hw := h.wellFormed_folded
  have hw' := h.wellFormed_repaired
  have hb₂ : repaired.function.Reached b := h.remove.reached_iff.mp hb
  have hb₁ : b ∈ folded.function.layout :=
    ReachedBy.mem_layout hw.coherent (h.reached_iff.mp hb)
  obtain ⟨k, hk, -⟩ := hw.coherent.exists_block hb₁
  have hsame : f'.declared b = repaired.function.declared b := by
    rw [Function.declared, h.remove.block?_of_reached hb₂, Function.declared]
  rw [hsame] at hl
  have hl₁ := (h.repair.mem_declared_iff hb₁ hk (hw.sound b hb₁ k hk)).mp hl
  obtain ⟨i, hi, -, hli⟩ := exists_of_mem_declared hw'.sound.hasParts
    (ReachedBy.mem_layout hw'.coherent hb₂) hl
  rw [← remains_of_reached hw'.coherent hb₂] at hi
  obtain ⟨c, hc⟩ : ∃ c, folded.function.blockOf? l = some c := by
    obtain ⟨body, merge?, t, hp, -⟩ := (hw.sound b hb₁ k hk).parts
    obtain ⟨p, hp', hlp⟩ := (declared_of_block? hk hp).mp hl₁
    obtain ⟨j, rfl, hj⟩ := Option.bind_eq_some_iff.mp hp'
    exact Option.isSome_iff_exists.mp ((hw.sound b hb₁ k hk).refs j
      (hp.mem_instructions_iff.mpr (.inr (.inl rfl))) l
      (Instruction.mem_blockRefs.mpr (.inr (.inl ⟨p, hj, hlp⟩))))
  exact ⟨hl₁, c, hc, h.remove.blockOf?_of_mem_uses hw'.unique hi hli
    ((h.repair.frame.blockOf? l).trans hc)⟩

/-- **Declared blocks survive.**  Let every merge block and continue target that a reachable block of
an accepted module declares be reachable itself or lead nowhere.  Then, whatever is folded, narrowed
or left alone by whatever constants, no block becomes reachable, and each label that a reachable
block declares in the end names a block of the layout, which can be reached if it could be before. -/
theorem declared_blocks_survive {m : Module} (hm : m.Coherent) (hcheck : m.check = .ok [])
    (hf : f ∈ m.functionList) (hdecl : f.DeclaresEnds)
    (h : f.eliminateDeadBranches w = .ok (f', w', changed)) :
    (∀ b, f'.Reached b → f.Reached b) ∧
      ∀ b, f'.Reached b → ∀ l ∈ f'.declared b, ∃ c, f'.blockOf? l = some c ∧ c ∈ f'.layout ∧
        (f.Reached c → f'.Reached c) := by
  have hwf := wellFormed_of_accepted ((Module.check_eq_ok_nil_iff hm).mp hcheck) hf
  obtain ⟨folded, repaired, mended, hphases⟩ := eliminateDeadBranches_phases hwf h
  have hlaw := Folding.run_lawful hwf hdecl hphases.run
  refine ⟨fun b hb => hlaw.reached b (hphases.reached_iff.mp hb), fun b hb l hl => ?_⟩
  obtain ⟨hl₁, c, hc, hc'⟩ := hphases.declared hb hl
  refine ⟨c, hc', (hphases.remove.coherent.indexed l c hc').1, fun hfc => ?_⟩
  rw [hphases.reached_iff]
  exact (hlaw.declared b (hphases.reached_iff.mp hb) l hl₁ c hc).resolve_right
    (fun hnot => hnot.1 hfc)

/-- A loop with a selection before it and one in it.  The first can be folded; the second, which goes
on with the loop, keeps the block `%18` that the loop declares.  Block `%17` is declared only. -/
def loopWithBreak : Function := .ofBlocks ⟨1⟩ ⟨2⟩ ⟨3⟩ [
  ⟨⟨10⟩, [.selectionMerge ⟨12⟩, .branchConditional ⟨6⟩ ⟨11⟩ ⟨12⟩]⟩,
  ⟨⟨11⟩, [.branch ⟨12⟩]⟩,
  ⟨⟨12⟩, [.loopMerge ⟨18⟩ ⟨16⟩, .branch ⟨13⟩]⟩,
  ⟨⟨13⟩, [.selectionMerge ⟨18⟩, .branchConditional ⟨5⟩ ⟨15⟩ ⟨14⟩]⟩,
  ⟨⟨14⟩, [.branch ⟨18⟩]⟩,
  ⟨⟨15⟩, [.selectionMerge ⟨17⟩, .branchConditional ⟨7⟩ ⟨16⟩ ⟨16⟩]⟩,
  ⟨⟨16⟩, [.branch ⟨12⟩]⟩,
  ⟨⟨17⟩, [.unreachable]⟩,
  ⟨⟨18⟩, [.ret]⟩]

/-- The module of `loopWithBreak`. -/
def loopModule : Module := .ofFunction 19
  [⟨.typeVoid, none, some ⟨2⟩, []⟩, ⟨.typeFunction, none, some ⟨3⟩, [.ref ⟨2⟩]⟩,
    ⟨.typeBool, none, some ⟨4⟩, []⟩, ⟨.constantTrue, some ⟨4⟩, some ⟨5⟩, []⟩,
    ⟨.constantFalse, some ⟨4⟩, some ⟨6⟩, []⟩, ⟨.undef, some ⟨4⟩, some ⟨7⟩, []⟩] loopWithBreak

theorem declared_blocks_survive_loopWithBreak :
    loopModule.Coherent ∧ loopModule.check = .ok [] ∧ loopWithBreak ∈ loopModule.functionList ∧
      loopWithBreak.DeclaresEnds ∧
      ∃ f' w', loopWithBreak.eliminateDeadBranches (.ofModule loopModule) = .ok (f', w', true) ∧
        f'.layout = [⟨0⟩, ⟨2⟩, ⟨3⟩, ⟨5⟩, ⟨6⟩, ⟨7⟩, ⟨8⟩] ∧
        (∀ b, f'.Reached b → loopWithBreak.Reached b) ∧
          ∀ b, f'.Reached b → ∀ l ∈ f'.declared b, ∃ c, f'.blockOf? l = some c ∧ c ∈ f'.layout ∧
            (loopWithBreak.Reached c → f'.Reached c) := by
  have hm : loopModule.Coherent := by decide
  have hcheck : loopModule.check = .ok [] := by cbv
  have hmem : loopWithBreak ∈ loopModule.functionList := List.mem_singleton.mpr rfl
  have hdecl : loopWithBreak.DeclaresEnds :=
    (declaresEnds_iff (hm _ hmem)).mp (by cbv)
  have hrun : (loopWithBreak.eliminateDeadBranches (.ofModule loopModule)).toOption.map
      (fun r => (r.1.layout, r.2.2)) =
        some ([⟨0⟩, ⟨2⟩, ⟨3⟩, ⟨5⟩, ⟨6⟩, ⟨7⟩, ⟨8⟩], true) := by cbv
  refine ⟨hm, hcheck, hmem, hdecl, ?_⟩
  cases h : loopWithBreak.eliminateDeadBranches (.ofModule loopModule) with
  | error e =>
    rw [h] at hrun
    cases hrun
  | ok r =>
    obtain ⟨f', w', changed⟩ := r
    rw [h] at hrun
    obtain ⟨hlayout, rfl⟩ : f'.layout = [⟨0⟩, ⟨2⟩, ⟨3⟩, ⟨5⟩, ⟨6⟩, ⟨7⟩, ⟨8⟩] ∧ changed = true :=
      Prod.mk.inj (Option.some.inj hrun)
    exact ⟨f', w', rfl, hlayout, declared_blocks_survive hm hcheck hmem hdecl h⟩

end Function
end ShaderIR
