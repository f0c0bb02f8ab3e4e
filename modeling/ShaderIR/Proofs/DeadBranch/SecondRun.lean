import ShaderIR.Proofs.DeadBranch.Acceptance
import ShaderIR.Proofs.DeadBranch.Status

/-!
# A second run

After a run the phis agree with the predecessors, and what is left of the unreachable blocks is
needed.  So a second run has nothing to repair and nothing to remove, if it finds nothing to fold.

It may find something.  A header is decided once, when it is visited, and by the function as it is
then.  A phi that gives way later may turn its condition into a constant, and a later fold may make
legal what was not.  Such a header is still open.

A second run may also come to a function that the first one has not seen: a call of a phi that gives
way becomes a call of the function that is its value.

* `Function.Tidy`: what every function has after a run, whether it was processed or not;
* `Function.Tidy.eliminateDeadBranches_eq_iff`: when there is nothing to do in a function;
* `Module.second_run_changes_nothing_iff`: when a second run changes nothing.
-/

namespace ShaderIR

namespace Function

variable {f f' : Function} {w w' : Workspace} {folded : Folding} {repaired : PhiRepair}
  {mended : BlockKey → List Instruction}

/-! ## 1. Functions without anything to repair -/

/-- A function in which no phi has to be repaired. -/
structure Tidy (f : Function) : Prop where
  coherent : f.Coherent
  readable : f.Readable
  parts : f.HasParts
  even : f.EvenPhis
  agree : f.PhisAgree

/-- A sound function is tidy, if its phis are regular. -/
theorem Sound.tidy (hf : f.Coherent) (hs : f.Sound) (hread : f.Readable) (hphis : f.RegularPhis) :
    f.Tidy := by
  have hregular : ∀ b, f.Reached b → ∀ k, f.block? b = some k → ∀ phi ∈ k.phis,
      phi.RegularPhi := fun b hb k hk phi hphi =>
    hphis b (hb.mem_layout hf) phi (mem_instructions_of_phis hk hphi) (Block.mem_of_mem_phis hphi).2
  refine ⟨hf, hread, hs.block.hasParts, fun b hb i hi hphi => (hphis b hb i hi hphi).even, ?_, ?_⟩
  · intro b hb k hk phi hphi p hp
    obtain ⟨a, ha, hlabel, hedge⟩ :=
      hs.exists_parent hf hb hk hphi (hregular b hb k hk phi hphi).result hp
    exact ⟨a, ha, (hf.indexed p.2 a hlabel).2, hedge⟩
  · intro b hb k hk phi hphi _ a ha hedge
    obtain ⟨l, hl, -⟩ := hf.named a (ha.mem_layout hf)
    obtain ⟨p, hp, rfl⟩ := (hs.phi b hb k hk phi hphi (hregular b hb k hk phi hphi).result).2 a
      (ha.mem_layout hf) hedge l hl
    exact ⟨p, hp, hl⟩

namespace Phases

/-- Phis keep an even number of operands. -/
theorem evenPhis (heven : f.EvenPhis) (h : Phases f w f' w' folded repaired mended) :
    f'.EvenPhis := by
  intro b hb i' hi' hphi
  obtain ⟨i, rfl, hi⟩ := h.origin hb hi'
  have hlength : (i.mapRefs (PhiRepair.rename repaired.replacements)).operands.length =
      i.operands.length := List.length_map _
  rw [hlength]
  have hlayout := h.mem_layout hb
  obtain ⟨k, hk, -⟩ := h.wellFormed.coherent.exists_block hlayout
  obtain ⟨k₁, hk₁, -, body, merge?, t, merge?', t', hp, hp₁, -⟩ := h.fold.block b hlayout k hk
  rcases hi with hi | ⟨hlive, hi⟩
  · rw [instructions_of_block? hk₁, hp₁.eq, List.append_assoc] at hi
    rcases List.mem_append.mp hi with hi | hi
    · refine heven b hlayout i ?_ hphi
      rw [instructions_of_block? hk, hp.eq]
      simp [hi]
    · exact absurd hphi (by simp [hp₁.end_not_phi i hi])
  · obtain ⟨phi, -, supplied, rfl, -⟩ := exists_of_mem_right (h.repair.mends b hlive k₁ hk₁) hi
    simp [PhiRepair.mended, length_unpair]

/-- **A processed function is tidy.** -/
theorem tidy (hread : f.Readable) (heven : f.EvenPhis)
    (h : Phases f w f' w' folded repaired mended) : f'.Tidy :=
  ⟨h.remove.coherent, h.readable hread, h.wellFormed_result.sound.hasParts,
    h.evenPhis heven, h.phisAgree⟩

/-- **Everything in the unreachable blocks of a processed function is needed.** -/
theorem needsAll (h : Phases f w f' w' folded repaired mended) : f'.NeedsAll :=
  have hw := h.wellFormed_repaired
  h.remove.needsAll hw.nodup

end Phases

/-! ## 2. Functions without anything to do -/

/-- No reachable header is open, and everything in the unreachable blocks is needed. -/
structure Settled (f : Function) (T : ConstantTable) : Prop where
  closed : ∀ b, f.Reached b → f.isOpen T b = false
  needed : f.NeedsAll

/-- A function is left alone if it is settled and its phis are. -/
theorem Settled.eliminateDeadBranches_eq (hf : f.Coherent) (hread : f.Readable)
    (hparts : f.HasParts) (hagree : f.PhisAgree)
    (heven : ∀ b, f.Reached b → ∀ k, f.block? b = some k → ∀ phi ∈ k.phis,
      phi.operands.length % 2 = 0)
    (h : f.Settled w.constants) : f.eliminateDeadBranches w = .ok (f, w, false) := by
  have hkeys := hread.requireReadable_reachable hf
  exact bind_eq_ok.mpr ⟨_, (Folding.run_eq_iff hf hread).mpr h.closed,
    bind_eq_ok.mpr ⟨_, hagree.run_eq hf heven, bind_eq_ok.mpr ⟨_,
      (removeUnreachable_eq_iff hf hparts hkeys).mpr h.needed, rfl⟩⟩⟩

/-- **When there is nothing to do in a tidy function.** -/
theorem Tidy.eliminateDeadBranches_eq_iff (hf : f.Tidy) :
    f.eliminateDeadBranches w = .ok (f, w, false) ↔ f.Settled w.constants := by
  have heven : ∀ b, f.Reached b → ∀ k, f.block? b = some k → ∀ phi ∈ k.phis,
      phi.operands.length % 2 = 0 := fun b hb k hk phi hphi =>
    hf.even.leading (hb.mem_layout hf.coherent) hk hphi
  have hkeys := hf.readable.requireReadable_reachable hf.coherent
  refine ⟨fun h => ?_, fun h =>
    h.eliminateDeadBranches_eq hf.coherent hf.readable hf.parts hf.agree heven⟩
  obtain ⟨folded, hfold, h⟩ := bind_eq_ok.mp h
  obtain ⟨repaired, hrep, h⟩ := bind_eq_ok.mp h
  obtain ⟨⟨g, killed, removed⟩, hrem, h⟩ := bind_eq_ok.mp h
  simp only [Except.ok.injEq, Prod.mk.injEq, Bool.or_eq_false_iff] at h
  obtain ⟨rfl, -, ⟨hfolded, -⟩, rfl⟩ := h
  obtain rfl := Folding.run_quiet hfold hfolded
  obtain rfl := Except.ok.inj ((hf.agree.run_eq hf.coherent heven).symm.trans hrep)
  obtain ⟨-, rfl⟩ := removeUnreachable_quiet hrem
  exact ⟨(Folding.run_eq_iff hf.coherent hf.readable).mp hfold,
    (removeUnreachable_eq_iff hf.coherent hf.parts hkeys).mp hrem⟩

end Function

/-! ## 3. Modules -/

namespace Module

variable {m m' m₁ : Module} {w w₁ : Workspace} {k : FunctionKey} {f : Function}
  {done : List FunctionKey}

/-- Whatever is called is there. -/
theorem function_of_mem_callOrder (hk : k ∈ m.callOrder) :
    ∃ f, m.function k = .ok f ∧ m.function? k = some f :=
  function_of_mem_functionKeys (mem_functionKeys_of_callOrder hk)

theorem processFunction_of_fixed (hf : m.function k = .ok f)
    (h : f.eliminateDeadBranches w = .ok (f, w, false)) :
    processFunction (m, w, false) k = .ok (m, w, false) := by
  have hset : m.setFunction k f = m := by
    rw [setFunction, Arena.set_eq_self (function_eq_ok hf)]
  refine bind_eq_ok.mpr ⟨f, hf, bind_eq_ok.mpr ⟨_, h, ?_⟩⟩
  simp only [hset, Bool.or_self]

theorem processFunction_eq_iff (htidy : f.Tidy) (hf : m.function k = .ok f) :
    processFunction (m, w, false) k = .ok (m, w, false) ↔ f.Settled w.constants := by
  rw [← htidy.eliminateDeadBranches_eq_iff]
  refine ⟨fun h => ?_, processFunction_of_fixed hf⟩
  obtain ⟨g, hg, h⟩ := bind_eq_ok.mp h
  obtain rfl := Except.ok.inj (hf.symm.trans hg)
  obtain ⟨⟨f', w', changed⟩, hrun, h⟩ := bind_eq_ok.mp h
  simp only [Except.ok.injEq, Prod.mk.injEq, Bool.false_or] at h
  obtain ⟨-, rfl, rfl⟩ := h
  obtain ⟨rfl, -⟩ := Function.eliminateDeadBranches_quiet htidy.even hrun
  exact hrun

/-- A module is left alone if its functions are. -/
theorem processFunctions_of_fixed (hbound : 1 ≤ m.bound)
    (h : ∀ k ∈ m.callOrder, ∀ f, m.function? k = some f →
      f.eliminateDeadBranches (.ofModule m) = .ok (f, .ofModule m, false)) :
    m.processFunctions = .ok (m, false) := by
  have hrun : m.callOrder.foldlM processFunction (m, .ofModule m, false) =
      .ok (m, .ofModule m, false) := by
    refine foldlM_fixed (fun k hk => ?_)
    obtain ⟨f, hf, hfk⟩ := function_of_mem_callOrder hk
    exact processFunction_of_fixed hf (h k hk f hfk)
  refine bind_eq_ok.mpr ⟨_, hrun, bind_eq_ok.mpr ⟨m, adopt_ofModule hbound, ?_⟩⟩
  exact congrArg (fun m => Except.ok (m, false)) m.removeDebugInfo_empty

/-- **When there is nothing to do in a module of tidy functions.** -/
theorem processFunctions_eq_iff (hbound : 1 ≤ m.bound) (htidy : ∀ f ∈ m.functionList, f.Tidy) :
    m.processFunctions = .ok (m, false) ↔
      ∀ k ∈ m.callOrder, ∀ f, m.function? k = some f → f.Settled (.ofModule m) := by
  constructor
  · intro h k hk f hf
    obtain ⟨⟨m₁, w₁, changed⟩, hrun, h⟩ := bind_eq_ok.mp h
    obtain ⟨m₂, -, h⟩ := bind_eq_ok.mp h
    simp only [Except.ok.injEq, Prod.mk.injEq] at h
    obtain ⟨-, rfl⟩ := h
    have heven : m.EvenPhis := fun f hf => (htidy f hf).even
    have hstep := (foldlM_quiet (Q := fun s => s.2.2 = false) hrun rfl
      (fun _ _ _ hstep => processFunction_mono hstep)
      (fun _ _ _ hstep => processFunction_quiet heven hstep)).2 k hk
    obtain ⟨g, hg, hgk⟩ := function_of_mem_callOrder hk
    obtain rfl := Option.some.inj (hgk.symm.trans hf)
    exact (processFunction_eq_iff (htidy g (mem_functionList hf)) hg).mp hstep
  · intro h
    exact processFunctions_of_fixed hbound (fun k hk f hf =>
      (htidy f (mem_functionList hf)).eliminateDeadBranches_eq_iff.mpr (h k hk f hf))

/-! ## 4. After a run -/

/-- A module that was not refused is not refused the second time. -/
theorem Processed.refusal?_finished {wl : Whitelist} (hs : Processed m done m₁ w₁)
    (h : m.refusal? wl = none) : (m₁.finished w₁).refusal? wl = none := by
  have hextensions : (m₁.finished w₁).extensionNames = m.extensionNames := by
    rw [hs.sections]
    rfl
  have hcapability : (m₁.finished w₁).hasCapability .shader = m.hasCapability .shader := by
    rw [hs.sections]
    rfl
  have hgrouped : Module.hasAnnotation (m₁.finished w₁) .groupDecorate = true →
      m.hasAnnotation .groupDecorate = true := by
    intro hany
    obtain ⟨i, hi, ho⟩ := List.any_eq_true.mp hany
    have hmem : i ∈ (m₁.finished w₁).inSection .annotations := hi
    rw [hs.inSection_finished (by decide)] at hmem
    exact List.any_eq_true.mpr ⟨i, (List.mem_filter.mp hmem).1, ho⟩
  unfold refusal? Whitelist.firstUnsupported? at h ⊢
  rw [hextensions, hcapability]
  split at h
  · cases h
  · split at h
    · cases h
    · rename_i hshader
      rw [if_neg hshader]
      split at h
      · cases h
      · rename_i hgroups
        rw [if_neg (fun hany => hgroups (hgrouped hany))]

/-- **Every function is tidy after a run**, whether it was processed or not. -/
theorem Processed.tidy (ha : m.Accepted) (hr : m.Regular) (hs : Processed m done m₁ w₁) :
    ∀ f ∈ (m₁.finished w₁).functionList, f.Tidy := by
  intro f' hf'
  obtain ⟨f, hf, hcase⟩ := exists_of_mem_right hs.forall₂ hf'
  have htidy := (ha.sound f hf).tidy (ha.coherent f hf) (isReadable_iff.mp ha.readable f hf)
    (hr.function f hf).phi
  rcases hcase with rfl | ⟨w, w', hrun⟩
  · exact htidy
  · have hwf := Function.wellFormed_of_accepted ha hf
    obtain ⟨changed, hrun⟩ := hrun.run
    obtain ⟨folded, repaired, mended, hphases⟩ := Function.eliminateDeadBranches_phases hwf hrun
    exact hphases.tidy htidy.readable htidy.even

/-- In a function that was processed there is nothing left to remove. -/
theorem Processed.needsAll (ha : m.Accepted) (hs : Processed m m.callOrder m₁ w₁)
    (hk : k ∈ m.callOrder) (hf : (m₁.finished w₁).function? k = some f) : f.NeedsAll := by
  obtain ⟨g, -, hg⟩ := function_of_mem_callOrder hk
  obtain ⟨w, f', w', hf', hprocessed⟩ := hs.done k hk g hg
  obtain rfl := Option.some.inj (hf'.symm.trans hf)
  obtain ⟨changed, hrun⟩ := hprocessed.run
  have hwf := Function.wellFormed_of_accepted ha (mem_functionList hg)
  obtain ⟨folded, repaired, mended, hphases⟩ := Function.eliminateDeadBranches_phases hwf hrun
  exact hphases.needsAll

/-- **When a second run changes nothing.**  A module that is refused is left alone both times.
Otherwise the headers decide: none that can be reached may be open.  In a function that the first run
has not seen, everything in the unreachable blocks has to be needed as well. -/
theorem second_run_changes_nothing_iff {wl : Whitelist} {status : Status} (hm : m.Coherent)
    (hcheck : m.check = .ok []) (hr : m.Regular)
    (h : m.eliminateDeadBranches wl = .ok (m', status)) (hstatus : status ≠ .failure) :
    m'.eliminateDeadBranches wl = .ok (m', .unchanged) ↔
      m.refusal? wl ≠ none ∨ ∀ k ∈ m'.callOrder, ∀ f, m'.function? k = some f →
        (∀ b, f.Reached b → f.isOpen (.ofModule m') b = false) ∧
          (k ∉ m.callOrder → f.NeedsAll) := by
  have ha := (check_eq_ok_nil_iff hm).mp hcheck
  rcases eliminateDeadBranches_cases h with ⟨r, hrefused, rfl, rfl⟩ | ⟨hnone, changed, hrun, -⟩
  · have hunchanged : r.status = .unchanged := by
      cases r with
      | unsupportedExtension => exact absurd rfl hstatus
      | missingShaderCapability => rfl
      | groupDecorations => rfl
      | unknownPass => exact absurd rfl hstatus
    exact iff_of_true (hunchanged ▸ h) (.inl (by simp [hrefused]))
  · obtain ⟨m₁, w₁, hs, rfl⟩ := processFunctions_spec ha hrun
    have hbound : 1 ≤ (m₁.finished w₁).bound := by
      have htracks := hs.grows.tracks (ConstantTable.tracks_snapshot m.globals m.bound)
      have hne : w₁.ids.bound.toNat ≠ 0 := fun h0 => htracks.positive (UInt32.toNat_inj.mp h0)
      exact UInt32.le_iff_toNat_le.mpr (Nat.one_le_iff_ne_zero.mpr hne)
    rw [eliminateDeadBranches_unchanged_iff (hs.refusal?_finished hnone),
      processFunctions_eq_iff hbound (hs.tidy ha hr)]
    constructor
    · refine fun hsettled => .inr (fun k hk f hf => ?_)
      exact ⟨(hsettled k hk f hf).closed, fun _ => (hsettled k hk f hf).needed⟩
    · rintro (hrefused | hsettled) k hk f hf
      · exact absurd hnone hrefused
      · obtain ⟨hclosed, hneeded⟩ := hsettled k hk f hf
        refine ⟨hclosed, ?_⟩
        -- what a run leaves of a function is needed, but it has left the others as they were
        by_cases hold : k ∈ m.callOrder
        · exact hs.needsAll ha hold hf
        · exact hneeded hold

/-- What a run leaves of `lateEdge`: the headers `%12` and `%13` are on a constant, and have to keep
their merge block. -/
def lateEdgeDone : Module :=
  .ofFunction 19 (boolGlobals ++ [⟨.undef, some ⟨4⟩, some ⟨18⟩, []⟩]) (.ofBlocks ⟨1⟩ ⟨2⟩ ⟨3⟩ [
    ⟨⟨10⟩, [.loopMerge ⟨15⟩ ⟨11⟩, .branch ⟨13⟩]⟩,
    ⟨⟨11⟩, [.branch ⟨12⟩]⟩,
    ⟨⟨12⟩, [.selectionMerge ⟨15⟩, .branchConditional ⟨5⟩ ⟨13⟩ ⟨15⟩]⟩,
    ⟨⟨13⟩, [.selectionMerge ⟨15⟩, .branchConditional ⟨5⟩ ⟨16⟩ ⟨15⟩]⟩,
    ⟨⟨14⟩, [.branch ⟨15⟩]⟩,
    ⟨⟨15⟩, [.phi ⟨4⟩ ⟨17⟩ [(⟨5⟩, ⟨14⟩), (⟨18⟩, ⟨13⟩)], .ret]⟩,
    ⟨⟨16⟩, [.ret]⟩])

theorem second_run_changes_nothing_iff_lateEdge :
    lateEdge.Coherent ∧ lateEdge.check = .ok [] ∧ lateEdge.Regular ∧
      lateEdge.eliminateDeadBranches .default = .ok (lateEdgeDone, .changed) ∧
      (∀ f ∈ lateEdgeDone.functionList, ∀ b ∈ f.reachable.keys,
        f.isOpen (.ofModule lateEdgeDone) b = false) ∧
      lateEdgeDone.eliminateDeadBranches .default = .ok (lateEdgeDone, .unchanged) := by
  have hm : lateEdge.Coherent := by decide
  have hcheck : lateEdge.check = .ok [] := by cbv
  have hr : lateEdge.Regular := by decide
  have hrun : lateEdge.eliminateDeadBranches .default = .ok (lateEdgeDone, .changed) := by
    rw [eliminateDeadBranches_of_no_extensions rfl .default (.ofNames [])]
    cbv
  have hm₁ : lateEdgeDone.Coherent := by decide
  have horder : lateEdge.callOrder = lateEdgeDone.callOrder := by cbv
  have hopen : ∀ f ∈ lateEdgeDone.functionList, ∀ b ∈ f.reachable.keys,
      f.isOpen (.ofModule lateEdgeDone) b = false := by
    have hall : lateEdgeDone.functionList.all (fun f => f.reachable.keys.all
        (fun b => !f.isOpen (.ofModule lateEdgeDone) b)) = true := by cbv
    simpa using hall
  refine ⟨hm, hcheck, hr, hrun, hopen,
    (second_run_changes_nothing_iff hm hcheck hr hrun (by decide)).mpr (.inr ?_)⟩
  intro k hk f hf
  have hmem := mem_functionList hf
  exact ⟨fun b hb => hopen f hmem b ((Function.mem_keys_reachableBy_iff (hm₁ f hmem)).mpr hb),
    fun hnew => absurd (horder ▸ hk) hnew⟩

/-- Block `%12` branches on the phi `%15`, so it is left as it is.  But `%10` has lost its edge to it;
the phi gives way to `%5`, and `%12` branches on a constant. -/
def lateConstant : Module := .ofFunction 16 boolGlobals (.ofBlocks ⟨1⟩ ⟨2⟩ ⟨3⟩ [
  ⟨⟨10⟩, [.selectionMerge ⟨12⟩, .branchConditional ⟨5⟩ ⟨11⟩ ⟨12⟩]⟩,
  ⟨⟨11⟩, [.branch ⟨12⟩]⟩,
  ⟨⟨12⟩, [.phi ⟨4⟩ ⟨15⟩ [(⟨5⟩, ⟨11⟩), (⟨6⟩, ⟨10⟩)], .selectionMerge ⟨14⟩,
    .branchConditional ⟨15⟩ ⟨14⟩ ⟨13⟩]⟩,
  ⟨⟨13⟩, [.branch ⟨14⟩]⟩,
  ⟨⟨14⟩, [.ret]⟩])

/-- What a run leaves of `lateConstant`. -/
def lateConstantDone : Module := .ofFunction 16 boolGlobals (.ofBlocks ⟨1⟩ ⟨2⟩ ⟨3⟩ [
  ⟨⟨10⟩, [.branch ⟨11⟩]⟩,
  ⟨⟨11⟩, [.branch ⟨12⟩]⟩,
  ⟨⟨12⟩, [.selectionMerge ⟨14⟩, .branchConditional ⟨5⟩ ⟨14⟩ ⟨13⟩]⟩,
  ⟨⟨13⟩, [.branch ⟨14⟩]⟩,
  ⟨⟨14⟩, [.ret]⟩])

/-- **A second run that folds more.** -/
theorem second_run_folds_more :
    lateConstant.Coherent ∧ lateConstant.check = .ok [] ∧ lateConstant.Regular ∧
      ∃ m₁ m₂, lateConstant.eliminateDeadBranches .default = .ok (m₁, .changed) ∧
        m₁.eliminateDeadBranches .default = .ok (m₂, .changed) := by
  have hfirst : lateConstant.eliminateDeadBranches .default = .ok (lateConstantDone, .changed) := by
    rw [eliminateDeadBranches_of_no_extensions rfl .default (.ofNames [])]
    cbv
  have hsecond : (lateConstantDone.eliminateDeadBranches .default).toOption.map Prod.snd =
      some .changed := by
    rw [eliminateDeadBranches_of_no_extensions rfl .default (.ofNames [])]
    cbv
  obtain ⟨⟨m₂, status⟩, h, rfl⟩ := toOption_map_eq_some.mp hsecond
  exact ⟨by decide, by cbv, by decide, _, m₂, hfirst, h⟩

end Module
end ShaderIR
