import ShaderIR.Proofs.DeadBranch.ModuleRun
import ShaderIR.Proofs.DeadBranch.Outcome

/-!
# The reported status

A pass reports whether it has changed the module.  The mark of a change is put together from the
three phases of every function, while globals, id bound and names are written outside of them.

*Without the mark nothing has happened.*  This holds of any module in which phis have an even number
of operands: repair would cut off an odd last operand without a word.  Every phase is a run of steps,
and a step that sets no mark leaves the state as it is.  In particular no constant is made for a
header that is then left alone.

*With the mark something has happened*, if the module was accepted.  Suppose a function comes out as
it went in.  Then no header has got a new ending, because the ending would still be there.  So the
phis have been repaired in the function as it was; but the phis that come out agree with the
predecessors, hence they did so before, and there was nothing to repair.  And what comes out of a
removal has nothing left to remove.

* `Function.eliminateDeadBranches_quiet`, `Function.eliminateDeadBranches_changed`: one function;
* `Module.status_tells_truth`: a module.
-/

namespace ShaderIR

/-! ## 1. One function -/

namespace Function

open PhiRepair (rename)

variable {f f' : Function} {w w' : Workspace} {folded : Folding} {repaired : PhiRepair}
  {mended : BlockKey → List Instruction} {b : BlockKey}

/-- Every phi of the body has an even number of operands. -/
def EvenPhis (f : Function) : Prop :=
  ∀ b ∈ f.layout, ∀ i ∈ f.instructions b, i.opcode.isPhi = true → i.operands.length % 2 = 0

instance (f : Function) : Decidable f.EvenPhis :=
  inferInstanceAs (Decidable (∀ b ∈ f.layout, ∀ i ∈ f.instructions b,
    i.opcode.isPhi = true → i.operands.length % 2 = 0))

theorem EvenPhis.leading (h : f.EvenPhis) {k : Block} (hb : b ∈ f.layout)
    (hk : f.block? b = some k) {phi : Instruction} (hphi : phi ∈ k.phis) :
    phi.operands.length % 2 = 0 :=
  h b hb phi (mem_instructions_of_phis hk hphi) (Block.mem_of_mem_phis hphi).2

/-- **A run on a function that is not marked as a change is none.** -/
theorem eliminateDeadBranches_quiet (heven : f.EvenPhis)
    (h : f.eliminateDeadBranches w = .ok (f', w', false)) : f' = f ∧ w' = w := by
  obtain ⟨folded, hfold, h⟩ := bind_eq_ok.mp h
  obtain ⟨repaired, hrepair, h⟩ := bind_eq_ok.mp h
  obtain ⟨⟨g, killed, removed⟩, hremove, h⟩ := bind_eq_ok.mp h
  simp only [Except.ok.injEq, Prod.mk.injEq, Bool.or_eq_false_iff] at h
  obtain ⟨rfl, rfl, ⟨hfolded, hrepaired⟩, rfl⟩ := h
  obtain rfl := Folding.run_quiet hfold hfolded
  obtain rfl := PhiRepair.run_quiet (fun b hb k hk phi hphi => heven.leading hb hk hphi) hrepair
    hrepaired
  obtain ⟨rfl, rfl⟩ := removeUnreachable_quiet hremove
  exact ⟨rfl, rfl⟩

namespace Phases

variable {k : Block} {body : List Instruction} {merge? merge?' : Option Instruction}
  {t t' : Instruction}

/-- Repair does not rename a new terminator: it goes to labels, and its condition is a constant. -/
theorem mapRefs_newBranch (hapart : ∀ P T ids, w.constants.Grows P w.ids T ids → T.Apart f)
    (h : Phases f w f' w' folded repaired mended) (hb : b ∈ f.layout)
    (hk : folded.function.block? b = some k) (hp : k.Parts body merge?' t')
    (hend : Folding.EndsAs w.constants w.ids folded.constants merge? t merge?' t') (hne : t' ≠ t) :
    t'.mapRefs (rename repaired.replacements) = t' := by
  have htarget : ∀ l ∈ t'.branchTargets, rename repaired.replacements l = l := by
    intro l hl
    refine h.rename_target b (h.fold.frame.layout ▸ hb) l ?_
    rwa [targets_of_block? hk, hp.targets_eq]
  have hfix : ∀ x ∈ t'.operands.filterMap Operand.id?, rename repaired.replacements x = x := by
    cases hend with
    | same => exact absurd rfl hne
    | @fold T₁ ids₁ live merge grows taken declares =>
      intro x hx
      obtain rfl : x = live := by simpa [Instruction.branch] using hx
      exact htarget x (by simp [Instruction.branchTargets, Instruction.branch,
        Instruction.idOperand?])
    | @narrow T₁ ids₁ live merge cond value grows taken declares condition =>
      intro x hx
      have hx : x = cond ∨ x ∈ (Instruction.branchConditional cond
          (if value then live else merge) (if value then merge else live)).branchTargets := by
        simpa [Instruction.branchConditional, Instruction.branchTargets] using hx
      rcases hx with rfl | hx
      · refine h.rename_of_not_mem_bodyIds ?_
        rcases condition with ⟨-, hvalue⟩ | ⟨-, htrue⟩
        · exact (hapart _ T₁ ids₁ grows).bool x value hvalue
        · have hapart' := hapart _ _ _ h.fold.grows
          exact hapart'.bool x true (hapart'.isTrue x htrue)
      · exact htarget x hx
  rw [Instruction.mapRefs_congr hfix, Instruction.mapRefs_id]

/-- **A new ending stays to the end.** -/
theorem ne_of_folded (hapart : ∀ P T ids, w.constants.Grows P w.ids T ids → T.Apart f)
    (h : Phases f w f' w' folded repaired mended) (hchanged : folded.changed = true) : f' ≠ f := by
  obtain ⟨b, hb, hne⟩ :=
    Folding.run_changed h.wellFormed.coherent h.wellFormed.sound.hasParts h.run hchanged
  obtain ⟨k, hk, -⟩ := h.wellFormed.coherent.exists_block hb
  obtain ⟨k₁, hk₁, -, body, merge?, t, merge?', t', hp, hp₁, hend⟩ := h.fold.block b hb k hk
  have hne' : t' ≠ t := by
    rw [hk, hk₁, Option.bind_some, Option.bind_some, hp.terminator?_eq, hp₁.terminator?_eq] at hne
    exact fun hsame => hne (congrArg some hsame)
  intro hsame
  have hb₁ : b ∈ folded.function.layout := h.fold.frame.layout ▸ hb
  obtain ⟨k₂, hk₂, -, hp₂⟩ := h.repair.parts hb₁ hk₁ hp₁
  obtain ⟨body', -, hk₃, hp₃⟩ := h.remove.parts (hsame ▸ hb) hk₂ hp₂
  rw [hsame, hk] at hk₃
  obtain ⟨-, -, hlast⟩ := (Option.some.inj hk₃ ▸ hp).unique hp₃
  rw [h.mapRefs_newBranch hapart hb hk₁ hp₁ hend hne'] at hlast
  exact hne' hlast

end Phases

/-- **A run on a function that is marked as a change is one.** -/
theorem eliminateDeadBranches_changed (hf : f.WellFormed) (heven : f.EvenPhis)
    (hapart : ∀ P T ids, w.constants.Grows P w.ids T ids → T.Apart f)
    (h : f.eliminateDeadBranches w = .ok (f', w', true)) : f' ≠ f := by
  obtain ⟨folded, hfold, h⟩ := bind_eq_ok.mp h
  obtain ⟨repaired, hrepair, h⟩ := bind_eq_ok.mp h
  obtain ⟨⟨g, killed, removed⟩, hremove, h⟩ := bind_eq_ok.mp h
  simp only [Except.ok.injEq, Prod.mk.injEq] at h
  obtain ⟨rfl, -, hmark⟩ := h
  obtain ⟨mended, hphases⟩ := phases_of_runs hf hfold hrepair hremove
  rintro rfl
  have hfolded : folded.changed = false := by
    by_contra hchanged
    exact hphases.ne_of_folded hapart (by simpa using hchanged) rfl
  obtain rfl := Folding.run_quiet hfold hfolded
  -- the phis that come out are those that went in
  have hsame : PhiRepair.run g w.constants w.ids = .ok ⟨g, w.constants, w.ids, [], [], false⟩ :=
    hphases.phisAgree.run_eq hf.coherent
      (fun b hb k hk phi hphi => heven.leading (hb.mem_layout hf.coherent) hk hphi)
  obtain rfl := Except.ok.inj (hsame.symm.trans hrepair)
  obtain ⟨live, hlive, -⟩ := bind_eq_ok.mp hremove
  obtain ⟨u, hread, -⟩ := bind_eq_ok.mp hlive
  rw [(removeUnreachable_eq_iff hf.coherent hf.sound.hasParts hread).mpr
    (hphases.remove.needsAll hf.nodup)] at hremove
  cases hremove
  cases hmark

end Function

/-! ## 2. A module -/

namespace Module

variable {m m' : Module} {w w' : Workspace} {k : FunctionKey} {changed : Bool}

/-- Every phi of the module has an even number of operands. -/
def EvenPhis (m : Module) : Prop := ∀ f ∈ m.functionList, f.EvenPhis

instance (m : Module) : Decidable m.EvenPhis :=
  inferInstanceAs (Decidable (∀ f ∈ m.functionList, f.EvenPhis))

/-- No mark of a change is taken back. -/
theorem processFunction_mono {s s' : Module × Workspace × Bool}
    (h : processFunction s k = .ok s') (hquiet : s'.2.2 = false) : s.2.2 = false := by
  obtain ⟨_, _, _, _, -, -, rfl⟩ := processFunction_cases h
  exact (Bool.or_eq_false_iff.mp hquiet).1

theorem processFunction_quiet (heven : m.EvenPhis) {s' : Module × Workspace × Bool}
    (h : processFunction (m, w, false) k = .ok s') (hquiet : s'.2.2 = false) :
    s' = (m, w, false) := by
  obtain ⟨f, f', w', marked, hk, hrun, rfl⟩ := processFunction_cases h
  obtain rfl : marked = false := hquiet
  obtain ⟨rfl, rfl⟩ := Function.eliminateDeadBranches_quiet (heven f (mem_functionList hk)) hrun
  have hset : m.setFunction k f' = m := by
    rw [setFunction, Arena.set_eq_self hk]
  rw [hset]
  rfl

theorem removeDebugInfo_empty (m : Module) : m.removeDebugInfo SortedMap.empty = m := by
  have hnone : ∀ i, targetsOneOf SortedMap.empty i = false := by
    intro i
    simp [targetsOneOf, SortedMap.contains_eq_isSome]
  simp [removeDebugInfo, hnone]

/-- A workspace that nothing has been taken from adds nothing to its module. -/
theorem adopt_ofModule (hbound : 1 ≤ m.bound) :
    { m with globals := m.globals ++ (Workspace.ofModule m).constants.newGlobals }.adopt
      (Workspace.ofModule m).ids = .ok m := by
  have hne : m.bound ≠ 0 := by
    rintro h0
    rw [h0] at hbound
    exact absurd hbound (by decide)
  simp [adopt, Workspace.ofModule, ConstantTable.ofModule_eq_snapshot, supply, IdSupply.startingAt,
    hne]

/-- **A run on a module that is not marked as a change is none.** -/
theorem processFunctions_quiet (hbound : 1 ≤ m.bound) (heven : m.EvenPhis)
    (h : m.processFunctions = .ok (m', false)) : m' = m := by
  obtain ⟨⟨m₁, w₁, changed₁⟩, hrun, h⟩ := bind_eq_ok.mp h
  obtain ⟨m₂, hadopt, h⟩ := bind_eq_ok.mp h
  cases h
  have hsame : (m₁, w₁, false) = (m, .ofModule m, false) :=
    (foldlM_quiet (Q := fun s => s.2.2 = false) hrun rfl
      (fun _ _ _ hstep => processFunction_mono hstep)
      (fun _ _ _ hstep => processFunction_quiet heven hstep)).1
  simp only [Prod.mk.injEq, and_true] at hsame
  obtain ⟨rfl, rfl⟩ := hsame
  obtain rfl := Except.ok.inj ((adopt_ofModule hbound).symm.trans hadopt)
  exact m₁.removeDebugInfo_empty

/-- One function after the other: once one has come out different, it stays so. -/
theorem Processed.differs_step (ha : m.Accepted) (heven : m.EvenPhis) {done : List FunctionKey}
    {s s' : Module × Workspace × Bool} (hs : Processed m done s.1 s.2.1) (hk : k ∉ done)
    (hold : s.2.2 = true → ∃ k ∈ done, s.1.function? k ≠ m.function? k)
    (h : processFunction s k = .ok s') (hmark : s'.2.2 = true) :
    ∃ k' ∈ done ++ [k], s'.1.function? k' ≠ m.function? k' := by
  obtain ⟨m₁, w₁, changed⟩ := s
  obtain ⟨f, f', w', marked, hf₁, hrun, rfl⟩ := processFunction_cases h
  have hfk : m.function? k = some f := (hs.function?_todo hk).symm.trans hf₁
  have hmem := mem_functionList hfk
  rcases Bool.or_eq_true_iff.mp hmark with hbefore | rfl
  · obtain ⟨k₀, hk₀, hne⟩ := hold hbefore
    have hk₀k : k₀ ≠ k := fun e => hk (e ▸ hk₀)
    exact ⟨k₀, by simp [hk₀], by rwa [function?_setFunction_of_ne hk₀k]⟩
  · have htracks := hs.grows.tracks (ConstantTable.tracks_snapshot m.globals m.bound)
    have hne := Function.eliminateDeadBranches_changed
      (Function.wellFormed_of_accepted ha hmem) (heven f hmem)
      (fun P T ids hgrows => ha.apart hmem (hgrows.tracks htracks)) hrun
    refine ⟨k, by simp, ?_⟩
    rw [function?_setFunction_self hf₁, hfk]
    exact fun hsame => hne (Option.some.inj hsame)

/-- **A run on an accepted module that is marked as a change is one.** -/
theorem processFunctions_changed (ha : m.Accepted) (heven : m.EvenPhis)
    (h : m.processFunctions = .ok (m', true)) : m' ≠ m := by
  obtain ⟨m₁, w₁, -, hchanged, rfl⟩ := processFunctions_induct
    (P := fun done s => s.2.2 = true → ∃ k ∈ done, s.1.function? k ≠ m.function? k) ha h
    (fun hstart => by cases hstart)
    (fun _ _ _ _ hs hk hold hstep => hs.differs_step ha heven hk hold hstep)
  obtain ⟨k, -, hne⟩ := hchanged rfl
  exact fun hsame => hne (congrArg (fun m => m.function? k) hsame)

/-- **The reported status tells the truth.** -/
theorem status_tells_truth {wl : Whitelist} {status : Status} (hbound : 1 ≤ m.bound)
    (heven : m.EvenPhis) (h : m.eliminateDeadBranches wl = .ok (m', status)) :
    (status = .failure ∨ status = .unchanged → m' = m) ∧
      (m.Coherent → m.check = .ok [] → status = .changed → m' ≠ m) := by
  rcases eliminateDeadBranches_cases h with ⟨r, -, rfl, rfl⟩ | ⟨-, changed, hrun, rfl⟩
  · refine ⟨fun _ => rfl, fun _ _ hstatus => ?_⟩
    cases r <;> cases hstatus
  · cases changed with
    | false =>
      exact ⟨fun _ => processFunctions_quiet hbound heven hrun, fun _ _ hstatus => by cases hstatus⟩
    | true =>
      refine ⟨fun hstatus => ?_, fun hm hcheck _ => ?_⟩
      · rcases hstatus with hstatus | hstatus <;> cases hstatus
      · exact processFunctions_changed ((check_eq_ok_nil_iff hm).mp hcheck) heven hrun

/-- A module with one function of three blocks. -/
def ofThreeBlocks (first second third : List Instruction) : Module := .ofFunction 15 boolGlobals
  (.ofBlocks ⟨1⟩ ⟨2⟩ ⟨3⟩ [⟨⟨10⟩, first⟩, ⟨⟨11⟩, second⟩, ⟨⟨12⟩, third⟩])

/-- A selection that always goes to block `%11`. -/
def foldable : Module :=
  ofThreeBlocks [.selectionMerge ⟨12⟩, .branchConditional ⟨5⟩ ⟨11⟩ ⟨12⟩] [.branch ⟨12⟩]
    [.phi ⟨4⟩ ⟨14⟩ [(⟨5⟩, ⟨11⟩), (⟨6⟩, ⟨10⟩)], .ret]

/-- The first run is a change and says so, the second is none and says so, too. -/
theorem status_tells_truth_foldable :
    1 ≤ foldable.bound ∧ foldable.EvenPhis ∧ foldable.Coherent ∧ foldable.check = .ok [] ∧
      ∃ m₁, foldable.eliminateDeadBranches .default = .ok (m₁, .changed) ∧ m₁ ≠ foldable ∧
        1 ≤ m₁.bound ∧ m₁.EvenPhis ∧
        ∃ m₂, m₁.eliminateDeadBranches .default = .ok (m₂, .unchanged) ∧ m₂ = m₁ := by
  have hbound : 1 ≤ foldable.bound := by decide
  have heven : foldable.EvenPhis := by decide
  have hm : foldable.Coherent := by decide
  have hcheck : foldable.check = .ok [] := by cbv
  have hfirst : foldable.eliminateDeadBranches .default =
      .ok (ofThreeBlocks [.branch ⟨11⟩] [.branch ⟨12⟩] [.ret], .changed) := by
    rw [eliminateDeadBranches_of_no_extensions rfl .default (.ofNames [])]
    cbv
  have hbound₁ : 1 ≤ (ofThreeBlocks [.branch ⟨11⟩] [.branch ⟨12⟩] [.ret]).bound := by decide
  have heven₁ : (ofThreeBlocks [.branch ⟨11⟩] [.branch ⟨12⟩] [.ret]).EvenPhis := by decide
  have hsecond : ((ofThreeBlocks [.branch ⟨11⟩] [.branch ⟨12⟩] [.ret]).eliminateDeadBranches
      .default).toOption.map Prod.snd = some .unchanged := by
    rw [eliminateDeadBranches_of_no_extensions rfl .default (.ofNames [])]
    cbv
  obtain ⟨⟨m₂, status⟩, h, rfl⟩ := toOption_map_eq_some.mp hsecond
  exact ⟨hbound, heven, hm, hcheck, _, hfirst,
    (status_tells_truth hbound heven hfirst).2 hm hcheck rfl, hbound₁, heven₁, m₂, h,
    (status_tells_truth hbound₁ heven₁ h).1 (.inr rfl)⟩

end Module
end ShaderIR
