import ShaderIR.Proofs.DeadBranch.Acceptance
import ShaderIR.Proofs.DeadBranch.Killed

/-!
# What a run leaves alone

Outside of the bodies a run does three things: it adds the constants it made to the globals, under
the ids that follow the bound; it raises the bound past them; and it drops the names and decorations
of ids that a body has lost.  Everything else stays.

The killed ids are collected over all processed functions.  That they are the ids that some body
defined and none defines any more rests on two invariants of the run: what is killed is missing in
the body that defined it (`KilledIn.step`), and what is missing in a body is killed (`Leaves.gone`).

* `killedIn_run`: where the killed ids were defined;
* `killed_iff_lost`: they are exactly the ids that the bodies have lost;
* `eliminateDeadBranches_frame`: the whole module.
-/

namespace ShaderIR.Module

open ConstantTable (results MadeFrom)

variable {m m' m₁ : Module} {w w' w₁ : Workspace} {f f' : Function} {x : Id} {k : FunctionKey}
  {done : List FunctionKey} {changed changed' : Bool}

/-! ## 1. Where the killed ids were defined -/

/-- The ids that the bodies define. -/
def bodyIds (m : Module) : List Id := m.functionList.flatMap Function.bodyIds

/-- What is killed was defined by a body that does not define it any more. -/
def KilledIn (m m₁ : Module) (w₁ : Workspace) : Prop :=
  ∀ x, w₁.killed.contains x = true → ∃ k f f', m.function? k = some f ∧
    m₁.function? k = some f' ∧ x ∈ f.bodyIds ∧ x ∉ f'.bodyIds

/-- One more function kills ids of its own only. -/
theorem KilledIn.step (hwf : ∀ f ∈ m.functionList, f.WellFormed) (hs : Processed m done m₁ w₁)
    (hk : k ∉ done) (hkilled : KilledIn m m₁ w₁)
    (h : processFunction (m₁, w₁, changed) k = .ok (m', w', changed')) : KilledIn m m' w' := by
  obtain ⟨f, f', w₂, marked, hf₁, hrun, heq⟩ := processFunction_cases h
  cases heq
  have hfk : m.function? k = some f := (hs.function?_todo hk).symm.trans hf₁
  obtain ⟨folded, repaired, mended, hphases⟩ :=
    Function.eliminateDeadBranches_phases (hwf f (mem_functionList hfk)) hrun
  intro x hx
  rcases hphases.gone_of_killed hx with hbefore | ⟨hbody, hgone⟩
  · obtain ⟨k', g, g', hg, hg', hbody, hgone⟩ := hkilled x hbefore
    -- this function has not been processed yet, so it has lost nothing
    have hne : k' ≠ k := by
      rintro rfl
      obtain rfl := Option.some.inj (hg.symm.trans hfk)
      obtain rfl := Option.some.inj (hg'.symm.trans hf₁)
      exact hgone hbody
    exact ⟨k', g, g', hg, (function?_setFunction_of_ne hne).trans hg', hbody, hgone⟩
  · exact ⟨k, f, f', hfk, function?_setFunction_self hf₁, hbody, hgone⟩

/-- **Over a whole run**, what is killed is missing where it was defined. -/
theorem killedIn_run (ha : m.Accepted) (h : m.processFunctions = .ok (m', changed)) :
    ∃ m₁ w₁, Processed m m.callOrder m₁ w₁ ∧ KilledIn m m₁ w₁ ∧ m' = m₁.finished w₁ := by
  refine processFunctions_induct (P := fun _ s => KilledIn m s.1 s.2.1) ha h ?_ ?_
  · intro x hx
    cases hx
  · rintro done k ⟨m₁, w₁, changed⟩ ⟨m₂, w₂, changed₂⟩ hs hk hkilled hstep
    exact hkilled.step (fun _ => Function.wellFormed_of_accepted ha) hs hk hstep

/-! ## 2. The ids that the bodies have lost -/

/-- Only one body defines an id. -/
theorem Accepted.body_unique (ha : m.Accepted) {n n' : Nat} {g : Function}
    (hf : m.functionList[n]? = some f) (hg : m.functionList[n']? = some g)
    (hxf : x ∈ f.bodyIds) (hxg : x ∈ g.bodyIds) : n = n' := by
  have hdisjoint := List.pairwise_iff_getElem.mp
    (List.nodup_flatMap.mp (List.nodup_append.mp ha.nodup).2.1).2
  obtain ⟨hn, rfl⟩ := List.getElem?_eq_some_iff.mp hf
  obtain ⟨hn', rfl⟩ := List.getElem?_eq_some_iff.mp hg
  rcases Nat.lt_trichotomy n n' with hlt | heq | hlt
  · exact absurd (List.mem_append_right _ hxg)
      (hdisjoint n n' hn hn' hlt (List.mem_append_right _ hxf))
  · exact heq
  · exact absurd (List.mem_append_right _ hxf)
      (hdisjoint n' n hn' hn hlt (List.mem_append_right _ hxg))

/-- **The killed ids are those that the bodies have lost.** -/
theorem killed_iff_lost (ha : m.Accepted) (hr : m.Regular) (hs : Processed m done m₁ w₁)
    (hkilled : KilledIn m m₁ w₁) :
    w₁.killed.contains x = true ↔ x ∈ m.bodyIds ∧ x ∉ m₁.bodyIds := by
  have hleaves := hs.leaves ha hr
  constructor
  · intro hx
    obtain ⟨k, f, f', hf, hf', hbody, hgone⟩ := hkilled x hx
    refine ⟨List.mem_flatMap.mpr ⟨f, mem_functionList hf, hbody⟩, fun hstill => ?_⟩
    -- another body cannot have got it: what it defines now it defined before
    obtain ⟨g', hg', hxg'⟩ := List.mem_flatMap.mp hstill
    obtain ⟨n, hn'⟩ := List.mem_iff_getElem?.mp hg'
    obtain ⟨hlt', heq'⟩ := List.getElem?_eq_some_iff.mp hn'
    have hlt : n < m.functionList.length := hleaves.length_eq ▸ hlt'
    have hleft := (List.forall₂_iff_get.mp hleaves).2 n hlt hlt'
    rw [List.get_eq_getElem, List.get_eq_getElem, heq'] at hleft
    obtain rfl := ha.body_unique (List.getElem?_eq_getElem hlt) (m.function?_eq k ▸ hf)
      (hleft.bodyIds.subset hxg') hbody
    rw [function?_eq, hn'] at hf'
    exact hgone (Option.some.inj hf' ▸ hxg')
  · rintro ⟨hx, hgone⟩
    obtain ⟨f, hf, hbody⟩ := List.mem_flatMap.mp hx
    obtain ⟨f', hf', hleft⟩ := exists_of_mem_left hleaves hf
    exact hleft.gone x hbody (fun hstill => hgone (List.mem_flatMap.mpr ⟨f', hf', hstill⟩))

/-- An instruction is about an id that the bodies of one module define and those of another do
not: its first operand. -/
def IsAboutLost (m m' : Module) (i : Instruction) : Prop :=
  ∃ x, i.idOperand? 0 = some x ∧ x ∈ m.bodyIds ∧ x ∉ m'.bodyIds

instance (m m' : Module) (i : Instruction) : Decidable (IsAboutLost m m' i) :=
  decidable_of_iff (∃ x ∈ i.idOperand? 0, x ∈ m.bodyIds ∧ x ∉ m'.bodyIds) (by
    simp [IsAboutLost])

theorem targetsOneOf_killed (ha : m.Accepted) (hr : m.Regular) (hs : Processed m done m₁ w₁)
    (hkilled : KilledIn m m₁ w₁) (i : Instruction) :
    targetsOneOf w₁.killed i = decide (m.IsAboutLost m₁ i) := by
  rw [Bool.eq_iff_iff, decide_eq_true_iff]
  simp [targetsOneOf, IsAboutLost, Option.any_eq_true, killed_iff_lost ha hr hs hkilled]

/-! ## 3. The frame of a run -/

/-- What a run does to a module outside of the bodies. -/
structure Frame (m m' : Module) : Prop where
  capabilities : m'.capabilities = m.capabilities
  extensions : m'.extensions = m.extensions
  imports : m'.imports = m.imports
  memoryModel : m'.memoryModel = m.memoryModel
  entryPoints : m'.entryPoints = m.entryPoints
  executionModes : m'.executionModes = m.executionModes
  functions : List.Forall₂
    (fun f f' => f'.id = f.id ∧ f'.definition = f.definition ∧ f'.params = f.params)
    m.functionList m'.functionList
  globals : ∃ new, m'.globals = m.globals ++ new ∧ MadeFrom (max m.bound.toNat 1) new ∧
    m'.bound.toNat = max m.bound.toNat 1 + new.length
  debug : m'.debug = m.debug.filter
    (fun i => ¬ ((i.opcode = .name ∨ i.opcode = .memberName) ∧ m.IsAboutLost m' i))
  annotations : m'.annotations = m.annotations.filter (fun i => ¬ m.IsAboutLost m' i)

theorem Processed.sameHeadings (ha : m.Accepted) (hs : Processed m done m₁ w₁) :
    List.Forall₂ (fun f f' => f'.id = f.id ∧ f'.definition = f.definition ∧ f'.params = f.params)
      m.functionList m₁.functionList := by
  refine hs.forall₂_of (fun f _ => ⟨rfl, rfl, rfl⟩) (fun f hf w f' w' hprocessed => ?_)
  obtain ⟨changed, hrun⟩ := hprocessed.run
  obtain ⟨folded, repaired, mended, hphases⟩ :=
    Function.eliminateDeadBranches_phases (Function.wellFormed_of_accepted ha hf) hrun
  exact hphases.heading

/-- The new globals have the ids that follow the bound. -/
theorem Processed.exists_new (hs : Processed m done m₁ w₁) :
    ∃ new, (m₁.finished w₁).globals = m.globals ++ new ∧ MadeFrom (max m.bound.toNat 1) new ∧
      (m₁.finished w₁).bound.toNat = max m.bound.toNat 1 + new.length := by
  obtain ⟨new, hnew, hmade, hbound⟩ := hs.grows.hasQueued
  rw [toNat_bound_supply] at hmade hbound
  refine ⟨new, ?_, hmade, hbound⟩
  rw [hs.globals_finished, hnew, ConstantTable.ofModule_eq_snapshot,
    ConstantTable.newGlobals_snapshot, List.nil_append]

/-- **What a run does outside of the bodies.**  The header stays but for the new globals, the bound
past them, and the names and decorations of the ids that the bodies have lost. -/
theorem eliminateDeadBranches_frame {wl : Whitelist} {status : Status} (hm : m.Coherent)
    (hcheck : m.check = .ok []) (hr : m.Regular) (hpast : m.refusal? wl = none)
    (h : m.eliminateDeadBranches wl = .ok (m', status)) : Frame m m' := by
  have ha := (check_eq_ok_nil_iff hm).mp hcheck
  rcases eliminateDeadBranches_cases h with ⟨r, hrefused, -, -⟩ | ⟨-, changed, hrun, -⟩
  · cases hpast.symm.trans hrefused
  obtain ⟨m₁, w₁, hs, hkilled, rfl⟩ := killedIn_run ha hrun
  have hlost : ∀ i, targetsOneOf w₁.killed i = decide (m.IsAboutLost (m₁.finished w₁) i) :=
    fun i => (targetsOneOf_killed ha hr hs hkilled i :)
  have hheader : m₁.finished w₁ = { m with functions := m₁.functions }.finished w₁ :=
    congrArg (fun m => m.finished w₁) hs.sections
  exact {
    capabilities := (congrArg Module.capabilities hheader :)
    extensions := (congrArg Module.extensions hheader :)
    imports := (congrArg Module.imports hheader :)
    memoryModel := (congrArg Module.memoryModel hheader :)
    entryPoints := (congrArg Module.entryPoints hheader :)
    executionModes := (congrArg Module.executionModes hheader :)
    functions := (hs.sameHeadings ha :)
    globals := hs.exists_new
    debug := by
      refine (hs.inSection_finished (s := .debug) (by decide)).trans (List.filter_congr ?_)
      intro i _
      simp [Section.keeps, hlost]
    annotations := by
      refine (hs.inSection_finished (s := .annotations) (by decide)).trans (List.filter_congr ?_)
      intro i _
      simp [Section.keeps, hlost] }

/-- A selection in a loop, on `0`.  Of its cases only the one for `0` can be reached, and the block
`%13` never could; the default `%14` stays for the phi `%18`, but without its value `%17`. -/
def switchInLoop : Function := .ofBlocks ⟨1⟩ ⟨2⟩ ⟨3⟩ [
  ⟨⟨10⟩, [.loopMerge ⟨15⟩ ⟨11⟩, .branch ⟨12⟩]⟩,
  ⟨⟨11⟩, [.branch ⟨12⟩]⟩,
  ⟨⟨12⟩, [.selectionMerge ⟨15⟩, .switch ⟨5⟩ ⟨14⟩ [(0, ⟨16⟩)]]⟩,
  ⟨⟨13⟩, [⟨.iAdd, some ⟨4⟩, some ⟨19⟩, [.ref ⟨5⟩, .ref ⟨5⟩]⟩, .ret]⟩,
  ⟨⟨14⟩, [⟨.iAdd, some ⟨4⟩, some ⟨17⟩, [.ref ⟨5⟩, .ref ⟨5⟩]⟩, .branch ⟨15⟩]⟩,
  ⟨⟨15⟩, [.phi ⟨4⟩ ⟨18⟩ [(⟨17⟩, ⟨14⟩)], .ret]⟩,
  ⟨⟨16⟩, [.ret]⟩]

/-- The module of that function, with two names and two decorations. -/
def switchInLoopModule : Module :=
  { Module.ofFunction 20
      [⟨.typeVoid, none, some ⟨2⟩, []⟩, ⟨.typeFunction, none, some ⟨3⟩, [.ref ⟨2⟩]⟩,
        ⟨.typeInt, none, some ⟨4⟩, [.literal 32, .literal 0]⟩,
        ⟨.constant, some ⟨4⟩, some ⟨5⟩, [.literal 0]⟩] switchInLoop with
    debug := [⟨.name, none, none, [.ref ⟨13⟩, .string "spare"]⟩,
      ⟨.name, none, none, [.ref ⟨15⟩, .string "end"]⟩]
    annotations := [⟨.decorate, none, none, [.ref ⟨19⟩, .literal 0]⟩,
      ⟨.decorate, none, none, [.ref ⟨17⟩, .literal 0]⟩] }

theorem eliminateDeadBranches_frame_switchInLoopModule :
    switchInLoopModule.Coherent ∧ switchInLoopModule.check = .ok [] ∧ switchInLoopModule.Regular ∧
      switchInLoopModule.refusal? (.ofNames []) = none ∧
      ∃ m', switchInLoopModule.eliminateDeadBranches (.ofNames []) = .ok (m', .changed) ∧
        m'.globals = switchInLoopModule.globals ++ [⟨.typeBool, none, some ⟨20⟩, []⟩,
          ⟨.constantTrue, some ⟨20⟩, some ⟨21⟩, []⟩, ⟨.undef, some ⟨4⟩, some ⟨22⟩, []⟩] ∧
        m'.bound = 23 ∧ m'.debug = switchInLoopModule.debug.drop 1 ∧
        m'.annotations = switchInLoopModule.annotations.drop 1 ∧ Frame switchInLoopModule m' := by
  have hm : switchInLoopModule.Coherent := by decide
  have hcheck : switchInLoopModule.check = .ok [] := by cbv
  have hr : switchInLoopModule.Regular := by decide
  have hpast : switchInLoopModule.refusal? (.ofNames []) = none := by cbv
  have hrun : (switchInLoopModule.eliminateDeadBranches (.ofNames [])).toOption.map
      (fun r => (r.1.globals, r.1.bound, r.1.debug, r.1.annotations, r.2)) =
        some (switchInLoopModule.globals ++ [⟨.typeBool, none, some ⟨20⟩, []⟩,
          ⟨.constantTrue, some ⟨20⟩, some ⟨21⟩, []⟩, ⟨.undef, some ⟨4⟩, some ⟨22⟩, []⟩], 23,
          switchInLoopModule.debug.drop 1, switchInLoopModule.annotations.drop 1, .changed) := by
    cbv
  refine ⟨hm, hcheck, hr, hpast, ?_⟩
  obtain ⟨⟨m', status⟩, h, hout⟩ := toOption_map_eq_some.mp hrun
  obtain ⟨hglobals, hbound, hdebug, hannotations, rfl⟩ :
      m'.globals = _ ∧ m'.bound = _ ∧ m'.debug = _ ∧ m'.annotations = _ ∧ status = _ := by
    simpa only [Prod.mk.injEq] using hout
  exact ⟨m', h, hglobals, hbound, hdebug, hannotations,
    eliminateDeadBranches_frame hm hcheck hr hpast h⟩

end ShaderIR.Module
