import ShaderIR.Proofs.DeadBranch.Faults
import ShaderIR.Proofs.DeadBranch.Finished

/-!
# Repeated runs

A run can make work for the next one: a phi gives way to its value, and another header turns out to
be on a constant, or another function turns out to be called.  What is left to do in a module is the
workload of the functions that would not be left alone.  It never grows, and each header that gets a
new ending takes one off.  Only a run that follows on a new call can make a change without taking
anything off; but the run before it has then taken off two.  So there are at most one run for the
phis and the dead blocks that the module starts with, and two for each of its headers.

* `Fit`: what a run needs, and what it leaves;
* `Round`: what a run does to the functions of a module;
* `Round.remainingWork_lt`, `Round.remainingWork_of_called`: what is taken off;
* `Fit.still`: what a run leaves unmarked the next run leaves alone;
* `Fit.runs`: run after run.
-/

namespace ShaderIR.Module

variable {m m' m'' m₁ : Module} {w₁ : Workspace} {k : FunctionKey} {f f' : Function} {x : Id}
  {wl : Whitelist} {changed : Bool} {done : List FunctionKey}

/-! ## 1. Modules that can be run again -/

/-- What a run needs of a module, and what it leaves of it. -/
structure Fit (m : Module) : Prop where
  function : ∀ f ∈ m.functionList, f.Fit m.globals m.bound
  nodup : (ConstantTable.results m.globals).Nodup
  below : ∀ x ∈ ConstantTable.results m.globals, x.word < m.bound

theorem fit_of_accepted (ha : m.Accepted) : m.Fit where
  function f hf := ⟨Function.wellFormed_of_accepted ha hf, isReadable_iff.mp ha.readable f hf,
    fun b hb k hk phi hphi hres => ((ha.sound f hf).phi b hb k hk phi hphi hres).1, ha.livesIn hf⟩
  nodup := ha.nodup_globals
  below := ha.below_globals

theorem Fit.wellFormed (hm : m.Fit) : ∀ f ∈ m.functionList, f.WellFormed := fun f hf =>
  (hm.function f hf).wellFormed

theorem Fit.anchored (hm : m.Fit) :
    (ConstantTable.ofModule m).Anchored m.supply m.globals m.bound :=
  ⟨ConstantTable.tracks_snapshot m.globals m.bound, hm.nodup, hm.below⟩

/-- **A run leaves a module that can be run again.** -/
theorem Fit.finished (hm : m.Fit) (hs : Processed m done m₁ w₁) : (m₁.finished w₁).Fit := by
  have hanchored := hs.grows.anchored hm.anchored
  refine ⟨fun f' hf' => ?_, ?_, ?_⟩
  · rw [hs.globals_finished]
    obtain ⟨f, hf, rfl | ⟨w, w', hprocessed⟩⟩ := exists_of_mem_right hs.forall₂ hf'
    · exact (hm.function f' hf).later hanchored.toTracks
    · obtain ⟨changed, hrun⟩ := hprocessed.run
      obtain ⟨folded, repaired, mended, hphases⟩ :=
        Function.eliminateDeadBranches_phases (hm.wellFormed f hf) hrun
      exact hphases.fit (hm.function f hf)
        (hphases.grows.anchored (hprocessed.before.anchored hm.anchored)) hprocessed.after
  · rw [hs.globals_finished]
    exact hanchored.results_nodup
  · rw [hs.globals_finished]
    exact fun x hx => UInt32.lt_iff_toNat_lt.mpr (hanchored.lt_bound hx)

theorem Processed.one_le_bound (hm : m.Fit) (hs : Processed m done m₁ w₁) :
    1 ≤ (m₁.finished w₁).bound := by
  have hpositive := (hs.grows.anchored hm.anchored).positive
  have hne : w₁.ids.bound.toNat ≠ 0 := fun hzero => hpositive (UInt32.toNat_inj.mp hzero)
  exact UInt32.le_iff_toNat_le.mpr (Nat.one_le_iff_ne_zero.mpr hne)

/-! ## 2. One run -/

/-- A run knows the constants of the module that it leaves. -/
theorem Processed.known_finished (hs : Processed m done m₁ w₁) (x : Id) :
    (ConstantTable.ofModule (m₁.finished w₁)).bool? x = w₁.constants.bool? x ∧
      (ConstantTable.ofModule (m₁.finished w₁)).int? x = w₁.constants.int? x := by
  have htable := (hs.grows.tracks (ConstantTable.tracks_snapshot m.globals m.bound)).table
  rw [ConstantTable.ofModule_eq_snapshot, hs.globals_finished, htable]
  exact ⟨rfl, rfl⟩

/-- A processed function has the id it had. -/
theorem Processed.exists_function (hm : m.Fit) (hs : Processed m done m₁ w₁)
    (hf : m.function? k = some f) : ∃ f', m₁.function? k = some f' ∧ f'.id = f.id := by
  by_cases hk : k ∈ done
  · obtain ⟨w, f', w', hf', hprocessed⟩ := hs.done k hk f hf
    obtain ⟨changed, hrun⟩ := hprocessed.run
    obtain ⟨folded, repaired, mended, hphases⟩ :=
      Function.eliminateDeadBranches_phases (hm.wellFormed f (mem_functionList hf)) hrun
    exact ⟨f', hf', hphases.heading.1⟩
  · exact ⟨f, (hs.function?_todo hk).trans hf, rfl⟩

/-- What a run does to a module. -/
structure Round (m m' : Module) : Prop where
  keys : m'.functionKeys = m.functionKeys
  functionOf? : ∀ x, m'.functionOf? x = m.functionOf? x
  entryPoints : m'.entryPointFunctions = m.entryPointFunctions
  known : (ConstantTable.ofModule m).Continues m.bound (.ofModule m')
  called : ∀ k ∈ m.callOrder, ∀ f, m.function? k = some f →
    ∃ f', m'.function? k = some f' ∧ f.Handled (.ofModule m) f' (.ofModule m')
  other : ∀ k, k ∉ m.callOrder → m'.function? k = m.function? k

/-- **A run on a module**: the functions that are called are processed, the others stay. -/
theorem Fit.round (hm : m.Fit) (hs : Processed m m.callOrder m₁ w₁) :
    Round m (m₁.finished w₁) := by
  have hbound : m.bound.toNat ≤ m.supply.bound.toNat := hm.anchored.bound_le
  have hkeys : m₁.functionKeys = m.functionKeys := functionKeys_eq hs.size
  have hknown : w₁.constants.Extends (.ofModule (m₁.finished w₁)) :=
    ⟨fun x v hx => (hs.known_finished x).1.trans hx, fun x n hx => (hs.known_finished x).2.trans hx⟩
  refine ⟨hkeys, fun x => ?_, ?_, ?_, fun k hk f hf => ?_, fun k hk => hs.function?_todo hk⟩
  · -- every function keeps its id
    rw [functionOf?_eq, functionOf?_eq, show (m₁.finished w₁).functionKeys = _ from hkeys]
    refine List.find?_congr (fun k hk => ?_)
    obtain ⟨f, -, hf⟩ := function_of_mem_functionKeys hk
    obtain ⟨f', hf', hid⟩ := hs.exists_function hm hf
    simp [show (m₁.finished w₁).function? k = some f' from hf', hf, hid]
  · rw [hs.sections]
    rfl
  · have hcontinues := hs.grows.continues hm.anchored
    refine ⟨hcontinues.toExtends.trans hknown, fun x hx => ?_⟩
    have hbelow := hcontinues.agrees x (Nat.lt_of_lt_of_le hx hbound)
    exact ⟨(hs.known_finished x).1.trans hbelow.1, (hs.known_finished x).2.trans hbelow.2⟩
  · obtain ⟨w, f', w', hf', hprocessed⟩ := hs.done k hk f hf
    obtain ⟨changed, hrun⟩ := hprocessed.run
    have hw := hprocessed.before.anchored hm.anchored
    obtain ⟨folded, repaired, mended, hphases⟩ :=
      Function.eliminateDeadBranches_phases (hm.wellFormed f (mem_functionList hf)) hrun
    refine ⟨f', hf', Function.handled (hm.function f (mem_functionList hf)) hw
      ((hprocessed.before.continues hm.anchored).weaken hbound) hrun ?_⟩
    exact (hprocessed.after.extends (hphases.grows.anchored hw)).trans hknown

/-- **After a run** the module can be run again, and is refused as little as before. -/
theorem Fit.run (hm : m.Fit) (h : m.processFunctions = .ok (m', changed)) :
    m'.Fit ∧ 1 ≤ m'.bound ∧ Round m m' ∧
      ∀ wl, m.refusal? wl = none → m'.refusal? wl = none := by
  obtain ⟨m₁, w₁, hs, -, rfl⟩ := processFunctions_induct_of_wellFormed (P := fun _ _ => True)
    hm.wellFormed h trivial (fun _ _ _ _ _ _ _ _ => trivial)
  exact ⟨hm.finished hs, hs.one_le_bound hm, hm.round hs, fun _ => hs.refusal?_finished⟩

/-! ## 3. What is left to do -/

/-- What is left to do in a function: nothing if it would be left alone. -/
def remaining (m : Module) (k : FunctionKey) : Nat :=
  match m.function? k with
  | some f =>
    if f.eliminateDeadBranches (.ofModule m) = .ok (f, .ofModule m, false) then 0
    else f.workload (.ofModule m)
  | none => 0

/-- What is left to do in the functions of a module. -/
def remainingWork (m : Module) : Nat := (m.functionKeys.map m.remaining).sum

/-- No header of a function that is called is due for a new ending. -/
def Closed (m : Module) : Prop :=
  ∀ k ∈ m.callOrder, ∀ f, m.function? k = some f → f.Closed (.ofModule m)

theorem Fit.remaining_cases (hm : m.Fit) (hf : m.function? k = some f) :
    (f.Finished (.ofModule m) ∧ m.remaining k = 0) ∨
      (¬ f.Finished (.ofModule m) ∧ m.remaining k = f.workload (.ofModule m)) := by
  have hfit := hm.function f (mem_functionList hf)
  have hiff := Function.eliminateDeadBranches_eq_iff hfit.wellFormed hfit.readable
    (w := .ofModule m)
  by_cases hfinished : f.Finished (.ofModule m)
  · exact .inl ⟨hfinished, by simp only [remaining, hf, if_pos (hiff.mpr hfinished)]⟩
  · exact .inr ⟨hfinished, by simp only [remaining, hf, if_neg (mt hiff.mp hfinished)]⟩

theorem Fit.remaining_le (hm : m.Fit) (hf : m.function? k = some f) :
    m.remaining k ≤ f.workload (.ofModule m) := by
  rcases hm.remaining_cases hf with ⟨-, h⟩ | ⟨-, h⟩ <;> omega

theorem Fit.remaining_of_not_closed (hm : m.Fit) (hf : m.function? k = some f)
    (hnot : ¬ f.Closed (.ofModule m)) : m.remaining k = f.workload (.ofModule m) := by
  rcases hm.remaining_cases hf with ⟨hfinished, -⟩ | ⟨-, h⟩
  · exact absurd hfinished.closed hnot
  · exact h

theorem Fit.remaining_of_finished (hm : m.Fit) (hf : m.function? k = some f)
    (hfinished : f.Finished (.ofModule m)) : m.remaining k = 0 := by
  rcases hm.remaining_cases hf with ⟨-, h⟩ | ⟨hnot, -⟩
  · exact h
  · exact absurd hfinished hnot

namespace Round

/-- A finished function stays finished. -/
theorem finished (hm : m.Fit) (h : Round m m') (hf : m.function? k = some f)
    (hfinished : f.Finished (.ofModule m)) : f.Finished (.ofModule m') := by
  have hfit := hm.function f (mem_functionList hf)
  exact (Function.finished_congr hfit.wellFormed.coherent (fun x hx =>
    h.known.agrees x (UInt32.lt_iff_toNat_lt.mp (hfit.lives.uses x hx)))).mpr hfinished

theorem remaining_le (hm : m.Fit) (hm' : m'.Fit) (h : Round m m') (k : FunctionKey) :
    m'.remaining k ≤ m.remaining k := by
  cases hf : m.function? k with
  | none =>
    have hnot : k ∉ m.callOrder := fun hk => by
      obtain ⟨f, -, hfk⟩ := function_of_mem_callOrder hk
      cases hf.symm.trans hfk
    simp [remaining, h.other k hnot, hf]
  | some f =>
    have hcoherent := (hm.wellFormed f (mem_functionList hf)).coherent
    obtain ⟨f', hf', hle, hkept⟩ : ∃ f', m'.function? k = some f' ∧
        f'.workload (.ofModule m') ≤ f.workload (.ofModule m) ∧
        (f.Finished (.ofModule m) → f' = f) := by
      by_cases hk : k ∈ m.callOrder
      · obtain ⟨f', hf', hhandled⟩ := h.called k hk f hf
        exact ⟨f', hf', hhandled.workload_le, hhandled.kept⟩
      · exact ⟨f, (h.other k hk).trans hf, (Function.Lighter.of_extends
          h.known.toExtends).workload_le hcoherent hcoherent, fun _ => rfl⟩
    rcases hm.remaining_cases hf with ⟨hfinished, -⟩ | ⟨-, hload⟩
    · obtain rfl := hkept hfinished
      rw [hm'.remaining_of_finished hf' (h.finished hm hf hfinished)]
      exact Nat.zero_le _
    · rw [hload]
      exact Nat.le_trans (hm'.remaining_le hf') hle

/-- There is less to do by as much as in one function. -/
theorem remainingWork_le (hm : m.Fit) (hm' : m'.Fit) (h : Round m m') (hk : k ∈ m.callOrder)
    {d : Nat} (hd : m'.remaining k + d ≤ m.remaining k) :
    m'.remainingWork + d ≤ m.remainingWork := by
  unfold remainingWork
  rw [h.keys]
  exact sum_map_add_le (fun k _ => h.remaining_le hm hm' k)
    (mem_functionKeys_of_callOrder hk) hd

theorem remainingWork_mono (hm : m.Fit) (hm' : m'.Fit) (h : Round m m') :
    m'.remainingWork ≤ m.remainingWork := by
  unfold remainingWork
  rw [h.keys]
  exact List.sum_le_sum (fun k _ => h.remaining_le hm hm' k)

/-- If a header is due, it is due in a function that the run handles. -/
theorem exists_handled (h : Round m m') (hnot : ¬ m.Closed) :
    ∃ k ∈ m.callOrder, ∃ f f', m.function? k = some f ∧ m'.function? k = some f' ∧
      ¬ f.Closed (.ofModule m) ∧ f.Handled (.ofModule m) f' (.ofModule m') := by
  simp only [Closed, not_forall] at hnot
  obtain ⟨k, hk, f, hf, hopen⟩ := hnot
  obtain ⟨f', hf', hhandled⟩ := h.called k hk f hf
  exact ⟨k, hk, f, f', hf, hf', hopen, hhandled⟩

/-- **If a header was due, there is less to do.** -/
theorem remainingWork_lt (hm : m.Fit) (hm' : m'.Fit) (h : Round m m') (hnot : ¬ m.Closed) :
    m'.remainingWork + 1 ≤ m.remainingWork := by
  obtain ⟨k, hk, f, f', hf, hf', hopen, hhandled⟩ := h.exists_handled hnot
  refine h.remainingWork_le hm hm' hk ?_
  rw [hm.remaining_of_not_closed hf hopen]
  exact Nat.le_trans (Nat.add_le_add_right (hm'.remaining_le hf') 1) (hhandled.workload_lt hopen)

/-- A function is called anew only where another one has a new call. -/
theorem exists_newCall (h : Round m m') (hk : k ∈ m'.callOrder) (hnew : k ∉ m.callOrder) :
    ∃ a ∈ m.callOrder, a ∈ m'.callOrder ∧ ∃ f f', m.function? a = some f ∧
      m'.function? a = some f' ∧ ∃ x ∈ f'.callees, x ∉ f.callees := by
  by_contra hnone
  refine hnew (Graph.search_induct (P := fun a => a ∈ m.callOrder ∧ a ∈ m'.callOrder)
    (fun r hr hkey => ?_) (fun a ha b hb hkey => ?_) hk).2.1
  · refine ⟨Graph.mem_search_of_root ?_ (h.keys ▸ hkey), Graph.mem_search_of_root hr hkey⟩
    obtain ⟨x, hx, hxr⟩ := List.mem_filterMap.mp hr
    exact List.mem_filterMap.mpr ⟨x, h.entryPoints ▸ hx, h.functionOf? x ▸ hxr⟩
  · refine ⟨Graph.mem_search_of_edge ha.1 ?_ (h.keys ▸ hkey), Graph.mem_search_of_edge ha.2 hb hkey⟩
    obtain ⟨f, -, hf⟩ := function_of_mem_callOrder ha.1
    obtain ⟨f', hf', -⟩ := h.called a ha.1 f hf
    simp only [calls, hf', Option.map_some, Option.getD_some] at hb
    obtain ⟨x, hx, hxb⟩ := List.mem_filterMap.mp hb
    simp only [calls, hf, Option.map_some, Option.getD_some]
    refine List.mem_filterMap.mpr ⟨x, ?_, h.functionOf? x ▸ hxb⟩
    by_contra hxnew
    exact hnone ⟨a, ha.1, ha.2, f, f', hf, hf', x, hx, hxnew⟩

end Round

/-! ## 4. The next run -/

/-- A module is left alone if the functions that are called are finished. -/
theorem Fit.processFunctions_eq (hm : m.Fit) (hbound : 1 ≤ m.bound)
    (h : ∀ k ∈ m.callOrder, ∀ f, m.function? k = some f → f.Finished (.ofModule m)) :
    m.processFunctions = .ok (m, false) :=
  processFunctions_of_fixed hbound (fun k hk f hf =>
    have hfit := hm.function f (mem_functionList hf)
    (h k hk f hf).eliminateDeadBranches_eq hfit.wellFormed hfit.readable)

/-- A function that has been processed is finished once no header is due. -/
theorem Round.finished_of_closed (h : Round m m') (hclosed : m'.Closed) (hk : k ∈ m.callOrder)
    (hk' : k ∈ m'.callOrder) (hf' : m'.function? k = some f') : f'.Finished (.ofModule m') := by
  obtain ⟨f, -, hf⟩ := function_of_mem_callOrder hk
  obtain ⟨g, hg, hhandled⟩ := h.called k hk f hf
  obtain rfl := Option.some.inj (hg.symm.trans hf')
  exact hhandled.finished (hclosed k hk' g hf')

/-- **If a run changes something though no header is due**, the run before it has made a call. -/
theorem Round.exists_called (hm' : m'.Fit) (hbound : 1 ≤ m'.bound) (h : Round m m')
    (hclosed : m'.Closed) (hnext : m'.processFunctions = .ok (m'', true)) :
    ∃ k ∈ m'.callOrder, k ∉ m.callOrder := by
  by_contra hnone
  have hstill : m'.processFunctions = .ok (m', false) :=
    hm'.processFunctions_eq hbound (fun k hk' f' hf' =>
      h.finished_of_closed hclosed (by_contra (fun hk => hnone ⟨k, hk', hk⟩)) hk' hf')
  cases hnext.symm.trans hstill

/-- **A new call takes two off what is left to do**: in the function that calls, nothing is left. -/
theorem Round.remainingWork_of_called (hm : m.Fit) (hm' : m'.Fit) (h : Round m m')
    (hclosed : m'.Closed) (hk : k ∈ m'.callOrder) (hnew : k ∉ m.callOrder) :
    ¬ m.Closed ∧ m'.remainingWork + 2 ≤ m.remainingWork := by
  obtain ⟨a, ha, ha', f, f', hf, hf', x, hx, hxnew⟩ := h.exists_newCall hk hnew
  obtain ⟨g, hg, hhandled⟩ := h.called a ha f hf
  obtain rfl := Option.some.inj (hg.symm.trans hf')
  obtain ⟨hopen, htwo⟩ := hhandled.newCall x hx hxnew
  refine ⟨fun hall => hopen (hall a ha f hf), h.remainingWork_le hm hm' ha ?_⟩
  rw [hm.remaining_of_not_closed hf hopen,
    hm'.remaining_of_finished hf' (h.finished_of_closed hclosed ha ha' hf')]
  omega

/-- A run that has marked no change so far has only dropped loose operands. -/
def Unmarked (m : Module) (done : List FunctionKey) (m₁ : Module) (w₁ : Workspace) : Prop :=
  w₁ = .ofModule m ∧ ∀ k ∈ done, ∀ f, m.function? k = some f →
    ∃ f', m₁.function? k = some f' ∧ f'.Finished (.ofModule m) ∧ ∀ x ∈ f'.callees, x ∈ f.callees

theorem Unmarked.step (hm : m.Fit) (hs : Processed m done m₁ w₁) (hk : k ∉ done)
    (hu : Unmarked m done m₁ w₁) {s' : Module × Workspace × Bool}
    (h : processFunction (m₁, w₁, false) k = .ok s') (hquiet : s'.2.2 = false) :
    Unmarked m (done ++ [k]) s'.1 s'.2.1 := by
  obtain ⟨f, f', w', marked, hf₁, hrun, rfl⟩ := processFunction_cases h
  obtain rfl : marked = false := hquiet
  have hfk : m.function? k = some f := (hs.function?_todo hk).symm.trans hf₁
  have hfit := hm.function f (mem_functionList hfk)
  obtain ⟨rfl, hfinished, hcalls⟩ :=
    Function.finished_of_unmarked hfit.wellFormed hfit.readable hrun
  obtain ⟨rfl, hdone⟩ := hu
  refine ⟨rfl, fun k' hk' g hg => ?_⟩
  by_cases hkk : k' = k
  · subst hkk
    obtain rfl := Option.some.inj (hfk.symm.trans hg)
    exact ⟨f', function?_setFunction_self hf₁, hfinished, hcalls⟩
  · obtain ⟨g', hg', hrest⟩ := hdone k' (by simpa [hkk] using hk') g hg
    exact ⟨g', (function?_setFunction_of_ne hkk).trans hg', hrest⟩

/-- **What a run leaves unmarked the next run leaves alone.** -/
theorem Fit.still (hm : m.Fit) (h : m.processFunctions = .ok (m', false)) :
    m'.processFunctions = .ok (m', false) := by
  obtain ⟨m₁, w₁, hs, hquiet, rfl⟩ := processFunctions_induct_of_wellFormed
    (P := fun done s => s.2.2 = false → Unmarked m done s.1 s.2.1)
    hm.wellFormed h (fun _ => ⟨rfl, fun _ hk => by cases hk⟩)
    (fun done k s s' hs hk ih hstep hq => by
      have hs₂ : s.2.2 = false := processFunction_mono hstep hq
      obtain ⟨m₁, w₁, c⟩ := s
      obtain rfl : c = false := hs₂
      exact (ih rfl).step hm hs hk hstep hq)
  have hbound := hs.one_le_bound hm
  obtain ⟨rfl, hfinished⟩ := hquiet rfl
  have hround := hm.round hs
  have htable : ConstantTable.ofModule (m₁.finished (.ofModule m)) = .ofModule m := by
    rw [ConstantTable.ofModule_eq_snapshot, hs.globals_finished]
    simp [Workspace.ofModule, ConstantTable.ofModule_eq_snapshot]
  refine (hm.finished hs).processFunctions_eq hbound (fun k hk f' hf' => ?_)
  have hold : k ∈ m.callOrder := by
    by_contra hnew
    obtain ⟨a, ha, -, f, g, hf, hg, x, hx, hxnew⟩ := hround.exists_newCall hk hnew
    obtain ⟨g', hg', -, hcalls⟩ := hfinished a ha f hf
    obtain rfl := Option.some.inj (hg'.symm.trans hg)
    exact hxnew (hcalls x hx)
  obtain ⟨f, -, hf⟩ := function_of_mem_callOrder hold
  obtain ⟨g', hg', hdone, -⟩ := hfinished k hold f hf
  obtain rfl := Option.some.inj (hg'.symm.trans hf')
  rwa [htable]

/-! ## 5. Run after run -/

/-- One run: the module before it, its status, and the module after it. -/
structure Run where
  before : Module
  status : Status
  after : Module

/-- A number of runs, each on what the one before it leaves. -/
def runs (wl : Whitelist) : Nat → Module → Except Fault (List Run)
  | 0, _ => .ok []
  | n + 1, m => do
    let (m', status) ← m.eliminateDeadBranches wl
    let rest ← runs wl n m'
    .ok (⟨m, status, m'⟩ :: rest)

/-- A run gives a header of a function that is called a new ending. -/
def Run.RewritesHeader (r : Run) : Prop :=
  ∃ k ∈ r.before.callOrder, ∃ f f' b, r.before.function? k = some f ∧
    r.after.function? k = some f' ∧
    f.NewEnding (.ofModule r.before) f' (.ofModule r.after) b

/-- A run gives a reason for the changes of the next one: that one rewrites a header, or it gets to
a function that was not called before. -/
def Run.Explains (r next : Run) : Prop :=
  next.status = .changed → next.RewritesHeader ∨
    ∃ k ∈ next.before.callOrder, k ∉ r.before.callOrder

/-- From the first run that leaves the module unchanged on, all runs do. -/
def Settles (trace : List Run) : Prop :=
  ∀ earlier r later, trace = earlier ++ r :: later → r.status = .unchanged →
    ∀ r' ∈ later, r'.status = .unchanged

/-- The number of runs that change something. -/
def changes (trace : List Run) : Nat := trace.countP (fun r => r.status = .changed)

/-- The number of selection headers in the functions of a module. -/
def headerCount (m : Module) : Nat := (m.functionList.map Function.headerCount).sum

/-- Every function is found under one key at most. -/
theorem functions_sublist (m : Module) :
    (m.functionKeys.filterMap m.function?).Sublist m.functionList := by
  have hrange : ∀ fs : List Function, (List.range fs.length).filterMap (fun n => fs[n]?) = fs := by
    intro fs
    induction fs with
    | nil => rfl
    | cons f fs ih => simp [List.range_succ_eq_map, List.filterMap_map, ih]
  have hsub : ∀ ns : List Nat, ((ns.filterMap ArenaKey.ofIndex?).filterMap m.function?).Sublist
      (ns.filterMap (fun n => m.functionList[n]?)) := by
    intro ns
    induction ns with
    | nil => exact .slnil
    | cons n ns ih =>
      cases hn : (ArenaKey.ofIndex? n : Option FunctionKey) with
      | none =>
        rw [List.filterMap_cons_none hn]
        exact ih.trans ((List.sublist_cons_self n ns).filterMap _)
      | some k =>
        have hk : m.function? k = m.functionList[n]? :=
          ArenaKey.index_eq_of_ofIndex? hn ▸ m.function?_eq k
        rw [List.filterMap_cons_some hn, List.filterMap_cons, List.filterMap_cons, hk]
        cases m.functionList[n]? with
        | none => exact ih
        | some f => exact ih.cons_cons f
  have hsize : m.functionList.length = m.functions.size := by simp [functionList, Arena.size]
  have hall := hsub (List.range m.functions.size)
  rwa [← hsize, hrange] at hall

theorem remainingWork_le (m : Module) : m.remainingWork ≤ 2 * m.headerCount := by
  have hkeys : ∀ ks : List FunctionKey, (ks.map m.remaining).sum ≤
      2 * ((ks.filterMap m.function?).map Function.headerCount).sum := by
    intro ks
    induction ks with
    | nil => simp
    | cons k ks ih =>
      rw [List.map_cons, List.sum_cons, remaining]
      cases hf : m.function? k with
      | none => simpa [hf] using ih
      | some f =>
        have hload := f.workload_le (.ofModule m)
        simp only [List.filterMap_cons_some hf, List.map_cons, List.sum_cons]
        split <;> omega
  have hsum := (m.functions_sublist.map Function.headerCount).sum_le_sum
    (fun _ _ => Nat.zero_le _)
  exact Nat.le_trans (hkeys m.functionKeys) (Nat.mul_le_mul_left 2 hsum)

/-- Once a run has left the module alone, all of them do. -/
theorem runs_of_fixed {status : Status} (h : m.eliminateDeadBranches wl = .ok (m, status))
    (n : Nat) : m.runs wl n = .ok (List.replicate n ⟨m, status, m⟩) := by
  induction n with
  | zero => rfl
  | succ n ih => exact bind_eq_ok.mpr ⟨_, h, bind_eq_ok.mpr ⟨_, ih, rfl⟩⟩

/-- What is known about runs on a module that is not refused. -/
structure Converges (m : Module) (n : Nat) (trace : List Run) : Prop where
  length : trace.length = n
  head : ∀ r ∈ trace.head?, r.before = m ∧
    (r.status = .changed → m.processFunctions = .ok (r.after, true))
  changes_le : changes trace ≤ m.remainingWork + 1
  changes_le_of_open : ¬ m.Closed → changes trace ≤ m.remainingWork
  first : changes trace = 0 ∨ ∃ m', m.processFunctions = .ok (m', true)
  settles : Settles trace
  explained : trace.IsChain Run.Explains

/-- Runs that all have one status, and no changes. -/
theorem settles_of_quiet {status : Status} (hne : status ≠ .changed) {trace : List Run}
    (h : ∀ r ∈ trace, r.status = status) :
    changes trace = 0 ∧ Settles trace ∧ trace.IsChain Run.Explains := by
  refine ⟨List.countP_eq_zero.mpr (fun r hr => by simp [h r hr, hne]), ?_, ?_⟩
  · rintro earlier r later rfl hr r' hr'
    exact (h r' (by simp [hr'])).trans ((h r (by simp)).symm.trans hr)
  · exact (List.pairwise_of_forall_mem_list (fun _ _ r hr hchanged =>
      absurd ((h r hr).symm.trans hchanged) hne)).isChain

/-- **A run without a change** is followed by runs without a change. -/
theorem converges_of_unchanged (m m' : Module) (n : Nat) :
    m.Converges (n + 1) (⟨m, .unchanged, m'⟩ :: List.replicate n ⟨m', .unchanged, m'⟩) := by
  have hquiet : ∀ r ∈ ⟨m, .unchanged, m'⟩ :: List.replicate n (Run.mk m' .unchanged m'),
      r.status = .unchanged := by
    rintro r (_ | ⟨_, hr⟩)
    · rfl
    · rw [List.eq_of_mem_replicate hr]
  obtain ⟨hchanges, hsettles, hchain⟩ := settles_of_quiet (by decide) hquiet
  exact ⟨by simp, by simp, by omega, fun _ => by omega, .inl hchanges, hsettles, hchain⟩

/-- **A run with a change** comes before the others. -/
theorem Converges.cons {n : Nat} {trace : List Run} (hm : m.Fit)
    (hrun : m.processFunctions = .ok (m', true)) (h : m'.Converges n trace) :
    m.Converges (n + 1) (⟨m, .changed, m'⟩ :: trace) := by
  obtain ⟨hm', hbound, hround, -⟩ := hm.run hrun
  -- why the next run changes something, if it does
  have hnext : changes trace = 0 ∨ changes trace ≤ m'.remainingWork ∨
      (¬ m.Closed ∧ m'.remainingWork + 2 ≤ m.remainingWork) := by
    refine h.first.imp_right ?_
    rintro ⟨m'', hrun'⟩
    by_cases hclosed : m'.Closed
    · obtain ⟨k, hk, hnew⟩ := hround.exists_called hm' hbound hclosed hrun'
      exact .inr (hround.remainingWork_of_called hm hm' hclosed hk hnew)
    · exact .inl (h.changes_le_of_open hclosed)
  have hle := hround.remainingWork_mono hm hm'
  have hrest := h.changes_le
  have hchanges : changes (⟨m, .changed, m'⟩ :: trace) = changes trace + 1 := by simp [changes]
  refine ⟨by simp [h.length], by simp [hrun], ?_, fun hopen => ?_, .inr ⟨m', hrun⟩, ?_, ?_⟩
  · omega
  · have hlt := hround.remainingWork_lt hm hm' hopen
    omega
  · rintro (_ | ⟨r₀, earlier⟩) r later heq hr
    · obtain rfl := (List.cons.inj heq).1
      cases hr
    · exact h.settles earlier r later (List.cons.inj heq).2 hr
  · refine List.isChain_cons.mpr ⟨fun r hr hchanged => ?_, h.explained⟩
    obtain ⟨hbefore, hrun'⟩ := h.head r hr
    obtain ⟨-, -, hround', -⟩ := hm'.run (hrun' hchanged)
    rw [Run.RewritesHeader, hbefore]
    by_cases hclosed : m'.Closed
    · exact .inr (hround.exists_called hm' hbound hclosed (hrun' hchanged))
    · obtain ⟨k, hk, f, f', hf, hf', hopen, hhandled⟩ := hround'.exists_handled hclosed
      obtain ⟨b, hb⟩ := hhandled.newEnding hopen
      exact .inl ⟨k, hk, f, f', b, hf, hf', hb⟩

/-- **Runs on a module that is not refused converge**, unless the ids run out. -/
theorem Fit.runs (hm : m.Fit) (hrefusal : m.refusal? wl = none) (n : Nat) :
    m.runs wl n = .error .idsExhausted ∨
      ∃ trace, m.runs wl n = .ok trace ∧ m.Converges n trace := by
  induction n generalizing m with
  | zero => exact .inr ⟨[], rfl, rfl, by simp, by simp [changes], by simp [changes], .inl rfl,
      by simp [Settles], .nil⟩
  | succ n ih =>
    cases hrun : m.processFunctions with
    | error e =>
      obtain rfl := lacksOnlyIds_processFunctions hm.wellFormed
        (fun f hf => (hm.function f hf).readable) e hrun
      exact .inl (by simp [Module.runs, eliminateDeadBranches, hrefusal, hrun, bind, Except.bind])
    | ok result =>
      obtain ⟨m', changed⟩ := result
      obtain ⟨hm', -, -, hrefusal'⟩ := hm.run hrun
      have hfirst : m.eliminateDeadBranches wl = .ok (m', .ofChanged changed) := by
        simp [eliminateDeadBranches, hrefusal, hrun, bind, Except.bind]
      cases changed with
      | false =>
        have hstill := (eliminateDeadBranches_unchanged_iff (hrefusal' wl hrefusal)).mpr
          (hm.still hrun)
        exact .inr ⟨_, bind_eq_ok.mpr ⟨_, hfirst, bind_eq_ok.mpr
          ⟨_, runs_of_fixed hstill n, rfl⟩⟩, converges_of_unchanged m m' n⟩
      | true =>
        rcases ih hm' (hrefusal' wl hrefusal) with hlack | ⟨trace, hrest, hconverges⟩
        · exact .inl (by simp [Module.runs, hfirst, hlack, bind, Except.bind])
        · exact .inr ⟨_, bind_eq_ok.mpr ⟨_, hfirst, bind_eq_ok.mpr ⟨_, hrest, rfl⟩⟩,
            hconverges.cons hm hrun⟩

/-- **Repeated runs converge.** Unless the ids run out, the number of runs with a change is bounded
by the selection headers that the module starts with, and no such run comes after one without a
change.  Each of them but the first rewrites a header, or gets to a function that was not called
before. -/
theorem repeated_runs_converge (hm : m.Coherent) (hcheck : m.check = .ok []) (wl : Whitelist)
    (n : Nat) :
    m.runs wl n = .error .idsExhausted ∨
      ∃ trace, m.runs wl n = .ok trace ∧ trace.length = n ∧
        changes trace ≤ 1 + 2 * m.headerCount ∧ Settles trace ∧ trace.IsChain Run.Explains := by
  have hfit := fit_of_accepted ((check_eq_ok_nil_iff hm).mp hcheck)
  cases hrefusal : m.refusal? wl with
  | none =>
    refine (hfit.runs hrefusal n).imp_right ?_
    rintro ⟨trace, hruns, h⟩
    have hchanges := h.changes_le
    have hwork := m.remainingWork_le
    exact ⟨trace, hruns, h.length, by omega, h.settles, h.explained⟩
  | some r =>
    have hfixed : m.eliminateDeadBranches wl = .ok (m, r.status) := by
      simp [eliminateDeadBranches, hrefusal]
    have hstatus : r.status ≠ .changed := by cases r <;> simp [Refusal.status]
    have hquiet : ∀ r' ∈ List.replicate n (Run.mk m r.status m), r'.status = r.status :=
      fun r' hr' => by rw [List.eq_of_mem_replicate hr']
    obtain ⟨hchanges, hsettles, hchain⟩ := settles_of_quiet hstatus hquiet
    exact .inr ⟨_, runs_of_fixed hfixed n, List.length_replicate, by omega, hsettles, hchain⟩

/-- The first run on `lateConstant` makes the condition of its second header a constant. -/
theorem repeated_runs_converge_lateConstant :
    lateConstant.Coherent ∧ lateConstant.check = .ok [] ∧ lateConstant.headerCount = 2 ∧
      ∃ trace, lateConstant.runs (.ofNames []) 4 = .ok trace ∧
        trace.map Run.status = [.changed, .changed, .unchanged, .unchanged] ∧
        changes trace ≤ 1 + 2 * lateConstant.headerCount ∧ Settles trace ∧
        trace.IsChain Run.Explains := by
  have hm : lateConstant.Coherent := by decide
  have hcheck : lateConstant.check = .ok [] := by cbv
  have hruns : (lateConstant.runs (.ofNames []) 4).toOption.map (List.map Run.status) =
      some [.changed, .changed, .unchanged, .unchanged] := by cbv
  obtain ⟨trace, htrace, hstatuses⟩ := toOption_map_eq_some.mp hruns
  rcases repeated_runs_converge hm hcheck (.ofNames []) 4 with hlack | ⟨_, hok, -, hrest⟩
  · cases htrace.symm.trans hlack
  · cases htrace.symm.trans hok
    exact ⟨hm, hcheck, by decide, trace, htrace, hstatuses, hrest⟩

/-- A run that rewrites a header finds one. -/
theorem Run.RewritesHeader.headerCount_pos {r : Run} (hm : r.before.Coherent)
    (h : r.RewritesHeader) : 0 < r.before.headerCount := by
  obtain ⟨k, -, f, f', b, hf, -, hb⟩ := h
  have hmem := mem_functionList hf
  obtain ⟨live, hlive⟩ := Option.isSome_iff_exists.mp hb.decided
  obtain ⟨sel, hsel, -⟩ := Option.bind_eq_some_iff.mp hlive
  have hpos : 0 < f.headerCount :=
    List.countP_pos_iff.mpr ⟨b, hb.reached.mem_layout (hm f hmem), by simp [hsel]⟩
  have hle := List.single_le_sum (fun n _ => Nat.zero_le n) _
    (List.mem_map_of_mem (f := Function.headerCount) hmem)
  exact Nat.lt_of_lt_of_le hpos hle

/-- A caller and a function in which control never gets to the last block. -/
def ofCaller (blocks : List Block) : Module :=
  let caller := .ofBlocks ⟨1⟩ ⟨2⟩ ⟨3⟩ blocks
  let callee := .ofBlocks ⟨7⟩ ⟨2⟩ ⟨3⟩ [⟨⟨13⟩, [.ret]⟩, ⟨⟨14⟩, [.ret]⟩]
  { ofFunction 17 boolGlobals caller with functions := ⟨#[caller, callee]⟩ }

/-- A phi picks the function to call. -/
def lateCall : Module := ofCaller [
  ⟨⟨10⟩, [.selectionMerge ⟨12⟩, .branchConditional ⟨5⟩ ⟨11⟩ ⟨12⟩]⟩,
  ⟨⟨11⟩, [.branch ⟨12⟩]⟩,
  ⟨⟨12⟩, [.phi ⟨3⟩ ⟨15⟩ [(⟨7⟩, ⟨11⟩), (⟨1⟩, ⟨10⟩)],
    ⟨.functionCall, some ⟨2⟩, some ⟨16⟩, [.ref ⟨15⟩]⟩, .ret]⟩]

/-- What a run leaves of `lateCall`. -/
def lateCallDone : Module := ofCaller [
  ⟨⟨10⟩, [.branch ⟨11⟩]⟩,
  ⟨⟨11⟩, [.branch ⟨12⟩]⟩,
  ⟨⟨12⟩, [⟨.functionCall, some ⟨2⟩, some ⟨16⟩, [.ref ⟨7⟩]⟩, .ret]⟩]

/-- **A second run that changes something, though there is no header left.** -/
theorem late_call_changes_without_header :
    lateCall.Coherent ∧ lateCall.check = .ok [] ∧
      ∃ r₁ r₂, lateCall.runs .default 2 = .ok [r₁, r₂] ∧ r₂.status = .changed ∧
        ¬ r₂.RewritesHeader := by
  have hfirst : lateCall.eliminateDeadBranches .default = .ok (lateCallDone, .changed) := by
    rw [eliminateDeadBranches_of_no_extensions rfl .default (.ofNames [])]
    cbv
  have hsecond : (lateCallDone.eliminateDeadBranches .default).toOption.map Prod.snd =
      some .changed := by
    rw [eliminateDeadBranches_of_no_extensions rfl .default (.ofNames [])]
    cbv
  obtain ⟨⟨m₂, status⟩, h, rfl⟩ := toOption_map_eq_some.mp hsecond
  refine ⟨by decide, by cbv, ⟨lateCall, .changed, lateCallDone⟩, ⟨lateCallDone, .changed, m₂⟩,
    bind_eq_ok.mpr ⟨_, hfirst, bind_eq_ok.mpr ⟨_, bind_eq_ok.mpr ⟨_, h, rfl⟩, rfl⟩⟩, rfl, ?_⟩
  have hdone : lateCallDone.Coherent ∧ ¬ 0 < lateCallDone.headerCount := by decide
  exact fun hrewrites => hdone.2 (hrewrites.headerCount_pos hdone.1)

end ShaderIR.Module
