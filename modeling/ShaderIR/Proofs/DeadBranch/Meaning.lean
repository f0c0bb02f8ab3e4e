import ShaderIR.Proofs.DeadBranch.ModuleRun
import ShaderIR.Proofs.DeadBranch.Simulation

/-!
# Eliminating dead branches keeps the meaning

Whatever the ordinary instructions mean, whatever values the parameters and the unknown globals
have, and whatever is in memory: after any number of steps the function looks as it would have
looked before its dead branches were eliminated.

* `SameMeaning`: two functions look the same in every run, each with its own known constants;
* `meaning_kept`: eliminating dead branches keeps the meaning, of one function and of every function
  of a module.
-/

namespace ShaderIR.Function

universe u v

/-- The second function looks like the first one in every run.  Known constants have their values
on both sides, and every other id starts with a value that is given once for both. -/
def SameMeaning (f : Function) (T : ConstantTable) (f' : Function) (T' : ConstantTable) : Prop :=
  ∀ (α : Type u) (σ : Type v) (meaning : Interpretation α σ) (given : Environment α) (memory : σ)
    (n : Nat), f'.observe (f'.run meaning (T'.environment given) memory n) =
      f.observe (f.run meaning (T.environment given) memory n)

variable {m m' m₁ : Module} {f f' : Function} {w w' w₁ : Workspace} {x : Id} {T T' : ConstantTable}
  {ids ids' : IdSupply} {P Q : Id → Prop}

/-! ## 1. Known constants -/

/-- What a tracking table knows lies below its supply of ids. -/
theorem lt_of_bool? (ha : m.Accepted) (hT : T.Tracks ids m.globals m.bound) {v : Bool}
    (hx : T.bool? x = some v) : x.word.toNat < ids.bound.toNat := by
  have hbelow : ∀ x ∈ ConstantTable.results m.globals, x.word < m.bound := fun x hx =>
    ha.below x (List.mem_append_left _ (Module.Accepted.mem_definedIds_of_globals hx))
  obtain ⟨i, hi, hr, -⟩ := (hT.comesFrom ha.nodup_globals hbelow).bool x v hx
  rcases List.mem_append.mp hi with hi | hi
  · have hlt := UInt32.lt_iff_toNat_lt.mp (hbelow x (List.mem_filterMap.mpr ⟨i, hi, hr⟩))
    exact Nat.lt_of_lt_of_le hlt hT.bound_le
  · exact (hT.fresh x (List.mem_filterMap.mpr ⟨i, hi, hr⟩)).2

/-- A tracking table knows what the globals and the queue say. -/
theorem environment_tracks {α : Type u} (hT : T.Tracks ids m.globals m.bound)
    (given : Environment α) :
    (ConstantTable.snapshot (m.globals ++ T.newGlobals)).environment given = T.environment given := by
  funext x
  have hbool := congrArg (fun S => ConstantTable.bool? S x) hT.table
  have hint := congrArg (fun S => ConstantTable.int? S x) hT.table
  exact ConstantTable.environment_congr hbool.symm hint.symm

/-- The known constants of a table before a function is processed, and of one after, fit. -/
theorem fits_environment {α : Type u} (ha : m.Accepted) (hf : f ∈ m.functionList)
    {folded : Folding} {repaired : PhiRepair} {mended : BlockKey → List Instruction}
    (hT : T.Tracks ids m.globals m.bound) (hbefore : T.Grows P ids w.constants w.ids)
    (h : Phases f w f' w' folded repaired mended) (hafter : w'.constants.Grows Q w'.ids T' ids')
    (given : Environment α) : Fits f w w' (T.environment given) (T'.environment given) := by
  have hlt : ∀ x ∈ f.bodyUses, x.word.toNat < ids.bound.toNat := by
    intro x hx
    have hdef := ha.below x (ha.defined x (Module.mem_usedIds_of_body hf hx))
    exact Nat.lt_of_lt_of_le (UInt32.lt_iff_toNat_lt.mp hdef) hT.bound_le
  have hlt' := fun x hx => Nat.lt_of_lt_of_le (hlt x hx) hbefore.known_of_lt.1
  have hlt'' := fun x hx => Nat.lt_of_lt_of_le (hlt' x hx) h.grows.known_of_lt.1
  have hw' := h.grows.tracks (hbefore.tracks hT)
  refine ⟨fun x hx v hv => ?_, fun x hx n hn => ?_, fun x v hv => ?_, fun x hx => ?_⟩
  · rw [(hbefore.known_of_lt.2 x (hlt x hx)).1] at hv
    exact ConstantTable.environment_of_bool? hv
  · rw [(hbefore.known_of_lt.2 x (hlt x hx)).2] at hn
    exact ConstantTable.environment_of_int? ((ha.apart hf hT).int x n hn).2 hn
  · rw [← (hafter.known_of_lt.2 x (lt_of_bool? ha hw' hv)).1] at hv
    exact ConstantTable.environment_of_bool? hv
  · obtain ⟨hb₁, hi₁⟩ := hbefore.known_of_lt.2 x (hlt x hx)
    obtain ⟨hb₂, hi₂⟩ := h.grows.known_of_lt.2 x (hlt' x hx)
    obtain ⟨hb₃, hi₃⟩ := hafter.known_of_lt.2 x (hlt'' x hx)
    exact ConstantTable.environment_congr (hb₃.trans (hb₂.trans hb₁)) (hi₃.trans (hi₂.trans hi₁))

/-! ## 2. One function -/

/-- One function keeps its meaning, with the constants of any table before and any table after. -/
theorem sameMeaning_of_run (ha : m.Accepted) (hr : m.Regular) (hf : f ∈ m.functionList)
    (hT : T.Tracks ids m.globals m.bound) (hbefore : T.Grows P ids w.constants w.ids)
    {changed : Bool} (h : f.eliminateDeadBranches w = .ok (f', w', changed))
    (hafter : w'.constants.Grows Q w'.ids T' ids') : SameMeaning.{u, v} f T f' T' := by
  intro α σ meaning given memory n
  obtain ⟨folded, repaired, mended, hphases⟩ :=
    eliminateDeadBranches_phases (wellFormed_of_accepted ha hf) h
  exact observe_run (ready_of_accepted ha hf (hr.function f hf).phi (hbefore.tracks hT)) hphases
    (fits_environment ha hf hT hbefore hphases hafter given) meaning memory n

/-! ## 3. Every function of a module -/

/-- A function that is not processed keeps its meaning while the known constants become more. -/
theorem sameMeaning_self (ha : m.Accepted) (hf : f ∈ m.functionList)
    (hT : T.Tracks ids m.globals m.bound) (hgrows : T.Grows P ids T' ids') :
    SameMeaning.{u, v} f T f T' := by
  intro α σ meaning given memory n
  refine observe_run_congr (ha.coherent f hf) meaning memory (fun x hx => ?_) n
  have hdef := ha.below x (ha.defined x (Module.mem_usedIds_of_body hf hx))
  have hlt := Nat.lt_of_lt_of_le (UInt32.lt_iff_toNat_lt.mp hdef) hT.bound_le
  exact ConstantTable.environment_congr (hgrows.known_of_lt.2 x hlt).1 (hgrows.known_of_lt.2 x hlt).2

/-- The meaning of a function with the constants of a finished module. -/
theorem sameMeaning_finished (hs : Module.Processed m m.callOrder m₁ w₁)
    (h : SameMeaning.{u, v} f (.ofModule m) f' w₁.constants) :
    SameMeaning.{u, v} f (.ofModule m) f' (.ofModule (m₁.finished w₁)) := by
  have htracks := hs.grows.tracks (ConstantTable.tracks_snapshot m.globals m.bound)
  intro α σ meaning given memory n
  rw [ConstantTable.ofModule_eq_snapshot (m₁.finished w₁), hs.globals_finished,
    environment_tracks htracks]
  exact h α σ meaning given memory n

theorem sameMeaning_module (ha : m.Accepted) (hr : m.Regular) {wl : Whitelist} {status : Status}
    (h : m.eliminateDeadBranches wl = .ok (m', status)) {k : FunctionKey}
    (hf : m.function? k = some f) :
    ∃ f', m'.function? k = some f' ∧ SameMeaning.{u, v} f (.ofModule m) f' (.ofModule m') := by
  have hmem := Module.mem_functionList hf
  have hT : (ConstantTable.ofModule m).Tracks m.supply m.globals m.bound :=
    ConstantTable.tracks_snapshot m.globals m.bound
  rcases Module.eliminateDeadBranches_cases h with ⟨r, -, rfl, -⟩ | ⟨-, changed, hrun, -⟩
  · exact ⟨f, hf, fun _ _ _ _ _ _ => rfl⟩
  · obtain ⟨m₁, w₁, hs, rfl⟩ := Module.processFunctions_spec ha hrun
    by_cases hk : k ∈ m.callOrder
    · obtain ⟨w, f', w', hf', hbefore, ⟨_, hfrun⟩, hafter, -⟩ := hs.done k hk f hf
      exact ⟨f', hf', sameMeaning_finished hs
        (sameMeaning_of_run ha hr hmem hT hbefore hfrun hafter)⟩
    · exact ⟨f, (hs.function?_todo hk).trans hf, sameMeaning_finished hs
        (sameMeaning_self ha hmem hT hs.grows)⟩

/-- **Eliminating dead branches keeps the meaning.**  It does so for one function, with any known
constants that go with the module, and for every function of a module that is processed as a
whole. -/
theorem meaning_kept (hm : m.Coherent) (hok : m.check = .ok []) (hr : m.Regular) :
    (∀ f ∈ m.functionList, ∀ (w w' : Workspace) (f' : Function) (changed : Bool),
      w.constants.Tracks w.ids m.globals m.bound →
      f.eliminateDeadBranches w = .ok (f', w', changed) →
      SameMeaning.{u, v} f w.constants f' w'.constants) ∧
    ∀ (wl : Whitelist) (m' : Module) (status : Status),
      m.eliminateDeadBranches wl = .ok (m', status) →
      ∀ k f, m.function? k = some f → ∃ f', m'.function? k = some f' ∧
        SameMeaning.{u, v} f (.ofModule m) f' (.ofModule m') := by
  have ha := (Module.check_eq_ok_nil_iff hm).mp hok
  refine ⟨fun f hf w w' f' changed hT h => ?_, fun wl m' status h k f hf => ?_⟩
  · exact sameMeaning_of_run ha hr hf hT (.refl (P := fun _ => False)) h
      (.refl (P := fun _ => False))
  · exact sameMeaning_module ha hr h hf

/-- A loop with a selection on `true` in it.  The phi `%20` behind the selection gives way to the sum
`%18`, and the comparison that ends the loop looks at the sum. -/
def loopWithPhi : Function := .ofBlocks ⟨1⟩ ⟨2⟩ ⟨3⟩ [
  ⟨⟨10⟩, [.branch ⟨11⟩]⟩,
  ⟨⟨11⟩, [.loopMerge ⟨17⟩ ⟨16⟩, .branch ⟨12⟩]⟩,
  ⟨⟨12⟩, [.selectionMerge ⟨15⟩, .branchConditional ⟨5⟩ ⟨13⟩ ⟨15⟩]⟩,
  ⟨⟨13⟩, [⟨.iAdd, some ⟨6⟩, some ⟨18⟩, [.ref ⟨7⟩, .ref ⟨8⟩]⟩, .branch ⟨15⟩]⟩,
  ⟨⟨15⟩, [.phi ⟨6⟩ ⟨20⟩ [(⟨8⟩, ⟨12⟩), (⟨18⟩, ⟨13⟩)],
    ⟨.sLessThan, some ⟨4⟩, some ⟨21⟩, [.ref ⟨20⟩, .ref ⟨7⟩]⟩, .branch ⟨16⟩]⟩,
  ⟨⟨16⟩, [.branchConditional ⟨21⟩ ⟨11⟩ ⟨17⟩]⟩,
  ⟨⟨17⟩, [.ret]⟩]

/-- The module of `loopWithPhi`. -/
def loopWithPhiModule : Module := .ofFunction 22
  [⟨.typeVoid, none, some ⟨2⟩, []⟩, ⟨.typeFunction, none, some ⟨3⟩, [.ref ⟨2⟩]⟩,
    ⟨.typeBool, none, some ⟨4⟩, []⟩, ⟨.constantTrue, some ⟨4⟩, some ⟨5⟩, []⟩,
    ⟨.typeInt, none, some ⟨6⟩, [.literal 32, .literal 0]⟩,
    ⟨.constant, some ⟨6⟩, some ⟨7⟩, [.literal 7]⟩, ⟨.constant, some ⟨6⟩, some ⟨8⟩, [.literal 8]⟩]
  loopWithPhi

theorem meaning_kept_loopWithPhi :
    loopWithPhiModule.Coherent ∧ loopWithPhiModule.check = .ok [] ∧ loopWithPhiModule.Regular ∧
      (∃ f' w', loopWithPhi.eliminateDeadBranches (.ofModule loopWithPhiModule) =
          .ok (f', w', true) ∧
        SameMeaning.{0, 0} loopWithPhi (.ofModule loopWithPhiModule) f' w'.constants) ∧
      ∃ m' f', loopWithPhiModule.eliminateDeadBranches .default = .ok (m', .changed) ∧
        m'.function? ⟨0⟩ = some f' ∧
        f'.instructions ⟨4⟩ =
          [⟨.sLessThan, some ⟨4⟩, some ⟨21⟩, [.ref ⟨18⟩, .ref ⟨7⟩]⟩, .branch ⟨16⟩] ∧
        SameMeaning.{0, 0} loopWithPhi (.ofModule loopWithPhiModule) f' (.ofModule m') := by
  have hm : loopWithPhiModule.Coherent := by decide
  have hcheck : loopWithPhiModule.check = .ok [] := by cbv
  have hregular : loopWithPhiModule.Regular := by decide
  have hkept := meaning_kept.{0, 0} hm hcheck hregular
  have hrun : (loopWithPhi.eliminateDeadBranches (.ofModule loopWithPhiModule)).toOption.map
      (fun r => r.2.2) = some true := by cbv
  have hwhole : (loopWithPhiModule.eliminateDeadBranches .default).toOption.map
      (fun r => ((r.1.function? ⟨0⟩).map (fun f => f.instructions ⟨4⟩), r.2)) =
        some (some [⟨.sLessThan, some ⟨4⟩, some ⟨21⟩, [.ref ⟨18⟩, .ref ⟨7⟩]⟩, .branch ⟨16⟩],
          .changed) := by
    rw [Module.eliminateDeadBranches_of_no_extensions rfl .default (.ofNames [])]
    cbv
  refine ⟨hm, hcheck, hregular, ?_, ?_⟩
  · obtain ⟨⟨f', w', changed⟩, h, rfl⟩ := toOption_map_eq_some.mp hrun
    exact ⟨f', w', h, hkept.1 loopWithPhi (List.mem_singleton.mpr rfl) _ w' f' _
      (ConstantTable.tracks_snapshot _ _) h⟩
  · obtain ⟨⟨m', status⟩, h, hout⟩ := toOption_map_eq_some.mp hwhole
    obtain ⟨hbody, rfl⟩ := Prod.mk.inj hout
    obtain ⟨f', hf', hsame⟩ := hkept.2 _ m' _ h ⟨0⟩ loopWithPhi rfl
    rw [hf'] at hbody
    exact ⟨m', f', h, hf', Option.some.inj hbody, hsame⟩

end ShaderIR.Function
