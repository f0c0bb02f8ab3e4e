import ShaderIR.Pass
import ShaderIR.Proofs.DeadBranch.SecondRun

/-!
# Lists of passes that fail

A pass that fails leaves the module as it is.  A list of passes does not: it stops at the first pass
that fails, and what the passes before have done stays done.  A check after a transformation is
enough to see it.

* `Pass.ofName_eq_error_iff`: which names are refused, before anything is run;
* `Pass.KeepsRefused`: the passes that have names leave a module alone that they refuse;
* `Pass.runAll_failure`: a list that fails, split at the pass that does;
* `failing_run`: what is left of the module.
-/

namespace ShaderIR

/-! ## 1. Names -/

namespace Pass

variable {σ : Type} {m m' : Module} {place place' : σ} {status : Status} {p : Pass σ}
  {ps : List (Pass σ)} {outputs : Outputs σ} {w : Whitelist} {name : String}

/-- The names that passes have. -/
def offered : List String :=
  ["eliminate-dead-branches", "verify", "module-stdout", "module-stderr", "order-stdout",
    "order-stderr"]

theorem ofName_of_not_mem (h : name ∉ offered) :
    ofName outputs w name = .error (.unknownPass name) := by
  unfold ofName
  split
  case h_7 => rfl
  all_goals exact absurd (by simp [offered]) h

theorem exists_ofName (h : name ∈ offered) : ∃ p, ofName outputs w name = .ok p := by
  simp only [offered, List.mem_cons, List.not_mem_nil, or_false] at h
  rcases h with rfl | rfl | rfl | rfl | rfl | rfl <;> exact ⟨_, rfl⟩

theorem exists_ofName_iff : (∃ p, ofName outputs w name = .ok p) ↔ name ∈ offered := by
  refine ⟨?_, exists_ofName⟩
  rintro ⟨p, hp⟩
  by_contra hnot
  cases hp.symm.trans (ofName_of_not_mem hnot)

theorem ofName_eq_error_iff {r : Refusal} :
    ofName outputs w name = .error r ↔ name ∉ offered ∧ r = .unknownPass name := by
  constructor
  · intro h
    have hnot : name ∉ offered := by
      intro hmem
      obtain ⟨p, hp⟩ : ∃ p, ofName outputs w name = .ok p := exists_ofName hmem
      cases h.symm.trans hp
    exact ⟨hnot, (Except.error.inj (h.symm.trans (ofName_of_not_mem hnot)))⟩
  · rintro ⟨hnot, rfl⟩
    exact ofName_of_not_mem hnot

/-! ## 2. Passes that fail -/

/-- A pass that fails leaves the module as it is. -/
def KeepsRefused (p : Pass σ) : Prop :=
  ∀ m place m' place', p.run m place = .ok (m', .failure, place') → m' = m

/-- A pass that reports no change of this module leaves it as it is. -/
def KeepsUnchanged (p : Pass σ) (m : Module) : Prop :=
  ∀ place m' place', p.run m place = .ok (m', .unchanged, place') → m' = m

theorem deadBranches_keepsRefused (w : Whitelist) : (deadBranches w : Pass σ).KeepsRefused := by
  intro m place m' place' h
  obtain ⟨⟨m₁, status⟩, hrun, h⟩ := bind_eq_ok.mp h
  cases h
  rcases Module.eliminateDeadBranches_cases hrun with ⟨r, -, rfl, -⟩ | ⟨-, changed, -, hstatus⟩
  · rfl
  · cases changed <;> cases hstatus

theorem deadBranches_keepsUnchanged (hbound : 1 ≤ m.bound) (heven : m.EvenPhis) (w : Whitelist) :
    (deadBranches w : Pass σ).KeepsUnchanged m := by
  intro place m' place' h
  obtain ⟨⟨m₁, status⟩, hrun, h⟩ := bind_eq_ok.mp h
  cases h
  rcases Module.eliminateDeadBranches_cases hrun with ⟨r, -, rfl, -⟩ | ⟨-, changed, hrun, hstatus⟩
  · rfl
  · cases changed with
    | false => exact Module.processFunctions_quiet hbound heven hrun
    | true => cases hstatus

/-- A pass that never changes a module. -/
def Reads (p : Pass σ) : Prop :=
  ∀ m place m' status place', p.run m place = .ok (m', status, place') → m' = m

theorem reads_check : (check : Pass σ).Reads := by
  intro m place m' status place' h
  obtain ⟨violations, -, h⟩ := bind_eq_ok.mp h
  cases h
  rfl

theorem reads_printModule (name : String) (writer : Writer σ) :
    (printModule name writer).Reads := by
  intro m place m' status place' h
  obtain ⟨text, -, h⟩ := bind_eq_ok.mp h
  cases h
  rfl

theorem reads_printOrder (name : String) (writer : Writer σ) : (printOrder name writer).Reads := by
  intro m place m' status place' h
  obtain ⟨⟨complete, place₁⟩, -, h⟩ := bind_eq_ok.mp h
  cases h
  rfl

/-- A pass with a name eliminates dead branches or changes nothing at all. -/
theorem ofName_cases (h : ofName outputs w name = .ok p) :
    p = deadBranches w ∨ p.Reads := by
  unfold ofName at h
  split at h
  · exact .inl (Except.ok.inj h).symm
  all_goals first
    | (obtain rfl := Except.ok.inj h; right; first
        | exact reads_check | exact reads_printModule _ _ | exact reads_printOrder _ _)
    | cases h

/-- The same for the passes that names stand for, the checks in between included. -/
theorem ofNames_cases {checked : Bool} {names : List String} 
    (h : ofNames outputs w checked names = .ok ps) (hp : p ∈ ps) :
    p = deadBranches w ∨ p.Reads := by
  obtain ⟨passes, hpasses, h⟩ := bind_eq_ok.mp h
  obtain rfl := Except.ok.inj h
  have hchecks : p ∈ (if checked then [check] else [] : List (Pass σ)) → p.Reads := by
    cases checked with
    | false => simp
    | true =>
      intro hp
      rw [List.mem_singleton.mp hp]
      exact reads_check
  rcases List.mem_append.mp hp with hp | hp
  · exact .inr (hchecks hp)
  · obtain ⟨q, hq, hp⟩ := List.mem_flatMap.mp hp
    rcases List.mem_cons.mp hp with rfl | hp
    · obtain ⟨name, -, hname⟩ := exists_of_mem_mapM hpasses hq
      exact ofName_cases hname
    · exact .inr (hchecks hp)

/-! ## 3. Lists of passes -/

/-- The first pass, and what comes of it. -/
theorem runAll_cons_eq_ok_iff {r : Module × Status × σ} :
    runAll m status place (p :: ps) = .ok r ↔ ∃ m₁ result place₁,
      p.run m place = .ok (m₁, result, place₁) ∧
        ((result = .failure ∧ r = (m₁, .failure, place₁)) ∨
          (result ≠ .failure ∧ runAll m₁ (status.combine result) place₁ ps = .ok r)) := by
  rw [runAll, bind_eq_ok]
  constructor
  · rintro ⟨⟨m₁, result, place₁⟩, hrun, h⟩
    refine ⟨m₁, result, place₁, hrun, ?_⟩
    by_cases hfail : result = .failure
    · subst hfail
      refine .inl ⟨rfl, ?_⟩
      have hcombine : status.combine .failure = .failure := by cases status <;> rfl
      rw [← hcombine]
      exact (Except.ok.inj h).symm
    · refine .inr ⟨hfail, ?_⟩
      cases result <;> first | exact h | exact absurd rfl hfail
  · rintro ⟨m₁, result, place₁, hrun, hcases⟩
    refine ⟨_, hrun, ?_⟩
    rcases hcases with ⟨rfl, rfl⟩ | ⟨hfail, h⟩
    · cases status <;> rfl
    · cases result <;> first | exact h | exact absurd rfl hfail

/-- A change, once reported, stays reported. -/
theorem runAll_eq_unchanged (h : runAll m status place ps = .ok (m', .unchanged, place')) :
    status = .unchanged := by
  induction ps generalizing status place m with
  | nil =>
    cases h
    rfl
  | cons p ps ih =>
    obtain ⟨m₁, result, place₁, -, ⟨-, hend⟩ | ⟨-, hrest⟩⟩ := runAll_cons_eq_ok_iff.mp h
    · cases hend
    · have hcombined := ih hrest
      cases status <;> cases result <;> cases hcombined
      rfl

/-- A list of passes that reports no change has had none that reports one. -/
theorem runAll_keepsUnchanged (hquiet : ∀ p ∈ ps, p.KeepsUnchanged m)
    (h : runAll m status place ps = .ok (m', .unchanged, place')) : m' = m := by
  induction ps generalizing status place with
  | nil =>
    cases h
    rfl
  | cons p ps ih =>
    obtain ⟨m₁, result, place₁, hrun, ⟨-, hend⟩ | ⟨-, hrest⟩⟩ := runAll_cons_eq_ok_iff.mp h
    · cases hend
    · have hresult : result = .unchanged := by
        have hcombined := runAll_eq_unchanged hrest
        cases status <;> cases result <;> cases hcombined
        rfl
      subst hresult
      obtain rfl := hquiet p (by simp) place m₁ place₁ hrun
      exact ih (fun q hq => hquiet q (by simp [hq])) hrest

/-- **A list of passes that fails, split at the pass that does.**  The passes before it have been
run, those behind it have not. -/
theorem runAll_failure (hkeeps : ∀ p ∈ ps, p.KeepsRefused) (hstatus : status ≠ .failure)
    (h : runAll m status place ps = .ok (m', .failure, place')) :
    ∃ before p after status₁ place₁, ps = before ++ p :: after ∧
      runAll m status place before = .ok (m', status₁, place₁) ∧ status₁ ≠ .failure ∧
      p.run m' place₁ = .ok (m', .failure, place') := by
  induction ps generalizing m status place with
  | nil =>
    cases h
    exact absurd rfl hstatus
  | cons p ps ih =>
    obtain ⟨m₁, result, place₁, hrun, ⟨rfl, hend⟩ | ⟨hresult, hrest⟩⟩ := runAll_cons_eq_ok_iff.mp h
    · cases hend
      obtain rfl := hkeeps p (by simp) m place m' place' hrun
      exact ⟨[], p, ps, status, place, rfl, rfl, hstatus, hrun⟩
    · have hcombined : status.combine result ≠ .failure := by
        cases status <;> cases result <;> simp_all [Status.combine]
      obtain ⟨before, q, after, status₁, place₂, rfl, hbefore, hlast⟩ :=
        ih (fun q hq => hkeeps q (by simp [hq])) hcombined hrest
      exact ⟨p :: before, q, after, status₁, place₂, rfl,
        runAll_cons_eq_ok_iff.mpr ⟨m₁, result, place₁, hrun, .inr ⟨hresult, hbefore⟩⟩, hlast⟩

theorem ofNames_eq_error_iff {checked : Bool} {names : List String} {r : Refusal} :
    ofNames outputs w checked names = .error r ↔
      ∃ before name after, names = before ++ name :: after ∧ (∀ n ∈ before, n ∈ offered) ∧
        name ∉ offered ∧ r = .unknownPass name := by
  rw [ofNames, bind_ok_eq_error, mapM_eq_error_iff]
  simp only [exists_ofName_iff, ofName_eq_error_iff]

end Pass

/-! ## 4. What is left of the module -/

open Pass in
/-- **A run that fails.**  An unknown name is refused before anything is run.  Any other failure is
the failure of one of the passes, which itself has changed nothing: the module is then as the passes
before it have left it.  That is how it was given only if they have reported no change. -/
theorem failing_run {σ : Type} (outputs : Outputs σ) (place : σ) (m : Module) (checked : Bool)
    (names : List String) (w : Whitelist) :
    (∀ r, runNamedWith outputs place m checked names w = .error r ↔
      ∃ before name after, names = before ++ name :: after ∧ (∀ n ∈ before, n ∈ offered) ∧
        name ∉ offered ∧ r = .unknownPass name) ∧
    ∀ m' place', runNamedWith outputs place m checked names w = .ok (.ok (m', .failure, place')) →
      ∃ before p after status place₁, ofNames outputs w checked names = .ok (before ++ p :: after) ∧
        (sequence before).run m place = .ok (m', status, place₁) ∧ status ≠ .failure ∧
        p.run m' place₁ = .ok (m', .failure, place') ∧
        (1 ≤ m.bound → m.EvenPhis → status = .unchanged → m' = m) := by
  refine ⟨fun r => ?_, fun m' place' h => ?_⟩
  · rw [runNamedWith, bind_ok_eq_error, ofNames_eq_error_iff]
  · obtain ⟨passes, hpasses, h⟩ := bind_eq_ok.mp h
    have hrun := Except.ok.inj h
    have hcases := fun p hp => ofNames_cases hpasses (p := p) hp
    have hkeeps : ∀ p ∈ passes, p.KeepsRefused := fun p hp => by
      rcases hcases p hp with rfl | hreads
      · exact deadBranches_keepsRefused w
      · exact fun m place m' place' h => hreads m place m' .failure place' h
    obtain ⟨before, p, after, status, place₁, rfl, hbefore, hstatus, hlast⟩ :=
      runAll_failure hkeeps (by decide) hrun
    refine ⟨before, p, after, status, place₁, hpasses, hbefore, hstatus, hlast, ?_⟩
    intro hbound heven hunchanged
    subst hunchanged
    refine runAll_keepsUnchanged (fun q hq => ?_) hbefore
    rcases hcases q (by simp [hq]) with rfl | hreads
    · exact deadBranches_keepsUnchanged hbound heven w
    · exact fun place m' place' h => hreads m place m' .unchanged place' h

-- an output that takes nothing makes a printing pass fail, and the rest is not run
example : runNamedWith ⟨fun _ u => (false, u), fun _ u => (true, u)⟩ () .empty false
    ["module-stderr", "module-stdout", "verify"] .default = .ok (.ok (.empty, .failure, ())) := by
  rfl

/-- There is nothing left to eliminate in `lateEdgeDone`; then the check fails, and nothing has been
done. -/
theorem failing_run_lateEdgeDone :
    runNamed .lateEdgeDone false ["eliminate-dead-branches", "verify"] .default =
        .ok (.ok (.lateEdgeDone, .failure, Console.empty)) ∧
      ∃ before p after status place,
        Pass.ofNames Console.outputs .default false ["eliminate-dead-branches", "verify"] =
          .ok (before ++ p :: after) ∧
        (Pass.sequence before).run .lateEdgeDone Console.empty =
          .ok (.lateEdgeDone, status, place) ∧
        status ≠ .failure ∧
        p.run .lateEdgeDone place = .ok (.lateEdgeDone, .failure, Console.empty) ∧
        (1 ≤ Module.lateEdgeDone.bound → Module.lateEdgeDone.EvenPhis → status = .unchanged →
          Module.lateEdgeDone = .lateEdgeDone) := by
  have hquiet : Module.eliminateDeadBranches .lateEdgeDone .default =
      .ok (.lateEdgeDone, .unchanged) := by
    rw [Module.eliminateDeadBranches_of_no_extensions rfl .default (.ofNames [])]
    cbv
  have hpasses : runNamed .lateEdgeDone false ["eliminate-dead-branches", "verify"] .default =
      .ok (.ok (.lateEdgeDone, .failure, Console.empty)) := by
    refine congrArg Except.ok (Pass.runAll_cons_eq_ok_iff.mpr
      ⟨_, .unchanged, Console.empty, bind_eq_ok.mpr ⟨_, hquiet, rfl⟩, .inr ⟨by decide, ?_⟩⟩)
    cbv
  exact ⟨hpasses, (failing_run Console.outputs Console.empty _ _ _ _).2 _ _ hpasses⟩

/-- **A run that fails with another module.**  `lateEdge` passes the check, and what the elimination
leaves of it does not. -/
theorem failing_run_after_change :
    Module.lateEdge.Coherent ∧ Module.lateEdge.check = .ok [] ∧
      runNamed .lateEdge true ["eliminate-dead-branches"] .default =
        .ok (.ok (.lateEdgeDone, .failure, Console.empty)) ∧
      Module.lateEdgeDone ≠ .lateEdge := by
  have hcheck : Module.lateEdge.check = .ok [] := by cbv
  have hrun : Module.eliminateDeadBranches .lateEdge .default = .ok (.lateEdgeDone, .changed) := by
    rw [Module.eliminateDeadBranches_of_no_extensions rfl .default (.ofNames [])]
    cbv
  refine ⟨by decide, hcheck, congrArg Except.ok ?_, fun heq => ?_⟩
  · refine Pass.runAll_cons_eq_ok_iff.mpr
      ⟨_, .unchanged, Console.empty, bind_eq_ok.mpr ⟨_, hcheck, rfl⟩, .inr ⟨by decide, ?_⟩⟩
    refine Pass.runAll_cons_eq_ok_iff.mpr
      ⟨_, .changed, Console.empty, bind_eq_ok.mpr ⟨_, hrun, rfl⟩, .inr ⟨by decide, ?_⟩⟩
    cbv
  · have hbound := congrArg Module.bound heq
    exact absurd hbound (by decide)

end ShaderIR
