import ShaderIR.Id
import ShaderIR.Proofs.Lists

/-!
# Computations that may stop with a fault

Almost every transformation is a chain of steps in `Except Fault`, many of them a fold over a list;
builders are chains of steps with a state.  What a step keeps, a whole run keeps:

* `bind_eq_ok`, `bind_run_eq_ok`: a chain that ends well is a first step and a rest that both do;
* `map_eq_ok`, `mapError_eq_ok`: what is done to the outcome alone;
* `bind_ok_eq_error`: a rest that cannot be refused refuses nothing;
* `toOption_map_eq_some`: the outcome of a computation, read off a fact about it;
* `foldlM_induct`, `foldlM_induct_done`: an invariant of the steps is one of the run;
* `exists_foldlM_iff`: a run goes through if no step is refused;
* `foldlM_fixed`, `foldlM_quiet`: steps that change nothing make a run that changes nothing;
* `mapM_eq_error_iff`, `exists_of_mem_mapM`, `mapM_eq_some_of_forall₂`: a computation for each
  element of a list.
-/

namespace ShaderIR

variable {α β σ : Type} {ε : Type}

theorem bind_eq_ok {x : Except ε α} {next : α → Except ε β} {r : β} :
    (x >>= next) = .ok r ↔ ∃ a, x = .ok a ∧ next a = .ok r := by
  cases x with
  | error e => simp [bind, Except.bind]
  | ok a => simp [bind, Except.bind]

theorem bind_run_eq_ok {op : EStateM ε σ α} {next : α → EStateM ε σ β} {s s' : σ} {b : β} :
    (op >>= next) s = .ok b s' ↔ ∃ a s₁, op s = .ok a s₁ ∧ next a s₁ = .ok b s' := by
  simp only [bind, EStateM.bind]
  cases op s <;> simp

theorem map_eq_ok {x : Except ε α} {g : α → β} {b : β} :
    x.map g = .ok b ↔ ∃ a, x = .ok a ∧ g a = b := by
  cases x <;> simp [Except.map]

theorem mapError_eq_ok {ε' : Type} {x : Except ε α} {g : ε → ε'} {a : α} :
    x.mapError g = .ok a ↔ x = .ok a := by
  cases x <;> simp [Except.mapError]

/-- Going on with a step that cannot be refused refuses nothing. -/
theorem bind_ok_eq_error {x : Except ε α} {next : α → β} {r : ε} :
    (x >>= fun a => .ok (next a)) = .error r ↔ x = .error r := by
  cases x <;> simp [bind, Except.bind]

/-- Something about the outcome of a computation tells that there is one. -/
theorem toOption_map_eq_some {x : Except ε α} {g : α → β} {y : β} :
    x.toOption.map g = some y ↔ ∃ a, x = .ok a ∧ g a = y := by
  cases x <;> simp [Except.toOption]

/-- **What every step keeps, the run keeps.**  The steps are those of the elements of the list. -/
theorem foldlM_induct {step : σ → α → Except ε σ} {P : σ → Prop} {as : List α} {s s' : σ}
    (hrun : as.foldlM step s = .ok s') (hs : P s)
    (hstep : ∀ s a s', a ∈ as → P s → step s a = .ok s' → P s') : P s' := by
  induction as generalizing s with
  | nil =>
    cases hrun
    exact hs
  | cons a as ih =>
    rw [List.foldlM_cons] at hrun
    obtain ⟨t, ht, hrun⟩ := bind_eq_ok.mp hrun
    exact ih hrun (hstep s a t (by simp) hs ht) (fun s a s' ha => hstep s a s' (by simp [ha]))

/-- The same for an invariant that speaks about the elements already done. -/
theorem foldlM_induct_done {step : σ → α → Except ε σ} {P : List α → σ → Prop} {as : List α}
    {s s' : σ} (hrun : as.foldlM step s = .ok s') (hs : P [] s)
    (hstep : ∀ before a after s s', as = before ++ a :: after → P before s → step s a = .ok s' →
      P (before ++ [a]) s') : P as s' := by
  suffices hgen : ∀ before after s, as = before ++ after → P before s →
      after.foldlM step s = .ok s' → P as s' from hgen [] as s rfl hs hrun
  intro before after
  induction after generalizing before with
  | nil =>
    intro s has hP hrun
    cases hrun
    rwa [has, List.append_nil]
  | cons a after ih =>
    intro s has hP hrun
    rw [List.foldlM_cons] at hrun
    obtain ⟨t, ht, hrun⟩ := bind_eq_ok.mp hrun
    exact ih (before ++ [a]) t (by simp [has]) (hstep before a after s t has hP ht) hrun

/-- Where only the element decides whether a step is refused, a run goes through if no element is
refused. -/
theorem exists_foldlM_iff {step : σ → α → Except ε σ} {Q : α → Prop} {as : List α} {s : σ}
    (hstep : ∀ s, ∀ a ∈ as, (∃ s', step s a = .ok s') ↔ Q a) :
    (∃ s', as.foldlM step s = .ok s') ↔ ∀ a ∈ as, Q a := by
  induction as generalizing s with
  | nil => simp [pure, Except.pure]
  | cons a as ih =>
    have hrest := fun t => ih (s := t) (fun s b hb => hstep s b (by simp [hb]))
    simp only [List.foldlM_cons, bind_eq_ok, List.forall_mem_cons]
    constructor
    · rintro ⟨s', t, ht, hrun⟩
      exact ⟨(hstep s a (by simp)).mp ⟨t, ht⟩, (hrest t).mp ⟨s', hrun⟩⟩
    · rintro ⟨ha, has⟩
      obtain ⟨t, ht⟩ := (hstep s a (by simp)).mpr ha
      obtain ⟨s', hrun⟩ := (hrest t).mpr has
      exact ⟨s', t, ht, hrun⟩

/-- A run whose steps all leave the state as it is does so too. -/
theorem foldlM_fixed {step : σ → α → Except ε σ} {as : List α} {s : σ}
    (hstep : ∀ a ∈ as, step s a = .ok s) : as.foldlM step s = .ok s := by
  induction as with
  | nil => rfl
  | cons a as ih =>
    rw [List.foldlM_cons]
    exact bind_eq_ok.mpr ⟨s, hstep a (by simp), ih (fun a ha => hstep a (by simp [ha]))⟩

/-- **A run that ends quietly has changed nothing at any step**, if no step makes a state quiet again
and a step from the start that stays quiet changes nothing. -/
theorem foldlM_quiet {step : σ → α → Except ε σ} {Q : σ → Prop} {as : List α} {s s' : σ}
    (hrun : as.foldlM step s = .ok s') (hquiet : Q s')
    (hmono : ∀ s a s', step s a = .ok s' → Q s' → Q s)
    (hsame : ∀ a ∈ as, ∀ s', step s a = .ok s' → Q s' → s' = s) :
    s' = s ∧ ∀ a ∈ as, step s a = .ok s := by
  induction as with
  | nil =>
    cases hrun
    exact ⟨rfl, fun a ha => by cases ha⟩
  | cons a as ih =>
    rw [List.foldlM_cons] at hrun
    obtain ⟨t, ht, hrest⟩ := bind_eq_ok.mp hrun
    have htquiet : Q t := by
      by_contra hnot
      exact foldlM_induct (P := fun s => ¬ Q s) hrest hnot
        (fun s a s' _ hs hstep hs' => hs (hmono s a s' hstep hs')) hquiet
    obtain rfl := hsame a (by simp) t ht htquiet
    obtain ⟨hend, hsteps⟩ := ih hrest (fun a ha => hsame a (by simp [ha]))
    exact ⟨hend, List.forall_mem_cons.mpr ⟨ht, hsteps⟩⟩

/-- A computation for each element of a list stops at the first that is refused. -/
theorem mapM_eq_error_iff {step : α → Except ε β} {as : List α} {r : ε} :
    as.mapM step = .error r ↔ ∃ before a after, as = before ++ a :: after ∧
      (∀ x ∈ before, ∃ y, step x = .ok y) ∧ step a = .error r := by
  induction as with
  | nil => simp [pure, Except.pure]
  | cons a as ih =>
    rw [List.mapM_cons]
    cases ha : step a with
    | error e =>
      simp only [bind, Except.bind, Except.error.injEq]
      constructor
      · rintro rfl
        exact ⟨[], a, as, rfl, by simp, ha⟩
      · rintro ⟨before, x, after, hsplit, hbefore, hx⟩
        cases before with
        | nil =>
          obtain ⟨rfl, -⟩ := List.cons.inj hsplit
          exact Except.error.inj (ha.symm.trans hx)
        | cons y before =>
          obtain ⟨rfl, -⟩ := List.cons.inj hsplit
          obtain ⟨z, hz⟩ := hbefore a (by simp)
          cases ha.symm.trans hz
    | ok y =>
      have hrest : (do let bs ← as.mapM step; pure (y :: bs)) = .error r ↔
          as.mapM step = .error r := by
        cases as.mapM step <;> simp [bind, Except.bind, pure, Except.pure]
      refine hrest.trans (ih.trans ⟨?_, ?_⟩)
      · rintro ⟨before, x, after, rfl, hbefore, hx⟩
        refine ⟨a :: before, x, after, rfl, fun z hz => ?_, hx⟩
        rcases List.mem_cons.mp hz with rfl | hz
        · exact ⟨y, ha⟩
        · exact hbefore z hz
      · rintro ⟨before, x, after, hsplit, hbefore, hx⟩
        cases before with
        | nil =>
          obtain ⟨rfl, -⟩ := List.cons.inj hsplit
          cases ha.symm.trans hx
        | cons z before =>
          obtain ⟨-, hsplit⟩ := List.cons.inj hsplit
          exact ⟨before, x, after, hsplit, fun z hz => hbefore z (by simp [hz]), hx⟩

theorem exists_of_mem_mapM {step : α → Except ε β} {as : List α} {bs : List β}
    (h : as.mapM step = .ok bs) {b : β} (hb : b ∈ bs) : ∃ a ∈ as, step a = .ok b := by
  induction as generalizing bs with
  | nil =>
    cases h
    cases hb
  | cons a as ih =>
    rw [List.mapM_cons] at h
    obtain ⟨b', hb', h⟩ := bind_eq_ok.mp h
    obtain ⟨bs', hbs', h⟩ := bind_eq_ok.mp h
    cases h
    rcases List.mem_cons.mp hb with rfl | hb
    · exact ⟨a, by simp, hb'⟩
    · obtain ⟨x, hx, hxb⟩ := ih hbs' hb
      exact ⟨x, by simp [hx], hxb⟩

/-- Reading items one by one gives the list of what each is read as. -/
theorem mapM_eq_some_of_forall₂ {read? : α → Option β} {items : List α} {values : List β}
    (h : List.Forall₂ (fun d a => read? d = some a) items values) :
    items.mapM read? = some values := by
  induction h with
  | nil => rfl
  | cons hread _ ih => simp [List.mapM_cons, hread, ih]

end ShaderIR
