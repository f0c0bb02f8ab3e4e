import ShaderIR.Proofs.Builder.Calls

/-!
# Builders hand out fresh ids only

Calls are made on a module, or on a function that is drafted for it and in the end becomes part of
it or is given up.  Whatever the calls and in whichever order the blocks of a function are written,
the ids that are defined are distinct and below the bound.  An id that is merely mentioned was
passed by the caller, or it is below the bound as well.

* `Workpiece.make`, `Construction.run`: one call and a sequence of calls;
* `Workpiece.Makes`: what a call can do;
* `Makes.fresh`, `Construction.inOrder_run`: what one call keeps, and so a sequence of calls;
* `Construction.ids_are_fresh`: the ids of everything that can be built.
-/

namespace ShaderIR

variable {n : UInt32} {passed xs : List Id}

/-! ## 1. Constructions -/

/-- What is under construction: a module, or a function for it. -/
inductive Workpiece where
  | module (m : Module)
  | function (d : FunctionDraft)

/-- A call in a construction. -/
inductive Call where
  | onModule (c : ModuleBuilder.Call)
  | startFunction (ret type : Id)
  | onFunction (c : FunctionBuilder.Call)
  | define
  | abandon

/-- The ids the call is given. -/
def Call.args : Call → List Id
  | onModule c => c.args
  | startFunction ret type => [ret, type]
  | onFunction c => c.args
  | define | abandon => []

/-- Why a call is not made. -/
inductive Call.Refusal where
  /-- The builder stops. -/
  | fault (e : Fault)
  /-- The call is one on a module while a function is drafted, or the other way round. -/
  | misplaced

namespace Workpiece

variable {w w' : Workpiece} {c : Call}

/-- Goes on with what a builder leaves. -/
def proceed {σ : Type} (next : σ → Workpiece) :
    EStateM.Result Fault σ (List Id) → Except Call.Refusal (List Id × Workpiece)
  | .ok xs s => .ok (xs, next s)
  | .error e _ => .error (.fault e)

/-- Makes a call and gives the ids it returns. -/
def make : Workpiece → Call → Except Call.Refusal (List Id × Workpiece)
  | module m, .onModule c => proceed module (c.run m)
  | module m, .startFunction ret type =>
    ((FunctionDraft.start m ret type).mapError .fault).map (fun d => ([], function d))
  | function d, .onFunction c => proceed function (c.run d)
  | function d, .define => (d.define.mapError .fault).map (fun r => ([], module r.2))
  | function d, .abandon => .ok ([], module d.module)
  | _, _ => .error .misplaced

/-- What a call can do. -/
inductive Makes : Workpiece → Call → List Id → Workpiece → Prop where
  | onModule {m m' : Module} {c : ModuleBuilder.Call} {xs : List Id} (h : c.run m = .ok xs m') :
    Makes (module m) (.onModule c) xs (module m')
  | startFunction {m : Module} {d : FunctionDraft} {ret type : Id}
    (h : FunctionDraft.start m ret type = .ok d) :
    Makes (module m) (.startFunction ret type) [] (function d)
  | onFunction {d d' : FunctionDraft} {c : FunctionBuilder.Call} {xs : List Id}
    (h : c.run d = .ok xs d') : Makes (function d) (.onFunction c) xs (function d')
  | define {d : FunctionDraft} {k : FunctionKey} {m : Module} (h : d.define = .ok (k, m)) :
    Makes (function d) .define [] (module m)
  | abandon {d : FunctionDraft} : Makes (function d) .abandon [] (module d.module)

theorem proceed_eq_ok {σ : Type} {next : σ → Workpiece} {r : EStateM.Result Fault σ (List Id)}
    (h : proceed next r = .ok (xs, w)) : ∃ s, r = .ok xs s ∧ w = next s := by
  cases r with
  | ok ys s =>
    cases h
    exact ⟨s, rfl, rfl⟩
  | error e s => cases h

theorem makes_of_make (h : w.make c = .ok (xs, w')) : Makes w c xs w' := by
  cases w with
  | module m =>
    cases c with
    | onModule c =>
      obtain ⟨m', hrun, rfl⟩ := proceed_eq_ok h
      exact .onModule hrun
    | startFunction ret type =>
      obtain ⟨d, hstart, heq⟩ := map_eq_ok.mp h
      cases heq
      exact .startFunction (mapError_eq_ok.mp hstart)
    | onFunction c => cases h
    | define => cases h
    | abandon => cases h
  | function d =>
    cases c with
    | onModule c => cases h
    | startFunction ret type => cases h
    | onFunction c =>
      obtain ⟨d', hrun, rfl⟩ := proceed_eq_ok h
      exact .onFunction hrun
    | define =>
      obtain ⟨r, hdefine, heq⟩ := map_eq_ok.mp h
      cases heq
      exact .define (mapError_eq_ok.mp hdefine)
    | abandon =>
      cases h
      exact .abandon

/-- The ids of the module, and of the function that is drafted. -/
def ledger : Workpiece → Ledger
  | module m => m.ledger
  | function d => d.ledger

/-- The ids are in order, and none is pending between calls. -/
def Fresh (passed : List Id) (n : UInt32) : Workpiece → Prop
  | module m => m.ledger.Fresh passed n []
  | function d => d.Fresh passed n []

theorem Fresh.ids (h : w.Fresh passed n) : w.ledger.Fresh passed n [] := by
  cases w with
  | module m => exact h
  | function d => exact FunctionDraft.Fresh.ids h

theorem Fresh.fromNow (h : w.Fresh passed n) : w.Fresh passed w.ledger.bound := by
  cases w with
  | module m => exact Ledger.Fresh.fromNow h
  | function d => exact FunctionDraft.Fresh.fromNow h

/-- **A call keeps the ids in order** and returns ids below the bound. -/
theorem Makes.fresh (h : Makes w c xs w') (hw : w.Fresh passed n) (hargs : c.args ⊆ passed) :
    w'.Fresh passed n ∧ ∀ x ∈ xs, x.word < w'.ledger.bound := by
  cases h with
  | onModule h => exact ModuleBuilder.Call.fresh _ hw (fun y hy => .inl (hargs hy)) h
  | startFunction h =>
    exact ⟨FunctionDraft.Fresh.start hw h (fun y hy => .inl (hargs hy)), fun x hx => by cases hx⟩
  | onFunction h => exact FunctionBuilder.Call.fresh _ hw (fun y hy => .inl (hargs hy)) h
  | define h => exact ⟨FunctionDraft.Fresh.define hw h, fun x hx => by cases hx⟩
  | abandon => exact ⟨FunctionDraft.Fresh.abandon hw, fun x hx => by cases hx⟩

end Workpiece

/-! ## 2. Sequences of calls -/

/-- A workpiece, and the ids that the calls have returned so far. -/
structure Construction where
  workpiece : Workpiece
  given : List Id

namespace Construction

variable {s s' : Construction} {calls : List Call}

/-- Nothing has been called yet. -/
def ofModule (m : Module) : Construction := ⟨.module m, []⟩

/-- Makes one call. -/
def step (s : Construction) (c : Call) : Except Call.Refusal Construction := do
  let (xs, w) ← s.workpiece.make c
  return ⟨w, s.given ++ xs⟩

/-- Makes one call after the other. -/
def run (s : Construction) (calls : List Call) : Except Call.Refusal Construction :=
  calls.foldlM step s

theorem run_append {before after : List Call} : s.run (before ++ after) = .ok s' ↔
    ∃ s₁, s.run before = .ok s₁ ∧ s₁.run after = .ok s' := by
  unfold run
  rw [List.foldlM_append]
  exact bind_eq_ok

/-- The ids of the workpiece. -/
def ledger (s : Construction) : Ledger := s.workpiece.ledger

/-- The ids of the workpiece are in order, and those that were returned are below the bound. -/
structure InOrder (passed : List Id) (n : UInt32) (s : Construction) : Prop where
  fresh : s.workpiece.Fresh passed n
  given : ∀ x ∈ s.given, x.word < s.ledger.bound

theorem InOrder.step {c : Call} (hs : s.InOrder passed n) (hargs : c.args ⊆ passed)
    (h : s.step c = .ok s') : s'.InOrder passed n := by
  obtain ⟨⟨xs, w⟩, hmake, heq⟩ := bind_eq_ok.mp h
  cases heq
  have hmakes := Workpiece.makes_of_make hmake
  obtain ⟨hfresh, hxs⟩ := hmakes.fresh hs.fresh hargs
  have hle : s.ledger.bound ≤ w.ledger.bound := (hmakes.fresh hs.fresh.fromNow hargs).1.ids.grown
  refine ⟨hfresh, fun x hx => ?_⟩
  rcases List.mem_append.mp hx with hx | hx
  · exact UInt32.lt_of_lt_of_le (hs.given x hx) hle
  · exact hxs x hx

/-- **Calls keep the ids in order**, whatever the caller passes. -/
theorem inOrder_run (hs : s.InOrder passed n) (hargs : calls.flatMap Call.args ⊆ passed)
    (h : s.run calls = .ok s') : s'.InOrder passed n :=
  foldlM_induct h hs (fun _ _ _ hc hs hstep =>
    hs.step (fun _ hy => hargs (List.mem_flatMap_of_mem hc hy)) hstep)

/-- Before the first call no id is defined or mentioned. -/
theorem inOrder_start {m : Module} (hm : m = Module.empty ∨ m = ModuleBuilder.shader) :
    (ofModule m).InOrder passed 0 := by
  have hempty : m.ledger.defined = [] ∧ m.ledger.used = [] := by
    rcases hm with rfl | rfl <;> exact ⟨rfl, rfl⟩
  refine ⟨⟨?_, ?_, ?_, ?_, UInt32.le_iff_toNat_le.mpr (Nat.zero_le _)⟩, fun x hx => by cases hx⟩
  all_goals simp [hempty]

/-- **Builders hand out fresh ids only.**  Whatever is called in whichever order, the ids that the
module and the drafted function define are distinct, not zero and below the bound.  The bound never
falls, every id that was returned is below it, and if the caller passes returned ids only, so is
every id that is mentioned. -/
theorem ids_are_fresh {start : Module}
    (hstart : start = Module.empty ∨ start = ModuleBuilder.shader)
    (h : (ofModule start).run calls = .ok s) :
    s.ledger.defined.Nodup ∧
      (∀ x ∈ s.ledger.defined, x.word ≠ 0 ∧ x.word < s.ledger.bound) ∧
      (∀ x ∈ s.given, x.word < s.ledger.bound) ∧
      (∀ before after, calls = before ++ after → ∃ s₁, (ofModule start).run before = .ok s₁ ∧
        s₁.run after = .ok s ∧ s₁.ledger.bound ≤ s.ledger.bound) ∧
      (calls.flatMap Call.args ⊆ s.given →
        ∀ x ∈ s.ledger.defined ++ s.ledger.used, x.word < s.ledger.bound) := by
  have hs : s.InOrder (calls.flatMap Call.args) 0 :=
    inOrder_run (inOrder_start hstart) (List.Subset.refl _) h
  have hids := hs.fresh.ids
  have hdefined : ∀ x ∈ s.ledger.defined, x.word < s.ledger.bound := fun x hx =>
    hids.below x (List.mem_append_left _ hx)
  refine ⟨(List.nodup_append.mp hids.nodup).1, fun x hx => ⟨?_, hdefined x hx⟩, hs.given, ?_, ?_⟩
  · exact hids.nonzero x (List.mem_append_left _ hx)
  · rintro before after rfl
    obtain ⟨s₁, hbefore, hafter⟩ := run_append.mp h
    have hs₁ : s₁.InOrder ((before ++ after).flatMap Call.args) 0 :=
      inOrder_run (inOrder_start hstart) (by simp) hbefore
    have hgrown := (inOrder_run ⟨hs₁.fresh.fromNow, hs₁.given⟩ (by simp) hafter).fresh.ids.grown
    exact ⟨s₁, hbefore, hafter, hgrown⟩
  · intro hpassed x hx
    rcases List.mem_append.mp hx with hx | hx
    · exact hdefined x hx
    · exact (hids.used x hx).elim (fun hx => hs.given x (hpassed hx)) id

/-- A function is given up after its second block was begun; another is then written from its last
block to its first. -/
def secondAttempt : List Call :=
  [.onModule .typeVoid, .onModule .typeBool, .onModule (.constantTrue ⟨2⟩),
    .onModule (.typeFunction ⟨1⟩ [⟨2⟩]), .onModule (.groupDecorate 7 [⟨3⟩]),
    .startFunction ⟨1⟩ ⟨4⟩, .onFunction .createBlock, .onFunction .createBlock,
    .onFunction (.switchTo ⟨1⟩), .onFunction (.value .undef ⟨2⟩ []), .abandon,
    .startFunction ⟨1⟩ ⟨4⟩, .onFunction .functionId, .onFunction (.param ⟨2⟩),
    .onFunction .createBlock, .onFunction .createBlock, .onFunction (.switchTo ⟨1⟩),
    .onFunction (.phi ⟨2⟩ [(⟨11⟩, ⟨0⟩)]), .onFunction .ret, .onFunction (.switchTo ⟨0⟩),
    .onFunction (.branch ⟨1⟩), .define, .onModule (.entryPoint ⟨10⟩ "main")]

theorem ids_are_fresh_secondAttempt :
    ∃ s, (ofModule ModuleBuilder.shader).run secondAttempt = .ok s ∧
      s.ledger.defined.map Id.word = [5, 1, 2, 3, 4, 10, 11, 12, 13, 14] ∧ s.ledger.bound = 15 ∧
      secondAttempt.flatMap Call.args ⊆ s.given ∧ s.ledger.defined.Nodup ∧
      ∀ x ∈ s.ledger.defined ++ s.ledger.used, x.word < s.ledger.bound := by
  have hrun : ((ofModule ModuleBuilder.shader).run secondAttempt).toOption.map
      (fun s => (s.ledger.defined.map Id.word, s.ledger.bound, s.given)) =
        some ([5, 1, 2, 3, 4, 10, 11, 12, 13, 14], 15,
          [⟨1⟩, ⟨2⟩, ⟨3⟩, ⟨4⟩, ⟨5⟩, ⟨9⟩, ⟨10⟩, ⟨11⟩, ⟨14⟩]) := by cbv
  obtain ⟨s, h, hout⟩ := toOption_map_eq_some.mp hrun
  obtain ⟨hdefined, hout⟩ := Prod.mk.inj hout
  obtain ⟨hbound, hgiven⟩ := Prod.mk.inj hout
  have hargs : secondAttempt.flatMap Call.args ⊆ s.given := by
    rw [hgiven]
    decide
  obtain ⟨hnodup, -, -, -, hall⟩ := ids_are_fresh (.inr rfl) h
  exact ⟨s, h, hdefined, hbound, hargs, hnodup, hall hargs⟩

end Construction
end ShaderIR
