import ShaderIR.Proofs.DeadBranch.ModuleRun
import ShaderIR.Proofs.Graph.Distance

/-!
# The call trees

The functions that are processed are those in the call trees of the entry points.  A function is at
distance `n` if it can be called from an entry point through `n` calls and no fewer; calls may go
round in circles, and what a call or an entry point names need not be a function.

* `functionOf?_eq_some_iff`: where ids are not shared, an id names the function that has it;
* `Touched.step`, `touched_run`: a run replaces the functions in the order once each, and no other;
* `call_trees_processed`: the order has exactly the functions of the call trees, nearest first.
-/

namespace ShaderIR.Module

variable {m m' m₁ : Module} {k k' : FunctionKey} {f f' : Function} {x : Id}
  {done : List FunctionKey} {w w' w₁ : Workspace} {changed : Bool}

/-! ## 1. Calls -/

/-- No two functions have one id. -/
def DistinctFunctions (m : Module) : Prop := (m.functionList.map Function.id).Nodup

instance (m : Module) : Decidable m.DistinctFunctions :=
  inferInstanceAs (Decidable (List.Nodup _))

/-- An entry point names the function. -/
def IsEntry (m : Module) (k : FunctionKey) : Prop :=
  ∃ f, m.function? k = some f ∧ ∃ i ∈ m.entryPoints, i.idOperand? 1 = some f.id

/-- An instruction of a block in the layout of the one function calls the other. -/
def Calls (m : Module) (k k' : FunctionKey) : Prop :=
  ∃ f g, m.function? k = some f ∧ m.function? k' = some g ∧ ∃ b ∈ f.layout,
    ∃ i ∈ f.instructions b, i.opcode = .functionCall ∧ i.idOperand? 0 = some g.id

/-- A chain of calls leads to the function from one that an entry point names. -/
def InCallTree (m : Module) (k : FunctionKey) : Prop := ∃ n, Graph.ReachedIn m.IsEntry m.Calls n k

/-- The number of calls in a shortest chain. -/
noncomputable def callDistance (m : Module) : FunctionKey → Nat := Graph.distance m.IsEntry m.Calls

theorem mem_functionKeys_of_function? (h : m.function? k = some f) : k ∈ m.functionKeys := by
  obtain ⟨hlt, -⟩ := Array.getElem?_eq_some_iff.mp h
  exact List.mem_filterMap.mpr ⟨_, List.mem_range.mpr hlt, ArenaKey.ofIndex?_index k⟩

/-- **An id names the function that has it.** -/
theorem functionOf?_eq_some_iff (hm : m.DistinctFunctions) :
    m.functionOf? x = some k ↔ ∃ f, m.function? k = some f ∧ f.id = x := by
  have hfound : ∀ k, m.functionOf? x = some k → ∃ f, m.function? k = some f ∧ f.id = x := by
    intro k hk
    rw [functionOf?_eq] at hk
    have hid := List.find?_some hk
    simpa only [Option.any_eq_true, decide_eq_true_eq] using hid
  refine ⟨hfound k, ?_⟩
  rintro ⟨f, hf, rfl⟩
  obtain ⟨k', hk'⟩ : ∃ k', m.functionOf? f.id = some k' := by
    rw [functionOf?_eq, ← Option.isSome_iff_exists, List.find?_isSome]
    exact ⟨k, mem_functionKeys_of_function? hf, by simp [hf]⟩
  -- the function that is found has the same id, so it stands in the same place
  obtain ⟨g, hg, hid⟩ := hfound k' hk'
  rw [function?_eq] at hf hg
  have hlt := (List.getElem?_eq_some_iff.mp hg).1
  have hplace : ArenaKey.index k' = ArenaKey.index k := by
    refine (List.getElem?_inj (by simpa using hlt) hm).mp ?_
    simp only [List.getElem?_map, hf, hg, Option.map_some, hid]
  rw [hk', ArenaKey.eq_of_index_eq hplace]

theorem mem_roots_iff (hm : m.DistinctFunctions) :
    k ∈ m.entryPointFunctions.filterMap m.functionOf? ↔ m.IsEntry k := by
  simp only [List.mem_filterMap, functionOf?_eq_some_iff hm, entryPointFunctions, IsEntry]
  constructor
  · rintro ⟨x, ⟨i, hi, hix⟩, f, hf, rfl⟩
    exact ⟨f, hf, i, hi, hix⟩
  · rintro ⟨f, hf, i, hi, hix⟩
    exact ⟨f.id, ⟨i, hi, hix⟩, f, hf, rfl⟩

theorem mem_callees_iff : x ∈ f.callees ↔
    ∃ b ∈ f.layout, ∃ i ∈ f.instructions b, i.opcode = .functionCall ∧ i.idOperand? 0 = some x := by
  simp only [Function.callees, List.mem_filterMap]
  constructor
  · rintro ⟨⟨b, i⟩, hi, hx⟩
    obtain ⟨hb, hi⟩ := Function.mem_body.mp hi
    split at hx
    · rename_i ho
      exact ⟨b, hb, i, hi, ho, hx⟩
    · cases hx
  · rintro ⟨b, hb, i, hi, ho, hx⟩
    exact ⟨(b, i), Function.mem_body.mpr ⟨hb, hi⟩, by rw [if_pos ho, hx]⟩

theorem mem_calls_iff (hm : m.DistinctFunctions) : k' ∈ m.calls k ↔ m.Calls k k' := by
  unfold calls Calls
  cases hf : m.function? k with
  | none => simp
  | some f =>
    simp only [Option.map_some, Option.getD_some, List.mem_filterMap, functionOf?_eq_some_iff hm,
      mem_callees_iff]
    constructor
    · rintro ⟨x, hcall, g, hg, rfl⟩
      exact ⟨f, g, rfl, hg, hcall⟩
    · rintro ⟨_, g, ⟨⟩, hg, hcall⟩
      exact ⟨g.id, hcall, g, hg, rfl⟩

/-! ## 2. The order -/

/-- What is called is a function of the module. -/
theorem closed_calls (m : Module) : Graph.Closed m.calls m.functionKeys := by
  intro a _ b hb
  obtain ⟨x, -, hx⟩ := List.mem_filterMap.mp hb
  rw [functionOf?_eq] at hx
  exact List.mem_of_find?_eq_some hx

theorem mem_functionKeys_of_root (hk : k ∈ m.entryPointFunctions.filterMap m.functionOf?) :
    k ∈ m.functionKeys := by
  obtain ⟨x, -, hx⟩ := List.mem_filterMap.mp hk
  rw [functionOf?_eq] at hx
  exact List.mem_of_find?_eq_some hx

/-- The ways along which the order is searched are the chains of calls. -/
theorem foundIn_eq (hm : m.DistinctFunctions) :
    Graph.FoundIn m.calls (m.entryPointFunctions.filterMap m.functionOf?) =
      Graph.ReachedIn m.IsEntry m.Calls := by
  have hroots : (fun r => r ∈ m.entryPointFunctions.filterMap m.functionOf?) = m.IsEntry :=
    funext fun _ => propext (mem_roots_iff hm)
  have hcalls : (fun a b => b ∈ m.calls a) = m.Calls :=
    funext fun _ => funext fun _ => propext (mem_calls_iff hm)
  rw [Graph.FoundIn, hroots, hcalls]

theorem mem_callOrder_iff (hm : m.DistinctFunctions) : k ∈ m.callOrder ↔ m.InCallTree k := by
  have hiff := Graph.mem_search_iff_reachedIn m.closed_calls (fun _ => mem_functionKeys_of_root)
    (a := k)
  rw [Graph.Found, foundIn_eq hm] at hiff
  exact hiff

theorem callOrder_nearest_first (hm : m.DistinctFunctions) :
    m.callOrder.Pairwise (fun k k' => m.callDistance k ≤ m.callDistance k') := by
  have hdistance : Graph.distanceFrom m.calls (m.entryPointFunctions.filterMap m.functionOf?) =
      m.callDistance := by
    funext k
    have hways := congrFun (foundIn_eq hm)
    exact congrArg sInf (Set.ext fun n => iff_of_eq (congrFun (hways n) k))
  have hsorted := Graph.search_nearest_first m.nodup_functionKeys m.closed_calls
    (fun _ => mem_functionKeys_of_root)
  rw [hdistance] at hsorted
  exact hsorted

/-! ## 3. What a run replaces -/

/-- Some functions were replaced, each by what one run on it leaves; the others are as they were. -/
structure Touched (m : Module) (done : List FunctionKey) (m₁ : Module) : Prop where
  size : m₁.functions.size = m.functions.size
  other : ∀ k, k ∉ done → m₁.function? k = m.function? k
  once : ∀ k ∈ done, ∃ f w f' w' changed, m.function? k = some f ∧
    f.eliminateDeadBranches w = .ok (f', w', changed) ∧ m₁.function? k = some f'

/-- One more function. -/
theorem Touched.step {s s' : Module × Workspace × Bool} (hs : Touched m done s.1) (hk : k ∉ done)
    (h : processFunction s k = .ok s') : Touched m (done ++ [k]) s'.1 := by
  obtain ⟨f, f', w', marked, hf, hrun, rfl⟩ := processFunction_cases h
  refine ⟨(Arena.size_set _ _ _).trans hs.size, fun k' hk' => ?_, fun k' hk' => ?_⟩
  · obtain ⟨hdone, hne⟩ : k' ∉ done ∧ k' ≠ k := by simpa using hk'
    exact (function?_setFunction_of_ne hne).trans (hs.other k' hdone)
  · rcases List.mem_append.mp hk' with hdone | hlast
    · obtain ⟨g, w, g', w₁, changed, hg, hgrun, hg'⟩ := hs.once k' hdone
      have hne : k' ≠ k := fun he => hk (he ▸ hdone)
      exact ⟨g, w, g', w₁, changed, hg, hgrun, (function?_setFunction_of_ne hne).trans hg'⟩
    · obtain rfl := List.mem_singleton.mp hlast
      exact ⟨f, _, f', w', marked, (hs.other k' hk).symm.trans hf, hrun,
        function?_setFunction_self hf⟩

/-- **A run replaces the functions in the order, once each.** -/
theorem touched_run (h : m.processFunctions = .ok (m', changed)) : Touched m m.callOrder m' := by
  obtain ⟨⟨m₁, w₁, changed₁⟩, hrun, h⟩ := bind_eq_ok.mp h
  obtain ⟨m₂, hadopt, h⟩ := bind_eq_ok.mp h
  cases h
  have hend : Touched m m.callOrder m₁ := by
    refine foldlM_induct_done (P := fun done s => Touched m done s.1) hrun
      ⟨rfl, fun _ _ => rfl, by simp⟩ ?_
    intro before k after s s' hsplit hs hstep
    have hnodup := m.nodup_callOrder
    rw [hsplit] at hnodup
    exact hs.step (fun hmem => (List.nodup_append.mp hnodup).2.2 k hmem k (by simp) rfl) hstep
  -- globals, the bound and the names come after the functions
  have hfunctions : m₂.functions = m₁.functions := by
    unfold adopt at hadopt
    split at hadopt <;> cases hadopt
    rfl
  have hsame : ∀ k, (m₂.removeDebugInfo w₁.killed).function? k = m₁.function? k :=
    fun k => congrArg (fun a => Arena.get? a k) hfunctions
  have hsize := (congrArg Arena.size hfunctions).trans hend.size
  exact ⟨hsize, fun k hk => (hsame k).trans (hend.other k hk),
    fun k hk => by simpa only [hsame] using hend.once k hk⟩

/-- What a run has to do with the call trees: its order has their functions, each once and nearest
first, and it leaves the other functions alone. -/
structure FollowsCalls (m : Module) : Prop where
  nodup : m.callOrder.Nodup
  mem_iff : ∀ k, k ∈ m.callOrder ↔ m.InCallTree k
  nearest_first : m.callOrder.Pairwise (fun k k' => m.callDistance k ≤ m.callDistance k')
  keys : ∀ wl m' status, m.eliminateDeadBranches wl = .ok (m', status) →
    m'.functionKeys = m.functionKeys
  other : ∀ wl m' status, m.eliminateDeadBranches wl = .ok (m', status) →
    ∀ k, ¬ m.InCallTree k → m'.function? k = m.function? k
  once : ∀ wl m' status, m.eliminateDeadBranches wl = .ok (m', status) → m.refusal? wl = none →
    ∀ k, m.InCallTree k → ∃ f w f' w' changed, m.function? k = some f ∧
      f.eliminateDeadBranches w = .ok (f', w', changed) ∧ m'.function? k = some f'

/-- **Exactly the call trees of the entry points are processed.** -/
theorem call_trees_processed (hm : m.DistinctFunctions) : m.FollowsCalls where
  nodup := m.nodup_callOrder
  mem_iff _ := mem_callOrder_iff hm
  nearest_first := callOrder_nearest_first hm
  keys wl m' status h := by
    rcases eliminateDeadBranches_cases h with ⟨-, -, rfl, -⟩ | ⟨-, changed, hrun, -⟩
    · rfl
    · exact functionKeys_eq (touched_run hrun).size
  other wl m' status h k hk := by
    rcases eliminateDeadBranches_cases h with ⟨-, -, rfl, -⟩ | ⟨-, changed, hrun, -⟩
    · rfl
    · exact (touched_run hrun).other k (fun hmem => hk ((mem_callOrder_iff hm).mp hmem))
  once wl m' status h hpast k hk := by
    rcases eliminateDeadBranches_cases h with ⟨r, hr, -, -⟩ | ⟨-, changed, hrun, -⟩
    · cases hpast.symm.trans hr
    · exact (touched_run hrun).once k ((mem_callOrder_iff hm).mpr hk)

/-- A function that makes some calls, each with its result, and has a selection that folds. -/
def caller (x : UInt32) (calls : List (UInt32 × UInt32)) : Function := .ofBlocks ⟨x⟩ ⟨2⟩ ⟨3⟩ [
  ⟨⟨x + 1⟩, calls.map (fun c => ⟨.functionCall, some ⟨2⟩, some ⟨c.1⟩, [.ref ⟨c.2⟩]⟩) ++
    [.selectionMerge ⟨x + 3⟩, .branchConditional ⟨5⟩ ⟨x + 3⟩ ⟨x + 2⟩]⟩,
  ⟨⟨x + 2⟩, [.branch ⟨x + 3⟩]⟩,
  ⟨⟨x + 3⟩, [.ret]⟩]

/-- The entry point `%10` is named twice and calls `%30`, which calls nothing of use and `%40`; that
calls `%30` again.  The function `%20` is called by itself only, and `%2` is no function. -/
def callRing : Module :=
  { Module.ofFunction 50 boolGlobals (caller 10 [(14, 30)]) with
    entryPoints := [10, 2, 10].map (fun x =>
      ⟨.entryPoint, none, none, [.literal 4, .ref ⟨x⟩, .string "main"]⟩)
    functions := ⟨#[caller 10 [(14, 30)], caller 20 [(24, 20)], caller 30 [(34, 2), (35, 40)],
      caller 40 [(44, 30)]]⟩ }

theorem call_trees_processed_callRing :
    callRing.DistinctFunctions ∧ callRing.callOrder = [⟨0⟩, ⟨2⟩, ⟨3⟩] ∧ callRing.FollowsCalls ∧
      ∃ m', callRing.eliminateDeadBranches (.ofNames []) = .ok (m', .changed) ∧
        m'.function? ⟨3⟩ ≠ callRing.function? ⟨3⟩ ∧ m'.function? ⟨1⟩ = callRing.function? ⟨1⟩ := by
  have hm : callRing.DistinctFunctions := by decide
  have horder : callRing.callOrder = [⟨0⟩, ⟨2⟩, ⟨3⟩] := by cbv
  have hfollows := call_trees_processed hm
  have hrun : (callRing.eliminateDeadBranches (.ofNames [])).toOption.map
      (fun r => (decide (r.1.function? ⟨3⟩ = callRing.function? ⟨3⟩), r.2)) =
        some (false, .changed) := by cbv
  obtain ⟨⟨m', status⟩, h, hout⟩ := toOption_map_eq_some.mp hrun
  obtain ⟨hchanged, rfl⟩ := Prod.mk.inj hout
  refine ⟨hm, horder, hfollows, m', h, of_decide_eq_false hchanged, ?_⟩
  refine hfollows.other _ m' _ h ⟨1⟩ ?_
  intro htree
  rw [← hfollows.mem_iff, horder] at htree
  simp at htree

end ShaderIR.Module
