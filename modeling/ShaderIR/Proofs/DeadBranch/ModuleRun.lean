import ShaderIR.Proofs.DeadBranch.Phases

/-!
# Whole modules

The functions along the call trees are processed one after the other, each once.  They share the
workspace: the known constants and the ids only become more, and so do the killed ids.  In the end
the queued constants are added to the globals, and names and decorations of killed ids are dropped.

* `ProcessedFunction`: one function and its share of the run;
* `processFunction_cases`: what one step does;
* `Processed.step`: one more function; `processFunctions_spec`: all of them;
* `eliminateDeadBranches_cases`: a run on a module refuses it or processes its functions.
-/

namespace ShaderIR.Module

variable {m m' m₁ : Module} {w w' w₁ : Workspace} {k : FunctionKey} {f f' : Function}
  {changed changed' : Bool}

/-! ## 1. Functions and keys -/

theorem function?_eq (m : Module) (k : FunctionKey) :
    m.function? k = m.functionList[ArenaKey.index k]? := by
  simp [function?, Arena.get?, functionList]

theorem mem_functionList (h : m.function? k = some f) : f ∈ m.functionList :=
  List.mem_of_getElem? (m.function?_eq k ▸ h)

theorem nodup_functionKeys (m : Module) : m.functionKeys.Nodup := by
  refine List.Nodup.filterMap ?_ List.nodup_range
  intro i j k hi hj
  have hi' := ArenaKey.index_eq_of_ofIndex? hi
  have hj' := ArenaKey.index_eq_of_ofIndex? hj
  exact hi'.symm.trans hj'

theorem functionKeys_eq (h : m'.functions.size = m.functions.size) :
    m'.functionKeys = m.functionKeys := by
  simp only [functionKeys, Arena.keys, h]

/-- There is a function under each key. -/
theorem function_of_mem_functionKeys (hk : k ∈ m.functionKeys) :
    ∃ f, m.function k = .ok f ∧ m.function? k = some f := by
  obtain ⟨n, hn, hkn⟩ := List.mem_filterMap.mp hk
  have hlt : ArenaKey.index k < m.functions.slots.size := by
    rw [ArenaKey.index_eq_of_ofIndex? hkn]
    exact List.mem_range.mp hn
  have hget : m.functions.get? k = some m.functions.slots[ArenaKey.index k] :=
    Array.getElem?_eq_getElem hlt
  exact ⟨_, by rw [function, Arena.get, hget], hget⟩

theorem functionOf?_eq (m : Module) (x : Id) :
    m.functionOf? x = m.functionKeys.find? (fun k => (m.function? k).any (fun f => f.id = x)) := by
  unfold functionOf? Arena.entries functionKeys function?
  induction m.functions.keys with
  | nil => rfl
  | cons k ks ih =>
    cases hk : m.functions.get? k with
    | none => simpa [hk] using ih
    | some f =>
      by_cases hx : f.id = x
      · simp [hk, hx]
      · simpa [hk, hx] using ih

theorem mem_functionKeys_of_callOrder (hk : k ∈ m.callOrder) : k ∈ m.functionKeys :=
  (Graph.search_induct (P := fun _ => True) (fun _ _ _ => trivial) (fun _ _ _ _ _ => trivial) hk).1

theorem nodup_callOrder (m : Module) : m.callOrder.Nodup := Graph.nodup_search m.nodup_functionKeys

theorem functionList_setFunction (m : Module) (k : FunctionKey) (f : Function) (n : Nat) :
    (m.setFunction k f).functionList[n]? =
      if n = ArenaKey.index k then m.functionList[n]?.map (fun _ => f) else m.functionList[n]? := by
  simp only [functionList, setFunction, Arena.set, Array.toList_setIfInBounds]
  by_cases h : n = ArenaKey.index k
  · subst h
    rw [if_pos rfl, List.getElem?_set_self']
    cases m.functions.slots.toList[ArenaKey.index k]? <;> rfl
  · rw [if_neg h, List.getElem?_set_ne (fun e => h e.symm)]

theorem function?_setFunction_self (h : m.function? k = some f) :
    (m.setFunction k f').function? k = some f' := by
  have hget : m.functions.get? k = some f := h
  simp [function?, setFunction, Arena.get?_set_self, hget]

theorem function?_setFunction_of_ne {k' : FunctionKey} (h : k' ≠ k) :
    (m.setFunction k f).function? k' = m.function? k' :=
  Arena.get?_set_of_ne _ _ (fun e => h e.symm)

theorem function_eq_ok (h : m.function k = .ok f) : m.function? k = some f := by
  simp only [function, Arena.get] at h
  cases hk : m.functions.get? k with
  | none => simp [hk] at h
  | some g =>
    rw [hk] at h
    exact hk.trans (congrArg some (Except.ok.inj h))

/-! ## 2. One function after the other -/

/-- What processing a function comes to: one function is replaced, and a mark is not taken back. -/
theorem processFunction_cases {s' : Module × Workspace × Bool}
    (h : processFunction (m₁, w₁, changed) k = .ok s') :
    ∃ f f' w' marked, m₁.function? k = some f ∧
      f.eliminateDeadBranches w₁ = .ok (f', w', marked) ∧
      s' = (m₁.setFunction k f', w', changed || marked) := by
  obtain ⟨f, hf, h⟩ := bind_eq_ok.mp h
  obtain ⟨⟨f', w', marked⟩, hrun, h⟩ := bind_eq_ok.mp h
  exact ⟨f, f', w', marked, function_eq_ok hf, hrun, (Except.ok.inj h).symm⟩

/-- An instruction of some body has the type. -/
def UsesType (m : Module) (t : Id) : Prop := ∃ f ∈ m.functionList, f.UsesType t

/-- A function is processed in the course of a run: from some state of the workspace to another. -/
structure ProcessedFunction (m : Module) (w₁ : Workspace) (f : Function) (w : Workspace)
    (f' : Function) (w' : Workspace) : Prop where
  before : (ConstantTable.ofModule m).Grows m.UsesType m.supply w.constants w.ids
  run : ∃ changed, f.eliminateDeadBranches w = .ok (f', w', changed)
  after : w'.constants.Grows m.UsesType w'.ids w₁.constants w₁.ids
  killed : ∀ x, w'.killed.contains x = true → w₁.killed.contains x = true

/-- Some functions of a module are processed, the others are as they were. -/
structure Processed (m : Module) (done : List FunctionKey) (m₁ : Module) (w₁ : Workspace) : Prop where
  sections : m₁ = { m with functions := m₁.functions }
  size : m₁.functions.size = m.functions.size
  grows : (ConstantTable.ofModule m).Grows m.UsesType m.supply w₁.constants w₁.ids
  todo : ∀ n, (∀ k ∈ done, ArenaKey.index k ≠ n) → m₁.functionList[n]? = m.functionList[n]?
  done : ∀ k ∈ done, ∀ f, m.function? k = some f →
    ∃ w f' w', m₁.function? k = some f' ∧ ProcessedFunction m w₁ f w f' w'

theorem processed_start (m : Module) : Processed m [] m (.ofModule m) :=
  ⟨rfl, rfl, .refl, fun _ _ => rfl, fun _ h => by cases h⟩

theorem Processed.function?_todo {done : List FunctionKey} (hs : Processed m done m₁ w₁)
    (hk : k ∉ done) : m₁.function? k = m.function? k := by
  rw [function?_eq, function?_eq]
  exact hs.todo _ (fun k' hk' e => hk (ArenaKey.eq_of_index_eq e ▸ hk'))

/-- Place by place, a function is processed or as it was. -/
theorem Processed.forall₂ {done : List FunctionKey} (hs : Processed m done m₁ w₁) :
    List.Forall₂ (fun f f' => f' = f ∨ ∃ w w', ProcessedFunction m w₁ f w f' w')
      m.functionList m₁.functionList := by
  refine List.forall₂_iff_get.mpr ⟨?_, fun n hn hn' => ?_⟩
  · have hsize := hs.size
    simp only [Arena.size] at hsize
    simp [functionList, hsize]
  · by_cases hdone : ∃ k ∈ done, ArenaKey.index k = n
    · obtain ⟨k, hk, rfl⟩ := hdone
      have hf : m.function? k = some (m.functionList.get ⟨_, hn⟩) := by
        rw [function?_eq]
        exact List.getElem?_eq_getElem hn
      obtain ⟨w, f', w', hf', hrun⟩ := hs.done k hk _ hf
      rw [function?_eq, List.getElem?_eq_getElem hn'] at hf'
      obtain rfl : m₁.functionList.get ⟨_, hn'⟩ = f' := Option.some.inj hf'
      exact .inr ⟨w, w', hrun⟩
    · have hsame := hs.todo n (fun k hk e => hdone ⟨k, hk, e⟩)
      rw [List.getElem?_eq_getElem hn, List.getElem?_eq_getElem hn'] at hsame
      exact .inl (Option.some.inj hsame)

/-- A relation between the functions before and after, from one function at a time. -/
theorem Processed.forall₂_of {R : Function → Function → Prop} {done : List FunctionKey}
    (hs : Processed m done m₁ w₁) (hsame : ∀ f ∈ m.functionList, R f f)
    (hrun : ∀ f ∈ m.functionList, ∀ w f' w', ProcessedFunction m w₁ f w f' w' → R f f') :
    List.Forall₂ R m.functionList m₁.functionList := by
  refine List.forall₂_iff_get.mpr ⟨hs.forall₂.length_eq, fun n hn hn' => ?_⟩
  have hmem : m.functionList.get ⟨n, hn⟩ ∈ m.functionList := List.get_mem _ _
  rcases (List.forall₂_iff_get.mp hs.forall₂).2 n hn hn' with heq | ⟨w, w', hprocessed⟩
  · rw [heq]
    exact hsame _ hmem
  · exact hrun _ hmem w _ w' hprocessed

theorem mem_usedIds_of_body {x : Id} (hf : f ∈ m.functionList) (hx : x ∈ f.bodyUses) :
    x ∈ m.usedIds :=
  List.mem_append_right _ (List.mem_flatMap.mpr ⟨f, hf, List.mem_append_right _ hx⟩)

/-- **One more function.** -/
theorem Processed.step (hwf : ∀ f ∈ m.functionList, f.WellFormed) {done : List FunctionKey}
    (hs : Processed m done m₁ w₁) (hk : k ∉ done)
    (h : processFunction (m₁, w₁, changed) k = .ok (m', w', changed')) :
    Processed m (done ++ [k]) m' w' := by
  obtain ⟨f, f', w₂, marked, hf₁, hrun, heq⟩ := processFunction_cases h
  cases heq
  have hfk : m.function? k = some f := (hs.function?_todo hk).symm.trans hf₁
  have hmem := mem_functionList hfk
  obtain ⟨folded, repaired, mended, hphases⟩ :=
    Function.eliminateDeadBranches_phases (hwf f hmem) hrun
  have hgrows := hphases.grows.weaken (Q := m.UsesType) (fun t ht => ⟨f, hmem, ht⟩)
  refine ⟨?_, ?_, hs.grows.trans hgrows, fun n hn => ?_, fun k' hk' g hg => ?_⟩
  · conv_lhs => rw [hs.sections]
    rfl
  · rw [← hs.size]
    exact Arena.size_set _ _ _
  · rw [functionList_setFunction, if_neg (fun e => hn k (by simp) e.symm)]
    exact hs.todo n (fun k' hk' => hn k' (by simp [hk']))
  · rcases List.mem_append.mp hk' with hold | hnew
    · obtain ⟨w₀, g', w₀', hg', hbefore, hrun', hafter, hkilled⟩ := hs.done k' hold g hg
      refine ⟨w₀, g', w₀', ?_, hbefore, hrun', hafter.trans hgrows,
        fun x hx => hphases.killed_mono (hkilled x hx)⟩
      have hne : k' ≠ k := fun e => hk (e ▸ hold)
      rw [function?_setFunction_of_ne hne, hg']
    · obtain rfl := List.mem_singleton.mp hnew
      obtain rfl := Option.some.inj (hfk.symm.trans hg)
      exact ⟨w₁, f', w', function?_setFunction_self hf₁, hs.grows, ⟨_, hrun⟩, .refl, fun _ hx => hx⟩

/-- The module at the end of a run: new globals at the end, and no names or decorations of killed
ids. -/
def finished (m₁ : Module) (w₁ : Workspace) : Module :=
  { m₁ with
    globals := m₁.globals ++ w₁.constants.newGlobals
    bound := w₁.ids.bound }.removeDebugInfo w₁.killed

theorem Processed.globals_finished {done : List FunctionKey} (hs : Processed m done m₁ w₁) :
    (m₁.finished w₁).globals = m.globals ++ w₁.constants.newGlobals := by
  rw [hs.sections]
  rfl

/-- **Induction over the functions of a run.** -/
theorem processFunctions_induct_of_wellFormed
    {P : List FunctionKey → Module × Workspace × Bool → Prop}
    (hwf : ∀ f ∈ m.functionList, f.WellFormed) (h : m.processFunctions = .ok (m', changed))
    (hstart : P [] (m, .ofModule m, false))
    (hstep : ∀ done k s s', Processed m done s.1 s.2.1 → k ∉ done → P done s →
      processFunction s k = .ok s' → P (done ++ [k]) s') :
    ∃ m₁ w₁, Processed m m.callOrder m₁ w₁ ∧ P m.callOrder (m₁, w₁, changed) ∧
      m' = m₁.finished w₁ := by
  obtain ⟨⟨m₁, w₁, changed₁⟩, hrun, h⟩ := bind_eq_ok.mp h
  obtain ⟨m₂, hadopt, h⟩ := bind_eq_ok.mp h
  cases h
  have hend : Processed m m.callOrder m₁ w₁ ∧ P m.callOrder (m₁, w₁, changed) := by
    refine foldlM_induct_done (P := fun done s => Processed m done s.1 s.2.1 ∧ P done s) hrun
      ⟨processed_start m, hstart⟩ ?_
    rintro before k after s s' hsplit ⟨hs, hP⟩ hvisit
    have hnodup := m.nodup_callOrder
    rw [hsplit] at hnodup
    have hk : k ∉ before := fun hmem =>
      (List.nodup_append.mp hnodup).2.2 k hmem k (by simp) rfl
    exact ⟨hs.step hwf hk hvisit, hstep before k s s' hs hk hP hvisit⟩
  refine ⟨m₁, w₁, hend.1, hend.2, ?_⟩
  simp only [adopt] at hadopt
  split at hadopt
  · cases hadopt
    rfl
  · cases hadopt

/-- The same for an accepted module. -/
theorem processFunctions_induct {P : List FunctionKey → Module × Workspace × Bool → Prop}
    (ha : m.Accepted) (h : m.processFunctions = .ok (m', changed))
    (hstart : P [] (m, .ofModule m, false))
    (hstep : ∀ done k s s', Processed m done s.1 s.2.1 → k ∉ done → P done s →
      processFunction s k = .ok s' → P (done ++ [k]) s') :
    ∃ m₁ w₁, Processed m m.callOrder m₁ w₁ ∧ P m.callOrder (m₁, w₁, changed) ∧
      m' = m₁.finished w₁ :=
  processFunctions_induct_of_wellFormed (fun _ => Function.wellFormed_of_accepted ha) h hstart
    hstep

/-- **A run is made of the runs on the functions.** -/
theorem processFunctions_spec (ha : m.Accepted) (h : m.processFunctions = .ok (m', changed)) :
    ∃ m₁ w₁, Processed m m.callOrder m₁ w₁ ∧ m' = m₁.finished w₁ := by
  obtain ⟨m₁, w₁, hs, -, hm'⟩ := processFunctions_induct (P := fun _ _ => True) ha h trivial
    (fun _ _ _ _ _ _ _ _ => trivial)
  exact ⟨m₁, w₁, hs, hm'⟩

theorem eliminateDeadBranches_cases {wl : Whitelist} {status : Status}
    (h : m.eliminateDeadBranches wl = .ok (m', status)) :
    (∃ r, m.refusal? wl = some r ∧ m' = m ∧ status = r.status) ∨
      (m.refusal? wl = none ∧ ∃ changed, m.processFunctions = .ok (m', changed) ∧
        status = .ofChanged changed) := by
  unfold eliminateDeadBranches at h
  generalize m.refusal? wl = refusal? at h ⊢
  cases refusal? with
  | some r =>
    cases h
    exact .inl ⟨r, rfl, rfl, rfl⟩
  | none =>
    obtain ⟨⟨m₁, changed⟩, hrun, h⟩ := bind_eq_ok.mp h
    cases h
    exact .inr ⟨rfl, changed, hrun, rfl⟩

theorem eliminateDeadBranches_unchanged_iff {wl : Whitelist} (h : m.refusal? wl = none) :
    m.eliminateDeadBranches wl = .ok (m', .unchanged) ↔ m.processFunctions = .ok (m', false) := by
  constructor
  · intro hrun
    rcases eliminateDeadBranches_cases hrun with ⟨r, hr, -, -⟩ | ⟨-, changed, hrun, hstatus⟩
    · cases h.symm.trans hr
    · cases changed with
      | false => exact hrun
      | true => cases hstatus
  · intro hrun
    simp only [eliminateDeadBranches, h]
    exact bind_eq_ok.mpr ⟨_, hrun, rfl⟩

/-- Without extensions it does not matter which of them are allowed. -/
theorem eliminateDeadBranches_of_no_extensions (h : m.extensionNames = []) (wl wl' : Whitelist) :
    m.eliminateDeadBranches wl = m.eliminateDeadBranches wl' := by
  simp only [eliminateDeadBranches, refusal?, Whitelist.firstUnsupported?, h, List.find?_nil]

end ShaderIR.Module
