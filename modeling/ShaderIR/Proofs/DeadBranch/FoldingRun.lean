import ShaderIR.Proofs.Constants
import ShaderIR.Proofs.DeadBranch.Folding
import ShaderIR.Proofs.Function.Unique

/-!
# A run of folding

Every block is visited at most once, so a folded function differs from the one before in the ends of
some headers only: such a header had a branch that always goes to one label, and now ends with a
branch there, or with a conditional branch that keeps its merge block.

* `EndsAs`, `FoldsTo`: the new end of a block, and the block;
* `Progress`: how the function compares with the one before, after some visits;
* `run_quiet`, `run_changed`: what the mark of a change says; `run_eq_iff`: when there is none;
* `run_induct`, `run_induct_rewrite`: what holds at the start and is kept by every step holds at the
  end;
* `run_inOrder`: after a change, every use is dominated by its definition.
-/

namespace ShaderIR.Folding

variable {T T' T'' : ConstantTable} {ids ids' : IdSupply} {merge? merge?' : Option Instruction}
  {t t' i : Instruction} {l x : Id}

/-! ## 1. The end of a block -/

/-- The merge declaration and the branch of a block before folding, and after it.  The branch went
to `live` always, by a table met on the way to `T'`. -/
inductive EndsAs (T : ConstantTable) (ids : IdSupply) (T' : ConstantTable)
    (merge? : Option Instruction) (t : Instruction) : Option Instruction → Instruction → Prop
  | same : EndsAs T ids T' merge? t merge? t
  | fold {T₁ : ConstantTable} {ids₁ : IdSupply} {live merge : Id}
      (grows : T.Grows (fun _ => False) ids T₁ ids₁) (taken : T₁.takenTarget? t = some live)
      (declares : merge?.bind Instruction.mergeTargets? = some (merge, none)) :
      EndsAs T ids T' merge? t none (.branch live)
  | narrow {T₁ : ConstantTable} {ids₁ : IdSupply} {live merge cond : Id} {value : Bool}
      (grows : T.Grows (fun _ => False) ids T₁ ids₁) (taken : T₁.takenTarget? t = some live)
      (declares : merge?.bind Instruction.mergeTargets? = some (merge, none))
      (condition : (t.idOperand? 0 = some cond ∧ T₁.bool? cond = some value) ∨
        (value = true ∧ T'.true? = some cond)) :
      EndsAs T ids T' merge? t (some (.selectionMerge merge))
        (.branchConditional cond (if value then live else merge) (if value then merge else live))

namespace EndsAs

theorem mono (h : EndsAs T ids T' merge? t merge?' t')
    (htrue : ∀ x, T'.true? = some x → T''.true? = some x) :
    EndsAs T ids T'' merge? t merge?' t' := by
  cases h with
  | same => exact .same
  | fold grows taken declares => exact .fold grows taken declares
  | narrow grows taken declares condition =>
    exact .narrow grows taken declares (condition.imp id (fun hc => ⟨hc.1, htrue _ hc.2⟩))

theorem mem_uses_of_mergeTargets {m : Id}
    (h : merge?.bind Instruction.mergeTargets? = some (m, none)) :
    ∃ i, merge? = some i ∧ i.opcode = .selectionMerge ∧ i.idOperand? 0 = some m := by
  obtain ⟨i, rfl, hi⟩ := Option.bind_eq_some_iff.mp h
  refine ⟨i, rfl, ?_⟩
  unfold Instruction.mergeTargets? at hi
  split at hi
  · rename_i ho
    exact ⟨ho, by simpa using hi⟩
  · obtain ⟨_, -, hi⟩ := Option.bind_eq_some_iff.mp hi
    obtain ⟨_, -, hi⟩ := Option.bind_eq_some_iff.mp hi
    cases hi
  · cases hi

theorem hasReadableTargets (h : EndsAs T ids T' merge? t merge?' t')
    (ht : t.hasReadableTargets = true) : t'.hasReadableTargets = true := by
  cases h with
  | same => exact ht
  | fold => rfl
  | narrow => rfl

theorem mergeFits (h : EndsAs T ids T' merge? t merge?' t') (hfits : MergeFits merge? t) :
    MergeFits merge?' t' := by
  cases h with
  | same => exact hfits
  | fold => simp [MergeFits]
  | narrow => simp [MergeFits, Instruction.selectionMerge, Instruction.branchConditional]

/-- The results of a new end are results of the old one: it has none of its own. -/
theorem results_sublist (h : EndsAs T ids T' merge? t merge?' t') :
    ((merge?'.toList ++ [t']).filterMap Instruction.result?).Sublist
      ((merge?.toList ++ [t]).filterMap Instruction.result?) := by
  cases h with
  | same => exact .refl _
  | fold => simp [Instruction.branch]
  | narrow => simp [Instruction.selectionMerge, Instruction.branchConditional]

theorem mem_blockRefs (h : EndsAs T ids T' merge? t merge?' t')
    (hi : i ∈ merge?'.toList ++ [t']) (hl : l ∈ i.blockRefs) :
    ∃ j ∈ merge?.toList ++ [t], l ∈ j.blockRefs := by
  cases h with
  | same => exact ⟨i, hi, hl⟩
  | @fold T₁ ids₁ live m grows taken declares =>
    obtain rfl : i = .branch live := by simpa using hi
    obtain rfl : l = live := by
      simpa [Instruction.mem_blockRefs, Instruction.branchTargets, Instruction.branch,
        Instruction.idOperand?, Instruction.mergeTargets?, Opcode.isPhi] using hl
    exact ⟨t, by simp, Instruction.mem_blockRefs.mpr
      (.inl (ConstantTable.mem_branchTargets_of_takenTarget? taken))⟩
  | @narrow T₁ ids₁ live m cond value grows taken declares condition =>
    have hl : l = live ∨ l = m := by
      have hi : i = .selectionMerge m ∨ i = .branchConditional cond
          (if value then live else m) (if value then m else live) := by simpa using hi
      rcases hi with rfl | rfl
      · right
        simpa [Instruction.mem_blockRefs, Instruction.branchTargets, Instruction.selectionMerge,
          Instruction.idOperand?, Instruction.mergeTargets?, Opcode.isPhi] using hl
      · cases value <;> simpa [Instruction.mem_blockRefs, Instruction.branchTargets,
          Instruction.branchConditional, Instruction.mergeTargets?, Opcode.isPhi, or_comm] using hl
    rcases hl with rfl | rfl
    · exact ⟨t, by simp, Instruction.mem_blockRefs.mpr
        (.inl (ConstantTable.mem_branchTargets_of_takenTarget? taken))⟩
    · obtain ⟨j, rfl, hj⟩ := Option.bind_eq_some_iff.mp declares
      exact ⟨j, by simp, Instruction.mem_blockRefs.mpr (.inr (.inl ⟨_, hj, .inl rfl⟩))⟩

/-- A new end mentions what the old one mentioned, and perhaps the constant `true`. -/
theorem mem_uses (h : EndsAs T ids T' merge? t merge?' t')
    (hi : i ∈ merge?'.toList ++ [t']) (hx : x ∈ i.uses) :
    (∃ j ∈ merge?.toList ++ [t], x ∈ j.uses) ∨ T'.true? = some x := by
  cases h with
  | same => exact .inl ⟨i, hi, hx⟩
  | @fold T₁ ids₁ live m grows taken declares =>
    obtain rfl : i = .branch live := by simpa using hi
    obtain rfl : x = live := by simpa [Instruction.uses, Instruction.branch] using hx
    exact .inl ⟨t, by simp, Instruction.mem_uses_of_mem_branchTargets
      (ConstantTable.mem_branchTargets_of_takenTarget? taken)⟩
  | @narrow T₁ ids₁ live m cond value grows taken declares condition =>
    have hx : x = cond ∨ x = live ∨ x = m := by
      have hi : i = .selectionMerge m ∨ i = .branchConditional cond
          (if value then live else m) (if value then m else live) := by simpa using hi
      rcases hi with rfl | rfl
      · exact .inr (.inr (by simpa [Instruction.uses, Instruction.selectionMerge] using hx))
      · cases value <;>
          simpa [Instruction.uses, Instruction.branchConditional, or_comm] using hx
    rcases hx with rfl | rfl | rfl
    · rcases condition with ⟨hc, -⟩ | ⟨-, htrue⟩
      · exact .inl ⟨t, by simp, Instruction.mem_uses_of_idOperand? hc⟩
      · exact .inr htrue
    · exact .inl ⟨t, by simp, Instruction.mem_uses_of_mem_branchTargets
        (ConstantTable.mem_branchTargets_of_takenTarget? taken)⟩
    · obtain ⟨j, rfl, -, hj⟩ := mem_uses_of_mergeTargets declares
      exact .inl ⟨j, by simp, Instruction.mem_uses_of_idOperand? hj⟩

end EndsAs

/-! ## 2. Blocks -/

/-- What folding makes of a block: it keeps its label and its body, and its end may change. -/
def FoldsTo (T : ConstantTable) (ids : IdSupply) (T' : ConstantTable) (k k' : Block) : Prop :=
  k'.label = k.label ∧ ∃ body merge? t merge?' t',
    k.Parts body merge? t ∧ k'.Parts body merge?' t' ∧ EndsAs T ids T' merge? t merge?' t'

namespace FoldsTo

variable {k k' : Block} {f : Function}

theorem phis (h : FoldsTo T ids T' k k') : k'.phis = k.phis := by
  obtain ⟨-, body, merge?, t, merge?', t', hp, hp', -⟩ := h
  rw [hp.phis_eq, hp'.phis_eq]

theorem results_sublist (h : FoldsTo T ids T' k k') :
    (k'.instructions.filterMap Instruction.result?).Sublist
      (k.instructions.filterMap Instruction.result?) := by
  obtain ⟨-, body, merge?, t, merge?', t', hp, hp', hend⟩ := h
  simpa only [hp.eq, hp'.eq, List.append_assoc, List.filterMap_append] using
    (List.Sublist.refl (body.filterMap Instruction.result?)).append hend.results_sublist

/-- A block stays sound. -/
theorem soundBlock (h : FoldsTo T ids T' k k') (hs : f.SoundBlock k) : f.SoundBlock k' := by
  obtain ⟨-, body, merge?, t, merge?', t', hp, hp', hend⟩ := h
  obtain ⟨_, _, _, hp₀, hfits⟩ := hs.parts
  obtain ⟨rfl, rfl, rfl⟩ := hp.unique hp₀
  refine ⟨⟨_, _, _, hp', hend.mergeFits hfits⟩, ?_, ?_⟩
  · have hphis := hs.phis
    rw [hp.eq, List.append_assoc, phisLead_append_iff hp.end_not_phi] at hphis
    rw [hp'.eq, List.append_assoc, phisLead_append_iff hp'.end_not_phi]
    exact hphis
  · intro i hi l hl
    rw [hp'.eq, List.append_assoc] at hi
    rcases List.mem_append.mp hi with hi | hi
    · exact hs.refs i (by simp [hp.eq, hi]) l hl
    · obtain ⟨j, hj, hl⟩ := hend.mem_blockRefs hi hl
      exact hs.refs j (by rw [hp.eq, List.append_assoc]; exact List.mem_append_right _ hj) l hl

end FoldsTo

/-! ## 3. One block after the other -/

/-- The state after the visits to some blocks of a coherent function. -/
structure Progress (f : Function) (T : ConstantTable) (ids : IdSupply) (done : List BlockKey)
    (s : Folding) : Prop where
  source : f.Coherent
  frame : f.SameFrame s.function
  reachable : s.reachable = s.function.reachable
  grows : T.Grows (fun _ => False) ids s.constants s.ids
  todo : ∀ b, b ∉ done → s.function.block? b = f.block? b
  block : ∀ b ∈ f.layout, ∀ k, f.block? b = some k →
    ∃ k', s.function.block? b = some k' ∧ FoldsTo T ids s.constants k k'

variable {f : Function} {s s' : Folding} {b : BlockKey} {e : HeaderEdit} {done : List BlockKey}

/-- A step asks for constants only. -/
theorem Ending.grows {sel : SelectionBranch} {live : Id} {edges : List Id}
    (h : Ending s b sel live merge? t edges T' ids') :
    s.constants.Grows (fun _ => False) s.ids T' ids' := by
  cases h with
  | fold => exact .refl
  | narrow ne illegal legal condition =>
    rcases (condition_cases condition).2 with ⟨-, -, hT, hids⟩ | ⟨-, -, htrue⟩
    · rw [hT, hids]
      exact .refl
    · exact ConstantTable.Grows.refl.trueConstant htrue

theorem Ending.endsAs {sel : SelectionBranch} {live : Id} {edges : List Id}
    {t' : Instruction} (h : Ending s b sel live merge?' t' edges T' ids')
    (hgrows : T.Grows (fun _ => False) ids s.constants s.ids)
    (htaken : s.constants.takenTarget? t = some live) (hcond : t.idOperand? 0 = some sel.condition)
    (hdecl : merge?.bind Instruction.mergeTargets? = some (sel.merge, none)) :
    EndsAs T ids T' merge? t merge?' t' := by
  cases h with
  | fold => exact .fold hgrows htaken hdecl
  | narrow ne illegal legal condition =>
    refine .narrow hgrows htaken hdecl ?_
    rcases (condition_cases condition).2 with ⟨hv, rfl, -, -⟩ | ⟨-, hv, htrue⟩
    · exact .inl ⟨hcond, hv⟩
    · exact .inr ⟨hv, ConstantTable.true?_trueConstant htrue⟩

theorem Step.foldsTo (h : Step s b e s')
    (hgrows : T.Grows (fun _ => False) ids s.constants s.ids) :
    FoldsTo T ids s'.constants e.block e.newBlock := by
  obtain ⟨i, hp⟩ := h.parts
  obtain ⟨j, hj, ho, -, hm, hc, hb⟩ := hp.selection?_eq_some_iff.mp h.selection
  refine ⟨rfl, e.body, some i, e.branch, e.newMerge?, e.newBranch, hp, h.newParts,
    h.ending.endsAs hgrows h.taken hc ?_⟩
  cases hj
  simp [Instruction.mergeTargets?, ho, hm]

/-- **A step is progress.** -/
theorem Progress.step (hs : Progress f T ids done s) (hnew : b ∉ done) (h : Step s b e s') :
    Progress f T ids (done ++ [b]) s' := by
  have hblock : f.block? b = some e.block := (hs.todo b hnew).symm.trans h.block
  refine ⟨hs.source, hs.frame.trans h.frame, h.reachable, hs.grows.trans h.ending.grows, ?_, ?_⟩
  · intro c hc
    obtain ⟨hcd, hcb⟩ : c ∉ done ∧ c ≠ b := by simpa using hc
    rw [h.block?_of_ne hcb, hs.todo c hcd]
  · intro c hc k hk
    by_cases hcb : c = b
    · subst hcb
      rw [hblock] at hk
      cases hk
      exact ⟨_, h.block?_self, h.foldsTo hs.grows⟩
    · obtain ⟨k', hk', hl, body, merge?, t, merge?', t', hp, hp', hend⟩ := hs.block c hc k hk
      exact ⟨k', (h.block?_of_ne hcb).trans hk', hl, body, merge?, t, merge?', t', hp, hp',
        hend.mono (fun x hx => h.ending.grows.true?_mono hx)⟩

theorem Progress.coherent (hs : Progress f T ids done s) : s.function.Coherent :=
  hs.frame.coherent hs.source

theorem Progress.bodyIds_sublist (hs : Progress f T ids done s) :
    s.function.bodyIds.Sublist f.bodyIds := by
  refine Function.bodyIds_sublist (by rw [hs.frame.layout]) (fun b _ => hs.frame.label? b)
    (fun b hb => ?_)
  rw [hs.frame.layout] at hb
  obtain ⟨k, hk, -⟩ := hs.source.exists_block hb
  obtain ⟨k', hk', hfold⟩ := hs.block b hb k hk
  rw [Function.instructions_of_block? hk, Function.instructions_of_block? hk']
  exact hfold.results_sublist

theorem Progress.soundBlocks (hs : Progress f T ids done s) (hsound : f.SoundBlocks) :
    s.function.SoundBlocks := by
  intro b hb k' hk'
  rw [hs.frame.layout] at hb
  obtain ⟨k, hk, -⟩ := hs.source.exists_block hb
  obtain ⟨k₁, hk₁, hfold⟩ := hs.block b hb k hk
  obtain rfl : k₁ = k' := Option.some.inj (hk₁.symm.trans hk')
  exact hs.frame.soundBlock_iff.mpr (hfold.soundBlock (hsound b hb k hk))

/-! ## 4. The run -/

/-- **A run that is not marked as a change is none.** -/
theorem run_quiet (h : run f T ids = .ok s) (hquiet : s.changed = false) :
    s = ⟨f, T, ids, f.reachable, false⟩ := by
  obtain ⟨order, -, hrun⟩ := bind_eq_ok.mp h
  exact (foldlM_quiet (Q := fun s => s.changed = false) hrun hquiet
    (fun s b s' hvisit hq => visit_quiet hvisit hq ▸ hq)
    (fun b _ s' hvisit hq => visit_quiet hvisit hq)).1

/-- **A run has nothing to do exactly if no reachable header is open.** -/
theorem run_eq_iff (hf : f.Coherent) (hread : f.Readable) :
    run f T ids = .ok ⟨f, T, ids, f.reachable, false⟩ ↔
      ∀ b, f.Reached b → f.isOpen T b = false := by
  have hrun : run f T ids = f.structuredOrder.foldlM visit ⟨f, T, ids, f.reachable, false⟩ := by
    rw [run, hread.readStructuredOrder_eq_ok]
    rfl
  rw [hrun]
  constructor
  · intro h b hb
    have hvisit := (foldlM_quiet (Q := fun s => s.changed = false) h rfl
      (fun s b s' hvisit hq => visit_quiet hvisit hq ▸ hq)
      (fun b _ s' hvisit hq => visit_quiet hvisit hq)).2 b (Function.mem_structuredOrder hf hb)
    by_contra hopen
    obtain ⟨e, he⟩ := rewrite_of_visit hf rfl ((Function.contains_reachable_iff hf).mpr hb)
      (by simpa using hopen) hvisit
    cases he.changed
  · intro h
    refine foldlM_fixed (fun b _ => visit_of_not_isOpen rfl (fun hlive => h b ?_))
    exact (Function.contains_reachable_iff hf).mp hlive

/-- **Induction over the steps of a run.** -/
theorem run_induct {P : Folding → Prop} (hf : f.Coherent) (hparts : f.HasParts)
    (h : run f T ids = .ok s) (hstart : P ⟨f, T, ids, f.reachable, false⟩)
    (hstep : ∀ done s b e s', Progress f T ids done s → b ∉ done → b ∈ f.layout → P s →
      Step s b e s' → P s') :
    Progress f T ids f.structuredOrder s ∧ P s := by
  obtain ⟨order, horder, hrun⟩ := bind_eq_ok.mp h
  obtain ⟨-, -, horder⟩ := bind_eq_ok.mp horder
  obtain rfl : f.structuredOrder = order := Except.ok.inj horder
  have hnodup := Function.nodup_structuredOrder hf
  refine foldlM_induct_done (P := fun done s => Progress f T ids done s ∧ P s) hrun
    ⟨⟨hf, .refl f, rfl, .refl, fun _ _ => rfl, ?_⟩, hstart⟩ ?_
  · intro b hb k hk
    obtain ⟨body, merge?, t, hp⟩ := hparts b hb k hk
    exact ⟨k, hk, rfl, body, merge?, t, merge?, t, hp, hp, .same⟩
  · rintro before b after s s' hsplit ⟨hs, hP⟩ hvisit
    have hnew : b ∉ before := by
      rw [hsplit] at hnodup
      exact fun hmem => (List.nodup_append.mp hnodup).2.2 b hmem b (by simp) rfl
    have hb : b ∈ f.layout :=
      Function.mem_layout_of_mem_structuredOrder hf (by rw [hsplit]; simp)
    have hbparts : ∀ k, s.function.block? b = some k → ∃ body merge? t, k.Parts body merge? t := by
      rw [hs.todo b hnew]
      exact hparts b hb
    rcases visit_cases hs.coherent hs.reachable hbparts hvisit with rfl | ⟨e, he⟩
    · refine ⟨⟨hs.source, hs.frame, hs.reachable, hs.grows, fun c hc => hs.todo c ?_, hs.block⟩, hP⟩
      exact fun hmem => hc (by simp [hmem])
    · exact ⟨hs.step hnew he, hstep before s b e s' hs hnew hb hP he⟩

/-- **A run that is marked as a change has given a block another terminator.** -/
theorem run_changed (hf : f.Coherent) (hparts : f.HasParts) (h : run f T ids = .ok s)
    (hchanged : s.changed = true) :
    ∃ b ∈ f.layout, (s.function.block? b).bind Block.terminator? ≠
      (f.block? b).bind Block.terminator? := by
  refine (run_induct (P := fun s => s.changed = true → ∃ b ∈ f.layout,
    (s.function.block? b).bind Block.terminator? ≠ (f.block? b).bind Block.terminator?) hf hparts h
    (fun hstart => by cases hstart) ?_).2 hchanged
  -- no block is visited twice, so the header has its first terminator before the step
  intro done s b e s' hprogress hnew hb _ he _
  obtain ⟨i, hp⟩ := he.parts
  refine ⟨b, hb, ?_⟩
  rw [he.block?_self, ← hprogress.todo b hnew, he.block, Option.bind_some, Option.bind_some,
    he.newParts.terminator?_eq, hp.terminator?_eq]
  exact fun hsame => he.differs (Option.some.inj hsame)

/-- **Induction over the changes of a run**, for a function with blocks of any shape. -/
theorem run_induct_rewrite {P : Folding → Prop} (hf : f.Coherent) (h : run f T ids = .ok s)
    (hstart : P ⟨f, T, ids, f.reachable, false⟩)
    (hstep : ∀ s b e s', P s → Rewrite s b e s' → P s') : f.SameFrame s.function ∧ P s := by
  obtain ⟨order, -, hrun⟩ := bind_eq_ok.mp h
  have hend : f.SameFrame s.function ∧ s.reachable = s.function.reachable ∧ P s := by
    refine foldlM_induct (P := fun s => f.SameFrame s.function ∧
      s.reachable = s.function.reachable ∧ P s) hrun ⟨.refl f, rfl, hstart⟩ ?_
    rintro s b s' - ⟨hframe, hreach, hP⟩ hvisit
    rcases visit_rewrites (hframe.coherent hf) hreach hvisit with rfl | ⟨e, he⟩
    · exact ⟨hframe, hreach, hP⟩
    · exact ⟨hframe.trans he.frame, he.reachable, hstep s b e s' hP he⟩
  exact ⟨hend.1, hend.2.2⟩

/-- The definitions after a step are among those before it. -/
theorem Step.definedIn? (h : Step s b e s') (hu : s.function.Unique) (hu' : s'.function.Unique)
    {d : BlockKey} (hx : s'.function.definedIn? x = some d) : s.function.definedIn? x = some d := by
  refine Function.definedIn?_of_results hu hu' h.frame.layout (fun c _ j hj y hy => ?_) hx
  by_cases hc : c = b
  · subst hc
    have hfold : FoldsTo s.constants s.ids s'.constants e.block e.newBlock := h.foldsTo .refl
    rw [Function.instructions_of_block? h.block?_self] at hj
    rw [Function.instructions_of_block? h.block]
    have hmem := hfold.results_sublist.subset (List.mem_filterMap.mpr ⟨j, hj, hy⟩)
    simpa using hmem
  · rw [h.instructions_of_ne hc] at hj
    exact ⟨j, hj, hy⟩

/-- **A step leaves every use dominated by its definition**, since its proposal did. -/
theorem Step.inOrder (h : Step s b e s') (hu : s.function.Unique) (hu' : s'.function.Unique)
    (htrue : ∀ x, s'.constants.true? = some x → x ∉ s'.function.bodyIds) :
    s'.function.InOrderBy s'.function.targets := by
  obtain ⟨-, body, merge?, t, merge?', t', hp, hp', hend⟩ :
    FoldsTo s.constants s.ids s'.constants e.block e.newBlock := h.foldsTo .refl
  have hold : s.function.instructions b = body ++ (merge?.toList ++ [t]) := by
    rw [Function.instructions_of_block? h.block, hp.eq, List.append_assoc]
  have hnew : s'.function.instructions b = body ++ (merge?'.toList ++ [t']) := by
    rw [Function.instructions_of_block? h.block?_self, hp'.eq, List.append_assoc]
  refine h.redirected.inOrderBy (fun x d => h.definedIn? hu hu') hold hnew hp.end_not_phi
    hp'.end_not_phi (fun i hi x hx => ?_) h.legal.inOrder
  refine (hend.mem_uses hi hx).imp_right (fun hxtrue => ?_)
  refine Option.eq_none_iff_forall_ne_some.mpr (fun d hd => htrue x hxtrue ?_)
  obtain ⟨hdl, j, hj, hjx⟩ := hu'.definedIn?_eq_some_iff.mp hd
  exact Function.mem_bodyIds.mpr (.inr ⟨d, hdl, j, hj, hjx⟩)

/-- **After a change every use is dominated by its definition.** -/
theorem run_inOrder (hf : f.Coherent) (hparts : f.HasParts) (hn : f.bodyIds.Nodup)
    (htrue : ∀ T' ids' x, T.Grows (fun _ => False) ids T' ids' → T'.true? = some x →
      x ∉ f.bodyIds) (h : run f T ids = .ok s) (hchanged : s.changed = true) :
    s.function.InOrderBy s.function.targets := by
  refine (run_induct (P := fun s => s.changed = true → s.function.InOrderBy s.function.targets)
    hf hparts h (fun hc => by cases hc) ?_).2 hchanged
  intro done s b e s' hs hnew _ _ hstep _
  have hs' := hs.step hnew hstep
  refine hstep.inOrder (Function.unique_of_nodup (hn.sublist hs.bodyIds_sublist))
    (Function.unique_of_nodup (hn.sublist hs'.bodyIds_sublist)) (fun x hx hmem => ?_)
  exact htrue _ _ x hs'.grows hx (hs'.bodyIds_sublist.subset hmem)

end ShaderIR.Folding
