import ShaderIR.DeadBranch.Folding
import ShaderIR.Proofs.Block.Parts
import ShaderIR.Proofs.DeadBranch.Proposals
import ShaderIR.Proofs.Instruction.Branches

/-!
# What a visit does

A visit of the folding pass either leaves everything as it is or gives one header a new ending.
`Folding.Rewrite` says what the second case means, and `Folding.Step` says it of a block that is made
of its parts; the run of the pass is then a chain of such steps.

* `visit_of_not_isOpen`, `rewrite_of_visit`: a visit changes something exactly at an open header;
* `visit_rewrites`, `visit_cases`: the two cases of a visit, for blocks of any shape and for finished
  ones;
* `Step.reached_iff`: what can be reached after a step.
-/

namespace ShaderIR

/-! ## 1. Open headers -/

namespace Function

/-- Whether the branch of a header is already the one that keeps the merge block. -/
def isNarrowed (T : ConstantTable) (sel : SelectionBranch) (live : Id) : Bool :=
  match T.bool? sel.condition with
  | some value => sel.branch = .branchConditional sel.condition
      (if value then live else sel.merge) (if value then sel.merge else live)
  | none => false

/-- Whether a block is a header that folding would give a new ending. -/
def isOpen (f : Function) (T : ConstantTable) (b : BlockKey) : Bool :=
  match (f.block? b).bind Block.selection? with
  | some sel =>
    match T.takenTarget? sel.branch with
    | some live =>
      match f.verdict f.reachable b live sel.merge with
      | .fold => true
      | .keepMerge => !isNarrowed T sel live
      | .reject => false
    | none => false
  | none => false

end Function

namespace Folding

variable {s s' : Folding} {b c : BlockKey} {k : Block} {body : List Instruction} {t : Instruction}
  {sel : SelectionBranch} {live : Id}

/-- A header is not open if nothing is to be done about it: the visit changes nothing. -/
theorem visit_of_not_isOpen (hr : s.reachable = s.function.reachable)
    (h : s.reachable.contains b = true → s.function.isOpen s.constants b = false) :
    s.visit b = .ok s := by
  unfold visit
  split
  · rename_i hlive
    have hopen := h hlive
    unfold Function.isOpen at hopen
    split
    · rename_i sel hsel
      rw [hsel] at hopen
      split
      · rename_i live htaken
        simp only [htaken] at hopen
        unfold apply
        rw [hr]
        generalize s.function.verdict s.function.reachable b live sel.merge = verdict at hopen ⊢
        cases verdict with
        | fold => cases hopen
        | keepMerge =>
          have hnarrow : Function.isNarrowed s.constants sel live = true := by simpa using hopen
          unfold Function.isNarrowed at hnarrow
          split at hnarrow
          · rename_i value hvalue
            have hbranch := of_decide_eq_true hnarrow
            simp only [keepMerge, condition, hvalue, bind, Except.bind]
            rw [if_pos hbranch]
          · cases hnarrow
        | reject => rfl
      · rfl
    · rfl
  · rfl

/-! ## 2. Steps -/

/-- A new ending for a header: the header as it was, where its branch always goes, and what takes
the place of merge declaration and branch. -/
structure HeaderEdit where
  /-- The header before the edit. -/
  block : Block
  /-- Its instructions up to the merge declaration. -/
  body : List Instruction
  /-- Its branch. -/
  branch : Instruction
  /-- Its selection. -/
  selection : SelectionBranch
  /-- Where the branch always goes. -/
  live : Id
  /-- The new merge declaration, if any. -/
  newMerge? : Option Instruction
  /-- The new branch. -/
  newBranch : Instruction
  /-- The edges that were proposed. -/
  edges : List Id

/-- The header after the edit. -/
def HeaderEdit.newBlock (e : HeaderEdit) : Block :=
  ⟨e.block.label, e.body ++ e.newMerge?.toList ++ [e.newBranch]⟩

/-- What the header gets: a plain branch, or a conditional branch on a constant that keeps the merge
block. -/
inductive Ending (s : Folding) (b : BlockKey) (sel : SelectionBranch) (live : Id) :
    Option Instruction → Instruction → List Id → ConstantTable → IdSupply → Prop
  | fold (legal : s.function.Legal b [live]) :
      Ending s b sel live none (.branch live) [live] s.constants s.ids
  | narrow {cond : Id} {value : Bool} {s₁ : Folding} (ne : live ≠ sel.merge)
      (illegal : ¬ s.function.Legal b [live]) (legal : s.function.Legal b [live, sel.merge])
      (condition : s.condition sel = .ok (cond, value, s₁)) :
      Ending s b sel live (some (.selectionMerge sel.merge))
        (.branchConditional cond (if value then live else sel.merge)
          (if value then sel.merge else live))
        [live, sel.merge] s₁.constants s₁.ids

/-- A reachable header on a constant, in a coherent function, got a new ending. -/
structure Rewrite (s : Folding) (b : BlockKey) (e : HeaderEdit) (s' : Folding) : Prop where
  source : s.function.Coherent
  reached : s.function.Reached b
  block : s.function.block? b = some e.block
  header : ∃ i, e.block.instructions = e.body ++ [i, e.branch] ∧ i.opcode = .selectionMerge
  selection : e.block.selection? = some e.selection
  branch : e.selection.branch = e.branch
  taken : s.constants.takenTarget? e.branch = some e.live
  ending : Ending s b e.selection e.live e.newMerge? e.newBranch e.edges s'.constants s'.ids
  function : s'.function = s.function.setInstructions b e.newBlock.instructions
  reachable : s'.reachable = s'.function.reachable
  changed : s'.changed = true
  differs : e.newBranch ≠ e.branch

/-- The same for a header that is made of its parts. -/
structure Step (s : Folding) (b : BlockKey) (e : HeaderEdit) (s' : Folding) : Prop
    extends Rewrite s b e s' where
  parts : ∃ i, e.block.Parts e.body (some i) e.branch

theorem condition_cases {cond : Id} {value : Bool} {s₁ : Folding}
    (h : s.condition sel = .ok (cond, value, s₁)) :
    s₁ = { s with constants := s₁.constants, ids := s₁.ids } ∧
      ((s.constants.bool? sel.condition = some value ∧ cond = sel.condition ∧
          s₁.constants = s.constants ∧ s₁.ids = s.ids) ∨
        (s.constants.bool? sel.condition = none ∧ value = true ∧
          s.constants.trueConstant s.ids = .ok (cond, s₁.constants, s₁.ids))) := by
  unfold condition at h
  split at h
  · rename_i v hv
    cases h
    exact ⟨rfl, .inl ⟨hv, rfl, rfl, rfl⟩⟩
  · rename_i hv
    obtain ⟨⟨id, T, ids⟩, htrue, h⟩ := bind_eq_ok.mp h
    cases h
    exact ⟨rfl, .inr ⟨hv, rfl, htrue⟩⟩

/-- A conditional branch that always goes to one label is on a known boolean. -/
theorem bool?_of_takenTarget? (hc : sel.branch.idOperand? 0 = some sel.condition)
    (ho : sel.branch.opcode = .branchConditional)
    (htaken : s.constants.takenTarget? sel.branch = some live) :
    s.constants.bool? sel.condition ≠ none := by
  intro hnone
  unfold ConstantTable.takenTarget? at htaken
  simp [ho, hc, hnone] at htaken

theorem keepMerge_eq_ok {i : Instruction} (heq : k.instructions = body ++ [i, sel.branch])
    (hc : sel.branch.idOperand? 0 = some sel.condition) (hk : s.function.block? b = some k)
    (htaken : s.constants.takenTarget? sel.branch = some live)
    (hnot : Function.isNarrowed s.constants sel live = false)
    (h : s.keepMerge b sel live = .ok s') :
    ∃ cond value s₁, s.condition sel = .ok (cond, value, s₁) ∧
      sel.branch ≠ .branchConditional cond (if value then live else sel.merge)
        (if value then sel.merge else live) ∧
      s' = s₁.edited (s.function.setInstructions b (body ++ [.selectionMerge sel.merge,
        .branchConditional cond (if value then live else sel.merge)
          (if value then sel.merge else live)])) := by
  unfold keepMerge at h
  obtain ⟨⟨cond, value, s₁⟩, hcond, h⟩ := bind_eq_ok.mp h
  obtain ⟨hs₁, hcases⟩ := condition_cases hcond
  have hfun : s₁.function = s.function := by rw [hs₁]
  -- the branch cannot have the narrowed form yet
  have hne : sel.branch ≠ .branchConditional cond (if value then live else sel.merge)
      (if value then sel.merge else live) := by
    intro he
    rcases hcases with ⟨hv, rfl, -, -⟩ | ⟨hv, -, -⟩
    · simp [Function.isNarrowed, hv] at hnot
      exact hnot he
    · exact bool?_of_takenTarget? hc (by rw [he]; rfl) htaken hv
  refine ⟨cond, value, s₁, hcond, hne, ?_⟩
  simp only [if_neg hne] at h
  obtain ⟨g, hg, h⟩ := bind_eq_ok.mp h
  cases h
  obtain ⟨k₀, k', hk₀, hedit, rfl⟩ := Function.editBlock_eq_ok
    (fun _ _ => Block.label_narrowSelection) hg
  rw [hfun, hk] at hk₀
  cases hk₀
  rw [Block.narrowSelection_eq_ok heq hedit, hfun]

/-- A header that keeps its branch costs nothing: no constant is made for it. -/
theorem keepMerge_quiet (hc : sel.branch.idOperand? 0 = some sel.condition)
    (htaken : s.constants.takenTarget? sel.branch = some live)
    (h : s.keepMerge b sel live = .ok s') (hquiet : s'.changed = false) : s' = s := by
  unfold keepMerge at h
  obtain ⟨⟨cond, value, s₁⟩, hcond, h⟩ := bind_eq_ok.mp h
  obtain ⟨hs₁, hcases⟩ := condition_cases hcond
  by_cases hbranch : sel.branch = .branchConditional cond (if value then live else sel.merge)
      (if value then sel.merge else live)
  · simp only [if_pos hbranch] at h
    cases h
    rcases hcases with ⟨-, -, hT, hids⟩ | ⟨hnone, -, -⟩
    · rw [hT, hids] at hs₁
      exact hs₁
    · exact absurd hnone (bool?_of_takenTarget? hc (by rw [hbranch]; rfl) htaken)
  · simp only [if_neg hbranch] at h
    obtain ⟨g, -, h⟩ := bind_eq_ok.mp h
    cases h
    cases hquiet

/-- **A visit that is not marked as a change is none.** -/
theorem visit_quiet (h : s.visit b = .ok s') (hquiet : s'.changed = false) : s' = s := by
  unfold visit at h
  split at h
  · split at h
    · rename_i sel hsel
      obtain ⟨k, -, hksel⟩ := Option.bind_eq_some_iff.mp hsel
      obtain ⟨-, -, -, -, -, -, hc⟩ := Block.exists_end_of_selection? hksel
      split at h
      · rename_i live htaken
        unfold apply at h
        split at h
        · obtain ⟨g, -, h⟩ := bind_eq_ok.mp h
          cases h
          cases hquiet
        · exact keepMerge_quiet hc htaken h hquiet
        · cases h
          rfl
      · cases h
        rfl
    · cases h
      rfl
  · cases h
    rfl

/-- **A visit of an open header gives it a new ending.** -/
theorem rewrite_of_visit (hf : s.function.Coherent) (hr : s.reachable = s.function.reachable)
    (hlive : s.reachable.contains b = true) (hopen : s.function.isOpen s.constants b = true)
    (h : s.visit b = .ok s') :
    ∃ e, Rewrite s b e s' := by
  unfold visit at h
  unfold Function.isOpen at hopen
  rw [if_pos hlive] at h
  have hreached : s.function.Reached b := by
    rw [hr] at hlive
    exact (Function.contains_reachable_iff hf).mp hlive
  split at hopen
  · rename_i sel hsel
    obtain ⟨k, hk, hksel⟩ := Option.bind_eq_some_iff.mp hsel
    obtain ⟨body, i, heq, hi, -, -, hc⟩ := Block.exists_end_of_selection? hksel
    split at hopen
    · rename_i live htaken
      simp only [hsel, htaken, apply, hr] at h
      split at hopen
      · rename_i hv
        have hlegal := (Function.verdict_eq_fold_iff hf).mp hv
        rw [hv] at h
        obtain ⟨g, hg, h⟩ := bind_eq_ok.mp h
        cases h
        obtain ⟨k₀, k', hk₀, hedit, rfl⟩ := Function.editBlock_eq_ok
          (fun _ _ => Block.label_foldSelection) hg
        rw [hk] at hk₀
        cases hk₀
        rw [Block.foldSelection_eq_ok heq hedit]
        refine ⟨⟨k, body, sel.branch, sel, live, none, .branch live, [live]⟩, hf, hreached, hk,
          ⟨i, heq, hi⟩, hksel, rfl, htaken, .fold hlegal, by simp [edited, HeaderEdit.newBlock],
          rfl, rfl, ?_⟩
        rintro (hsame : .branch live = sel.branch)
        rcases ConstantTable.isBranch_of_takenTarget? htaken with ho | ho <;>
          rw [← hsame] at ho <;> cases ho
      · rename_i hv
        obtain ⟨hill, hne, hlegal⟩ := (Function.verdict_eq_keepMerge_iff hf).mp hv
        rw [hv] at h
        have hnot : Function.isNarrowed s.constants sel live = false := by simpa using hopen
        obtain ⟨cond, value, s₁, hcond, hne', rfl⟩ := keepMerge_eq_ok heq hc hk htaken hnot h
        have hending := Ending.narrow hne hill hlegal hcond
        refine ⟨⟨k, body, sel.branch, sel, live, some (.selectionMerge sel.merge), _,
          [live, sel.merge]⟩, hf, hreached, hk, ⟨i, heq, hi⟩, hksel, rfl, htaken, hending, ?_, rfl,
          rfl, fun hsame => hne' hsame.symm⟩
        simp only [edited, HeaderEdit.newBlock, Option.toList_some, List.append_assoc,
          List.singleton_append, Instruction.branchConditional]
      · cases hopen
    · cases hopen
  · cases hopen

/-- **The two cases of a visit.** -/
theorem visit_rewrites (hf : s.function.Coherent) (hr : s.reachable = s.function.reachable)
    (h : s.visit b = .ok s') :
    s' = s ∨ ∃ e, Rewrite s b e s' := by
  by_cases hopen : s.reachable.contains b = true ∧ s.function.isOpen s.constants b = true
  · exact .inr (rewrite_of_visit hf hr hopen.1 hopen.2 h)
  · rw [visit_of_not_isOpen hr (fun hl => by simpa using fun ho => hopen ⟨hl, ho⟩)] at h
    cases h
    exact .inl rfl

/-- A new ending for a block that is made of its parts. -/
theorem Rewrite.step {e : HeaderEdit} (h : Rewrite s b e s')
    (hparts : ∃ body merge? t, e.block.Parts body merge? t) : Step s b e s' := by
  obtain ⟨body, merge?, t, hp⟩ := hparts
  obtain ⟨i, rfl, -, -, -, -, -⟩ := hp.selection?_eq_some_iff.mp h.selection
  obtain ⟨j, heq, -⟩ := h.header
  have hsame : e.body ++ [j, e.branch] = body ++ [i, t] := by
    rw [← heq, hp.eq]
    simp
  obtain ⟨rfl, hend⟩ := List.append_inj' hsame rfl
  obtain ⟨rfl, rfl⟩ : j = i ∧ e.branch = t := by simpa using hend
  exact ⟨h, j, hp⟩

theorem visit_cases (hf : s.function.Coherent) (hr : s.reachable = s.function.reachable)
    (hparts : ∀ k, s.function.block? b = some k → ∃ body merge? t, k.Parts body merge? t)
    (h : s.visit b = .ok s') :
    s' = s ∨ ∃ e, Step s b e s' := by
  rcases visit_rewrites hf hr h with hsame | ⟨e, he⟩
  · exact .inl hsame
  · exact .inr ⟨e, he.step (hparts _ he.block)⟩

/-! ## 3. The function after a step -/

namespace Ending

variable {merge? : Option Instruction} {t' : Instruction} {edges : List Id} {T : ConstantTable}
  {ids : IdSupply} {l : Id}

theorem isMerge (h : Ending s b sel live merge? t' edges T ids) :
    ∀ i, merge? = some i → i.opcode.isMerge = true := by
  cases h with
  | fold => simp
  | narrow =>
    rintro i ⟨⟩
    rfl

theorem isTerminator (h : Ending s b sel live merge? t' edges T ids) :
    t'.opcode.isTerminator = true := by
  cases h <;> rfl

theorem legal (h : Ending s b sel live merge? t' edges T ids) : s.function.Legal b edges := by
  cases h with
  | fold legal => exact legal
  | narrow ne illegal legal condition => exact legal

/-- The new branch goes along the proposed edges. -/
theorem mem_targets_iff (h : Ending s b sel live merge? t' edges T ids) :
    l ∈ t'.branchTargets ↔ l ∈ edges := by
  cases h with
  | fold => simp [Instruction.branchTargets, Instruction.branch, Instruction.idOperand?]
  | @narrow cond value s₁ =>
    cases value <;> simp [Instruction.branchTargets, Instruction.branchConditional, or_comm]

theorem results (h : Ending s b sel live merge? t' edges T ids) :
    (merge?.toList ++ [t']).filterMap Instruction.result? = [] := by
  cases h <;> rfl

/-- An edge to the merge block is only made if it leads to a block other than the entry: any other
would have been left out. -/
theorem eq_live_of_entry (h : Ending s b sel live merge? t' edges T ids) (hl : l ∈ edges)
    (he : ∀ c, s.function.blockOf? l = some c → s.function.entry? = some c) : l = live := by
  cases h with
  | fold => simpa using hl
  | narrow ne illegal legal condition =>
    rcases List.mem_pair.mp hl with rfl | rfl
    · rfl
    · exact absurd (legal.of_merge_entry he) illegal

theorem blockOf?_of_mem_edges (h : Ending s b sel live merge? t' edges T ids) (hl : l ∈ edges) :
    l = live ∨ ∃ c, s.function.blockOf? l = some c := by
  by_cases hblock : ∃ c, s.function.blockOf? l = some c
  · exact .inr hblock
  · exact .inl (h.eq_live_of_entry hl (fun c hc => absurd ⟨c, hc⟩ hblock))

theorem mem_edges (h : Ending s b sel live merge? t' edges T ids) (hl : l ∈ edges) :
    l = live ∨ l = sel.merge := by
  cases h with
  | fold => exact .inl (by simpa using hl)
  | narrow => simpa using hl

end Ending

namespace Rewrite

variable {e : HeaderEdit}

theorem frame (h : Rewrite s b e s') : s.function.SameFrame s'.function := by
  rw [h.function]
  exact Function.sameFrame_setInstructions _ _ _

theorem coherent (h : Rewrite s b e s') : s'.function.Coherent := h.frame.coherent h.source

theorem block?_self (h : Rewrite s b e s') : s'.function.block? b = some e.newBlock := by
  rw [h.function, Function.block?_setInstructions, if_pos rfl, h.block]
  rfl

theorem block?_of_ne (h : Rewrite s b e s') (hc : c ≠ b) :
    s'.function.block? c = s.function.block? c := by
  rw [h.function, Function.block?_setInstructions, if_neg hc]

theorem instructions_of_ne (h : Rewrite s b e s') (hc : c ≠ b) :
    s'.function.instructions c = s.function.instructions c := by
  rw [Function.instructions, h.block?_of_ne hc, ← Function.instructions]

theorem targets_of_ne (h : Rewrite s b e s') (hc : c ≠ b) :
    s'.function.targets c = s.function.targets c := by
  rw [Function.targets, h.block?_of_ne hc, ← Function.targets]

theorem targets_self (h : Rewrite s b e s') :
    s'.function.targets b = e.newBranch.branchTargets := by
  have hlast : e.newBlock.terminator? = some e.newBranch := by
    rw [Block.terminator?, HeaderEdit.newBlock, List.getLast?_concat]
    exact Option.filter_eq_some_iff.mpr ⟨rfl, h.ending.isTerminator⟩
  rw [Function.targets_of_block? h.block?_self, Block.targets, hlast]
  rfl

theorem legal (h : Rewrite s b e s') : s.function.Legal b e.edges := h.ending.legal

/-- The header goes along the edges that were proposed, and all else is as it was. -/
theorem redirected (h : Rewrite s b e s') : s.function.Redirected s'.function b e.edges where
  frame := h.frame
  block? c hc := h.block?_of_ne hc
  edges l := by rw [h.targets_self, h.ending.mem_targets_iff]

/-- The branch that is replaced is the one that told where control goes. -/
theorem targets_before (h : Rewrite s b e s') :
    s.function.targets b = e.branch.branchTargets := by
  obtain ⟨i, heq, -⟩ := h.header
  have ht : e.branch.opcode.isTerminator = true := by
    rcases ConstantTable.isBranch_of_takenTarget? h.taken with ho | ho <;> rw [ho] <;> rfl
  have hlast : e.block.terminator? = some e.branch := by
    rw [Block.terminator?, heq]
    exact Option.filter_eq_some_iff.mpr ⟨by simp, ht⟩
  rw [Function.targets_of_block? h.block, Block.targets, hlast]
  rfl

/-- The phis of the header stay. -/
theorem phis_newBlock (h : Rewrite s b e s') : e.newBlock.phis = e.block.phis := by
  obtain ⟨i, heq, hi⟩ := h.header
  have hnew : e.newBlock.phis = e.body.takeWhile (fun i => i.opcode.isPhi) := by
    rw [HeaderEdit.newBlock, List.append_assoc]
    refine Block.phis_append (fun j hj => ?_)
    rcases List.mem_append.mp hj with hj | hj
    · exact Opcode.isPhi_of_isMerge (h.ending.isMerge j (by simpa using hj))
    · rw [List.mem_singleton.mp hj]
      exact Opcode.isPhi_of_isTerminator h.ending.isTerminator
  have hend : ∀ j ∈ [i, e.branch], j.opcode.isPhi = false := by
    intro j hj
    rcases List.mem_pair.mp hj with rfl | rfl
    · rw [hi]
      rfl
    · rcases ConstantTable.isBranch_of_takenTarget? h.taken with ho | ho <;> rw [ho] <;> rfl
  rw [hnew, ← Block.phis_append hend (l := e.block.label), ← heq]

/-- The new ending has no results. -/
theorem results_newBlock (h : Rewrite s b e s') :
    (e.newBlock.instructions.filterMap Instruction.result?).Sublist
      (e.block.instructions.filterMap Instruction.result?) := by
  obtain ⟨i, heq, -⟩ := h.header
  rw [HeaderEdit.newBlock, heq, List.append_assoc, List.filterMap_append, h.ending.results,
    List.append_nil, List.filterMap_append]
  exact List.sublist_append_left _ _

end Rewrite

namespace Step

variable {e : HeaderEdit}

theorem newParts (h : Step s b e s') : e.newBlock.Parts e.body e.newMerge? e.newBranch := by
  obtain ⟨i, hp⟩ := h.parts
  exact ⟨rfl, hp.body, h.ending.isMerge, h.ending.isTerminator⟩

/-- The edges after a step are those that were proposed. -/
theorem mem_resolve_iff (h : Step s b e s') (a : BlockKey) :
    c ∈ s'.function.resolve (s'.function.targets a) ↔
      c ∈ s.function.resolve (s.function.withTargets b e.edges a) :=
  h.redirected.mem_resolve_iff a

/-- **A step reaches what its proposal said it would.** -/
theorem reached_iff (h : Step s b e s') :
    s'.function.Reached c ↔ s.function.ReachedBy (s.function.withTargets b e.edges) c :=
  h.redirected.reached_iff

end Step

end Folding
end ShaderIR
