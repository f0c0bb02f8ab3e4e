import ShaderIR.Proofs.DeadBranch.Outcome

/-!
# How much there is to fold

A header can get a new ending at most twice: it may be narrowed, and it may be folded in the end.
So each header weighs two.  One that is narrowed already, to a merge block that control never gets
to, weighs one; a block that is no header weighs nothing.  The *workload* of a function is what its
blocks weigh together.

What makes this a measure is the notion of control that it rests on.  Narrowing a header can add an
edge, so what can be reached may become more.  What can be reached when every header on a known
constant goes only where it always goes (`decidedTargets`) never becomes more.

* `Lighter`: one function has no more to do than another;
* `Folding.Step.workload_lt`: a new ending makes the workload smaller;
* `Folding.run_newEnding`: where folding changes anything, a header has a new ending;
* `Phases.lighter`: nothing else makes it larger;
* `Phases.two_le_workload`: if a phi gives way to its value, the workload was at least two.
-/

namespace ShaderIR

/-- A selection branches from the end of its block. -/
theorem Block.terminator?_of_selection? {k : Block} {sel : SelectionBranch}
    (h : k.selection? = some sel) : k.terminator? = some sel.branch := by
  obtain ⟨body, i, heq, -, ho, -⟩ := exists_end_of_selection? h
  simp only [terminator?, heq, List.getLast?_append_cons, List.getLast?_cons_cons,
    List.getLast?_singleton, Option.filter_eq_some_iff, true_and]
  rcases ho with ho | ho <;> simp [ho, Opcode.isTerminator]

namespace Function

variable {f g g' h : Function} {T T' T'' : ConstantTable} {b c : BlockKey} {sel : SelectionBranch}
  {live l : Id}

/-! ## 1. Weights -/

/-- The selection that ends a block. -/
def selectionAt? (f : Function) (b : BlockKey) : Option SelectionBranch :=
  (f.block? b).bind Block.selection?

/-- Where a selection header always goes, if its condition is known. -/
def decided? (f : Function) (T : ConstantTable) (b : BlockKey) : Option Id :=
  (f.selectionAt? b).bind (fun sel => T.takenTarget? sel.branch)

/-- The targets of a block when every header goes only where it always goes. -/
def decidedTargets (f : Function) (T : ConstantTable) (b : BlockKey) : List Id :=
  match f.decided? T b with
  | some live => [live]
  | none => f.targets b

/-- Whether a selection is narrowed already, to a merge block that control never gets to. -/
def isSpent (f : Function) (T : ConstantTable) (sel : SelectionBranch) : Bool :=
  (T.takenTarget? sel.branch).any (isNarrowed T sel) &&
    !(f.resolve [sel.merge]).any (f.reachableBy (f.decidedTargets T)).contains

/-- Whether a block is a header that is narrowed already. -/
def isNarrowedAt (f : Function) (T : ConstantTable) (b : BlockKey) : Bool :=
  (f.selectionAt? b).any (fun sel => (T.takenTarget? sel.branch).any (isNarrowed T sel))

/-- How often a block can still get a new ending. -/
def weight (f : Function) (T : ConstantTable) (b : BlockKey) : Nat :=
  match f.selectionAt? b with
  | some sel => if f.isSpent T sel then 1 else 2
  | none => 0

/-- How often the blocks of a function can still get a new ending. -/
def workload (f : Function) (T : ConstantTable) : Nat := (f.layout.map (f.weight T)).sum

/-- The number of selection headers. -/
def headerCount (f : Function) : Nat := f.layout.countP (fun b => (f.selectionAt? b).isSome)

theorem isSpent_iff (hf : f.Coherent) :
    f.isSpent T sel = true ↔
      (∃ live, T.takenTarget? sel.branch = some live ∧ isNarrowed T sel live = true) ∧
        ∀ c, f.blockOf? sel.merge = some c → ¬ f.ReachedBy (f.decidedTargets T) c := by
  simp only [isSpent, Bool.and_eq_true, Option.any_eq_true, Bool.not_eq_true', List.any_eq_false,
    contains_reachableBy_iff hf, mem_resolve, List.mem_singleton, exists_eq_left]

theorem isNarrowedAt_iff : f.isNarrowedAt T b = true ↔ ∃ sel, f.selectionAt? b = some sel ∧
    ∃ live, T.takenTarget? sel.branch = some live ∧ isNarrowed T sel live = true := by
  simp only [isNarrowedAt, Option.any_eq_true]

theorem weight_of_none (h : f.selectionAt? b = none) : f.weight T b = 0 := by
  simp [weight, h]

theorem weight_of_some (h : f.selectionAt? b = some sel) :
    f.weight T b = if f.isSpent T sel then 1 else 2 := by
  simp [weight, h]

theorem one_le_weight (h : f.selectionAt? b = some sel) : 1 ≤ f.weight T b := by
  rw [weight_of_some h]
  split <;> omega

/-- Each header counts at most twice. -/
theorem workload_le (f : Function) (T : ConstantTable) : f.workload T ≤ 2 * f.headerCount := by
  unfold workload headerCount
  induction f.layout with
  | nil => simp
  | cons b bs ih =>
    simp only [List.map_cons, List.sum_cons, List.countP_cons]
    cases hsel : f.selectionAt? b with
    | none => simpa [weight_of_none hsel] using ih
    | some sel =>
      rw [weight_of_some hsel]
      simp only [Option.isSome_some, if_true]
      split <;> omega

theorem targets_of_selectionAt? (h : f.selectionAt? b = some sel) :
    f.targets b = sel.branch.branchTargets := by
  obtain ⟨k, hk, hksel⟩ := Option.bind_eq_some_iff.mp h
  rw [targets_of_block? hk, Block.targets, Block.terminator?_of_selection? hksel]
  rfl

theorem mem_targets_of_decided (h : l ∈ f.decidedTargets T b) : l ∈ f.targets b := by
  unfold decidedTargets at h
  split at h
  · rename_i live hlive
    obtain rfl := List.mem_singleton.mp h
    obtain ⟨sel, hsel, htaken⟩ := Option.bind_eq_some_iff.mp hlive
    rw [targets_of_selectionAt? hsel]
    exact ConstantTable.mem_branchTargets_of_takenTarget? htaken
  · exact h

theorem decidedTargets_of_decided (h : f.decided? T b = some live) :
    f.decidedTargets T b = [live] := by
  simp [decidedTargets, h]

/-- What is decided stays decided, and what is not has no new targets. -/
theorem decidedTargets_subset (htargets : ∀ l ∈ g.targets b, l ∈ f.targets b)
    (hdecided : ∀ live, f.decided? T b = some live → g.decided? T' b = some live)
    (hl : l ∈ g.decidedTargets T' b) : l ∈ f.decidedTargets T b := by
  cases hf : f.decided? T b with
  | none => simpa [decidedTargets, hf] using htargets l (mem_targets_of_decided hl)
  | some live =>
    rw [decidedTargets_of_decided (hdecided live hf)] at hl
    rwa [decidedTargets_of_decided hf]

/-! ## 2. Functions with less to do -/

/-- Every selection of the second function is one of the first, with the same merge block, and
narrowed if that was; and control gets nowhere else. -/
structure Lighter (f : Function) (T : ConstantTable) (g : Function) (T' : ConstantTable) :
    Prop where
  layout : g.layout.Sublist f.layout
  entry? : g.entry? = f.entry?
  blockOf? : ∀ l c, g.blockOf? l = some c → f.blockOf? l = some c
  selection : ∀ b ∈ g.layout, ∀ sel', g.selectionAt? b = some sel' →
    ∃ sel, f.selectionAt? b = some sel ∧ sel'.merge = sel.merge ∧
      ∀ live, T.takenTarget? sel.branch = some live → isNarrowed T sel live = true →
        T'.takenTarget? sel'.branch = some live ∧ isNarrowed T' sel' live = true
  edges : ∀ b ∈ g.layout, ∀ l ∈ g.decidedTargets T' b, l ∈ f.decidedTargets T b

namespace Lighter

theorem trans (hfg : Lighter f T g T') (hgh : Lighter g T' h T'') : Lighter f T h T'' where
  layout := hgh.layout.trans hfg.layout
  entry? := hgh.entry?.trans hfg.entry?
  blockOf? l c hc := hfg.blockOf? l c (hgh.blockOf? l c hc)
  selection b hb sel'' hsel'' := by
    obtain ⟨sel', hsel', hmerge', hnarrowed'⟩ := hgh.selection b hb sel'' hsel''
    obtain ⟨sel, hsel, hmerge, hnarrowed⟩ := hfg.selection b (hgh.layout.subset hb) sel' hsel'
    refine ⟨sel, hsel, hmerge'.trans hmerge, fun live htaken hn => ?_⟩
    obtain ⟨htaken', hn'⟩ := hnarrowed live htaken hn
    exact hnarrowed' live htaken' hn'
  edges b hb l hl := hfg.edges b (hgh.layout.subset hb) l (hgh.edges b hb l hl)

/-- More constants are known. -/
theorem of_extends (hT : T.Extends T') : Lighter f T f T' where
  layout := .refl _
  entry? := rfl
  blockOf? _ _ hc := hc
  selection b _ sel hsel := by
    refine ⟨sel, hsel, rfl, fun live htaken hn => ⟨hT.takenTarget? htaken, ?_⟩⟩
    unfold isNarrowed at hn ⊢
    split at hn
    · rename_i value hvalue
      simpa [hT.bool _ _ hvalue] using hn
    · cases hn
  edges b _ l hl := by
    refine decidedTargets_subset (fun _ h => h) (fun live hlive => ?_) hl
    obtain ⟨sel, hsel, htaken⟩ := Option.bind_eq_some_iff.mp hlive
    exact Option.bind_eq_some_iff.mpr ⟨sel, hsel, hT.takenTarget? htaken⟩

/-- Control gets nowhere else. -/
theorem reached (h : Lighter f T g T') (hg : g.Coherent)
    (hc : g.ReachedBy (g.decidedTargets T') c) : f.ReachedBy (f.decidedTargets T) c := by
  refine ReachedBy.induct (fun e he => .entry (h.entry? ▸ he)) (fun a c ha hfa hc => ?_) hc
  obtain ⟨l, hl, hlc⟩ := mem_resolve.mp hc
  exact hfa.step (mem_resolve.mpr ⟨l, h.edges a (ha.mem_layout hg) l hl, h.blockOf? l c hlc⟩)

theorem weight_le (h : Lighter f T g T') (hf : f.Coherent) (hg : g.Coherent) (hb : b ∈ g.layout) :
    g.weight T' b ≤ f.weight T b := by
  cases hsel' : g.selectionAt? b with
  | none => simp [weight_of_none hsel']
  | some sel' =>
    obtain ⟨sel, hsel, hmerge, hnarrowed⟩ := h.selection b hb sel' hsel'
    have hspent : f.isSpent T sel = true → g.isSpent T' sel' = true := by
      rw [isSpent_iff hf, isSpent_iff hg]
      rintro ⟨⟨live, htaken, hn⟩, hmissed⟩
      exact ⟨⟨live, hnarrowed live htaken hn⟩, fun c hc hreached =>
        hmissed c (hmerge ▸ h.blockOf? _ _ hc) (h.reached hg hreached)⟩
    rw [weight_of_some hsel, weight_of_some hsel']
    by_cases hs : f.isSpent T sel = true
    · rw [if_pos hs, if_pos (hspent hs)]
    · rw [if_neg hs]
      split <;> omega

theorem workload_le (h : Lighter f T g T') (hf : f.Coherent) (hg : g.Coherent) :
    g.workload T' ≤ f.workload T :=
  Nat.le_trans (List.sum_le_sum (fun _ hb => h.weight_le hf hg hb))
    ((h.layout.map _).sum_le_sum (fun _ _ => Nat.zero_le _))

/-- A narrowed header stays narrowed as long as it is a header. -/
theorem isNarrowedAt (h : Lighter f T g T') (hb : b ∈ g.layout) (hsel : g.selectionAt? b = some sel)
    (hn : f.isNarrowedAt T b = true) : g.isNarrowedAt T' b = true := by
  obtain ⟨sel₀, hsel₀, -, hnarrow⟩ := h.selection b hb sel hsel
  obtain ⟨sel₁, hsel₁, live, htaken, hn⟩ := isNarrowedAt_iff.mp hn
  obtain rfl := Option.some.inj (hsel₀.symm.trans hsel₁)
  exact isNarrowedAt_iff.mpr ⟨sel, hsel, live, hnarrow live htaken hn⟩

end Lighter

/-- A reachable header on a known constant has a new ending: it is no header any more, or it is
narrowed and was not. -/
structure NewEnding (f : Function) (T : ConstantTable) (g : Function) (T' : ConstantTable)
    (b : BlockKey) : Prop where
  reached : f.Reached b
  decided : (f.decided? T b).isSome
  ending : (b ∈ g.layout → g.selectionAt? b = none) ∨
    (f.isNarrowedAt T b = false ∧ g.isNarrowedAt T' b = true)

/-- The ending stays new. -/
theorem NewEnding.later (h : NewEnding f T g T' b) (hlighter : Lighter g T' g' T'') :
    NewEnding f T g' T'' b := by
  refine ⟨h.reached, h.decided, ?_⟩
  by_cases hb : b ∈ g'.layout
  · cases hsel : g'.selectionAt? b with
    | none => exact .inl (fun _ => rfl)
    | some sel =>
      obtain ⟨sel₀, hsel₀, -⟩ := hlighter.selection b hb sel hsel
      rcases h.ending with hnone | ⟨hnot, hn⟩
      · cases hsel₀.symm.trans (hnone (hlighter.layout.subset hb))
      · exact .inr ⟨hnot, hlighter.isNarrowedAt hb hsel hn⟩
  · exact .inl (fun hb' => absurd hb' hb)

end Function

/-! ## 3. Folding -/

namespace Folding

open ShaderIR.Function

variable {s s' : Folding} {b c : BlockKey} {e : HeaderEdit} {sel sel' : SelectionBranch}
  {live l : Id} {merge? : Option Instruction} {t : Instruction} {edges : List Id}
  {T : ConstantTable} {ids : IdSupply} {k : Block} {body : List Instruction}

/-- **A new ending** is a branch to the live target, or a selection that is narrowed to the merge
block it had. -/
theorem Ending.cases (h : Ending s b sel live merge? t edges T ids)
    (htrue : ∀ x, T.true? = some x → T.bool? x = some true) (hk : k.Parts body merge? t) :
    (k.selection? = none ∧ t.branchTargets = [live]) ∨
      (merge?.isSome ∧ ∃ sel', k.selection? = some sel' ∧ sel'.merge = sel.merge ∧
        T.takenTarget? sel'.branch = some live ∧ isNarrowed T sel' live = true) := by
  cases h with
  | fold legal =>
    refine .inl ⟨Option.eq_none_iff_forall_ne_some.mpr (fun sel' hsel' => ?_), rfl⟩
    obtain ⟨i, hi, -⟩ := hk.selection?_eq_some_iff.mp hsel'
    cases hi
  | @narrow cond value s₁ ne illegal legal condition =>
    have hknown : s₁.constants.bool? cond = some value := by
      rcases (condition_cases condition).2 with ⟨hv, rfl, hT, -⟩ | ⟨-, rfl, hmake⟩
      · rwa [hT]
      · exact htrue cond (ConstantTable.true?_trueConstant hmake)
    refine .inr ⟨rfl, ⟨.branchConditional cond (if value then live else sel.merge)
      (if value then sel.merge else live), sel.merge, cond⟩,
      hk.selection?_eq_some_iff.mpr ⟨_, rfl, rfl, .inl rfl, rfl, rfl, rfl⟩, rfl, ?_, ?_⟩
    · cases value <;> simp [ConstantTable.takenTarget?, Instruction.branchConditional,
        Instruction.idOperand?, hknown]
    · simp [isNarrowed, hknown]

theorem Ending.live_mem (h : Ending s b sel live merge? t edges T ids) : live ∈ edges := by
  cases h <;> simp

/-- A narrowed header would not get the same ending again. -/
theorem Ending.eq_of_narrowed (h : Ending s b sel live merge? t edges T ids)
    (hn : isNarrowed s.constants sel live = true) (hmerge : merge?.isSome) : t = sel.branch := by
  cases h with
  | fold legal => cases hmerge
  | @narrow cond value s₁ ne illegal legal condition =>
    unfold isNarrowed at hn
    split at hn
    · rename_i value' hvalue'
      rcases (condition_cases condition).2 with ⟨hv, rfl, -⟩ | ⟨hv, -⟩
      · obtain rfl := Option.some.inj (hvalue'.symm.trans hv)
        exact (decide_eq_true_eq.mp hn).symm
      · cases hvalue'.symm.trans hv
    · cases hn

/-- **A header is narrowed only if control would not get to the merge block otherwise.** -/
theorem Ending.not_reached (h : Ending s b sel live merge? t edges T ids) (hmerge : merge?.isSome)
    (hc : s.function.blockOf? sel.merge = some c) :
    ¬ s.function.ReachedBy (s.function.withTargets b [live]) c := by
  cases h with
  | fold legal => cases hmerge
  | narrow ne illegal legal condition =>
    refine fun hreached => illegal (legal.of_subset (by simp) (fun a _ ha => ?_))
    refine ReachedBy.induct (fun e he => .entry he) (fun a d _ ha hd => ?_) ha
    by_cases hab : a = b
    · subst hab
      rw [withTargets_self] at hd
      obtain ⟨l, hl, hld⟩ := mem_resolve.mp hd
      rcases List.mem_pair.mp hl with rfl | rfl
      · exact ha.step (mem_resolve.mpr ⟨l, by simp [withTargets_self], hld⟩)
      · exact Option.some.inj (hc.symm.trans hld) ▸ hreached
    · rw [withTargets_of_ne hab] at hd
      exact ha.step (by rwa [withTargets_of_ne hab])

namespace Step

theorem selectionAt?_self (h : Step s b e s') : s.function.selectionAt? b = some e.selection := by
  rw [selectionAt?, h.block, Option.bind_some, h.selection]

theorem selectionAt?_of_ne (h : Step s b e s') (hc : c ≠ b) :
    s'.function.selectionAt? c = s.function.selectionAt? c := by
  rw [selectionAt?, h.block?_of_ne hc, selectionAt?]

theorem decided (h : Step s b e s') : s.function.decided? s.constants b = some e.live := by
  rw [decided?, h.selectionAt?_self, Option.bind_some, h.branch, h.taken]

/-- What is left at the header. -/
theorem cases (h : Step s b e s')
    (htrue : ∀ x, s'.constants.true? = some x → s'.constants.bool? x = some true) :
    (s'.function.selectionAt? b = none ∧ s'.function.targets b = [e.live]) ∨
      (e.newMerge?.isSome ∧ ∃ sel', s'.function.selectionAt? b = some sel' ∧
        sel'.merge = e.selection.merge ∧ s'.constants.takenTarget? sel'.branch = some e.live ∧
        isNarrowed s'.constants sel' e.live = true) := by
  rw [selectionAt?, h.block?_self, h.targets_self]
  exact h.ending.cases htrue h.newParts

/-- **A header with a new ending goes where it went before, and nowhere else.** -/
theorem lighter (h : Step s b e s') (hT : s.constants.Extends s'.constants)
    (htrue : ∀ x, s'.constants.true? = some x → s'.constants.bool? x = some true) :
    Lighter s.function s.constants s'.function s'.constants := by
  -- away from the header only more constants may be known
  have hother := Lighter.of_extends (f := s.function) hT
  refine ⟨h.frame.layout ▸ .refl _, h.frame.entry?, fun l c hc => h.frame.blockOf? l ▸ hc,
    fun a ha sel' hsel' => ?_, fun a ha l hl => ?_⟩
  · by_cases hab : a = b
    · subst hab
      rcases h.cases htrue with ⟨hnone, -⟩ | ⟨-, sel₁, hsel₁, hmerge, htaken, hn⟩
      · cases hnone.symm.trans hsel'
      · obtain rfl := Option.some.inj (hsel₁.symm.trans hsel')
        refine ⟨e.selection, h.selectionAt?_self, hmerge, fun live hlive _ => ?_⟩
        obtain rfl := Option.some.inj ((h.branch ▸ h.taken).symm.trans hlive)
        exact ⟨htaken, hn⟩
    · rw [h.selectionAt?_of_ne hab] at hsel'
      exact hother.selection a (h.frame.layout ▸ ha) sel' hsel'
  · by_cases hab : a = b
    · subst hab
      rw [decidedTargets_of_decided h.decided]
      rcases h.cases htrue with ⟨hnone, htargets⟩ | ⟨-, sel₁, hsel₁, -, htaken, -⟩
      · simpa [decidedTargets, decided?, hnone, htargets] using hl
      · simpa [decidedTargets, decided?, hsel₁, htaken] using hl
    · refine hother.edges a (h.frame.layout ▸ ha) l ?_
      rwa [decidedTargets, decided?, ← h.selectionAt?_of_ne hab, ← h.targets_of_ne hab]

/-- Without the other targets of the header, control gets at least where decided branches go. -/
theorem reachedBy_live (h : Step s b e s')
    (hc : s.function.ReachedBy (s.function.decidedTargets s.constants) c) :
    s.function.ReachedBy (s.function.withTargets b [e.live]) c := by
  refine hc.mono (fun a _ d hd => ?_)
  by_cases hab : a = b
  · subst hab
    rwa [withTargets_self, ← decidedTargets_of_decided h.decided]
  · rw [withTargets_of_ne hab]
    obtain ⟨l, hl, hld⟩ := mem_resolve.mp hd
    exact mem_resolve.mpr ⟨l, mem_targets_of_decided hl, hld⟩

/-- A narrowed header is not narrowed again. -/
theorem not_narrowed (h : Step s b e s') (hnarrow : e.newMerge?.isSome) :
    s.function.isNarrowedAt s.constants b = false := by
  refine Bool.eq_false_iff.mpr (fun hn => ?_)
  obtain ⟨sel, hsel, live, hlive, hn⟩ := isNarrowedAt_iff.mp hn
  obtain rfl := Option.some.inj (h.selectionAt?_self.symm.trans hsel)
  obtain rfl := Option.some.inj ((h.branch ▸ h.taken).symm.trans hlive)
  exact h.differs ((h.ending.eq_of_narrowed hn hnarrow).trans h.branch)

/-- **The header got lighter.** -/
theorem weight_lt (h : Step s b e s') (hT : s.constants.Extends s'.constants)
    (htrue : ∀ x, s'.constants.true? = some x → s'.constants.bool? x = some true) :
    s'.function.weight s'.constants b + 1 ≤ s.function.weight s.constants b := by
  rcases h.cases htrue with ⟨hnone, -⟩ | ⟨hnarrow, sel', hsel', hmerge, htaken, hn⟩
  · rw [weight_of_none hnone]
    exact one_le_weight h.selectionAt?_self
  · have hspent' : s'.function.isSpent s'.constants sel' = true := by
      refine (isSpent_iff h.coherent).mpr ⟨⟨e.live, htaken, hn⟩, fun c hc hreached => ?_⟩
      rw [hmerge, h.frame.blockOf?] at hc
      exact h.ending.not_reached hnarrow hc
        (h.reachedBy_live ((h.lighter hT htrue).reached h.coherent hreached))
    have hspent : ¬ s.function.isSpent s.constants e.selection = true := by
      intro hs
      have hn := isNarrowedAt_iff.mpr ⟨_, h.selectionAt?_self, ((isSpent_iff h.source).mp hs).1⟩
      cases (h.not_narrowed hnarrow).symm.trans hn
    rw [weight_of_some hsel', weight_of_some h.selectionAt?_self, if_pos hspent', if_neg hspent]

theorem workload_lt (h : Step s b e s') (hT : s.constants.Extends s'.constants)
    (htrue : ∀ x, s'.constants.true? = some x → s'.constants.bool? x = some true) :
    s'.function.workload s'.constants + 1 ≤ s.function.workload s.constants := by
  have hlighter := h.lighter hT htrue
  unfold workload
  rw [h.frame.layout]
  exact sum_map_add_le (fun a ha => hlighter.weight_le h.source h.coherent (h.frame.layout ▸ ha))
    (h.reached.mem_layout h.source) (h.weight_lt hT htrue)

end Step

variable {f : Function} {globals : List Instruction} {bound : UInt32}

/-- **Folding makes a function lighter**, and its workload smaller if any header has changed. -/
theorem run_lighter (hf : f.Coherent) (hparts : f.HasParts) (hT : T.Anchored ids globals bound)
    (h : run f T ids = .ok s) :
    Lighter f T s.function s.constants ∧
      s.function.workload s.constants + (if s.changed then 1 else 0) ≤ f.workload T := by
  refine (run_induct (P := fun s => Lighter f T s.function s.constants ∧
    s.function.workload s.constants + (if s.changed then 1 else 0) ≤ f.workload T) hf hparts h
    ⟨.of_extends (.refl T), Nat.le_refl _⟩ ?_).2
  rintro done s b e s' hs - - ⟨hlighter, hload⟩ hstep
  have hanchored := hs.grows.anchored hT
  have hgrows := hstep.ending.grows
  have hext := hgrows.extends hanchored
  have htrue := (hgrows.anchored hanchored).comesFrom.isTrue
  have hlt := hstep.workload_lt hext htrue
  refine ⟨hlighter.trans (hstep.lighter hext htrue), ?_⟩
  rw [hstep.changed, if_pos rfl]
  omega

/-- **If folding changes a function, a header has a new ending.** -/
theorem run_newEnding (hf : f.Coherent) (hparts : f.HasParts) (hT : T.Anchored ids globals bound)
    (h : run f T ids = .ok s) (hchanged : s.changed = true) :
    ∃ b, NewEnding f T s.function s.constants b := by
  -- the first header that got a new ending keeps it
  refine (run_induct (P := fun s => (s.changed = false → s.function = f ∧ s.constants = T) ∧
    (s.changed = true → ∃ b, NewEnding f T s.function s.constants b)) hf hparts h
    ⟨fun _ => ⟨rfl, rfl⟩, fun hc => by cases hc⟩ ?_).2.2 hchanged
  rintro done s b e s' hs - - ⟨hstart, hlater⟩ hstep
  have hanchored := hs.grows.anchored hT
  have hgrows := hstep.ending.grows
  have hext := hgrows.extends hanchored
  have htrue := (hgrows.anchored hanchored).comesFrom.isTrue
  refine ⟨fun hc => ?_, fun _ => ?_⟩
  · cases hstep.changed.symm.trans hc
  cases hbefore : s.changed with
  | false =>
    obtain ⟨hfun, hconst⟩ := hstart hbefore
    rw [← hfun, ← hconst]
    refine ⟨b, hstep.reached, by simp [hstep.decided], ?_⟩
    rcases hstep.cases htrue with ⟨hnone, -⟩ | ⟨hnarrow, sel', hsel', -, htaken, hn⟩
    · exact .inl (fun _ => hnone)
    · exact .inr ⟨hstep.not_narrowed hnarrow, isNarrowedAt_iff.mpr ⟨sel', hsel', _, htaken, hn⟩⟩
  | true =>
    obtain ⟨a, ha⟩ := hlater hbefore
    exact ⟨a, ha.later (hstep.lighter hext htrue)⟩

/-- **Only a header loses an edge**, and not one to where it always goes. -/
theorem run_lost (hf : f.Coherent) (hparts : f.HasParts) (hT : T.Anchored ids globals bound)
    (h : run f T ids = .ok s) {a : BlockKey} (hold : c ∈ f.resolve (f.targets a))
    (hlost : c ∉ s.function.resolve (s.function.targets a)) :
    ∃ sel, f.selectionAt? a = some sel ∧
      ∀ live, T.takenTarget? sel.branch = some live → c ∉ f.resolve [live] := by
  refine (run_induct (P := fun s => c ∉ s.function.resolve (s.function.targets a) →
    ∃ sel, f.selectionAt? a = some sel ∧
      ∀ live, T.takenTarget? sel.branch = some live → c ∉ f.resolve [live]) hf hparts h
    (fun hnot => absurd hold hnot) ?_).2 hlost
  intro done s b e s' hs hnew _ ih hstep hlost
  by_cases hab : a = b
  · subst hab
    refine ⟨e.selection, ?_, fun live hlive hc => hlost ?_⟩
    · rw [selectionAt?, ← hs.todo a hnew]
      exact hstep.selectionAt?_self
    · have hlive' := (hs.grows.extends hT).takenTarget? hlive
      obtain rfl := Option.some.inj ((hstep.branch ▸ hstep.taken).symm.trans hlive')
      obtain ⟨l, hl, hlc⟩ := mem_resolve.mp hc
      obtain rfl := List.mem_singleton.mp hl
      rw [hstep.mem_resolve_iff, withTargets_self]
      exact mem_resolve.mpr ⟨e.live, hstep.ending.live_mem, (hs.frame.blockOf? _).trans hlc⟩
  · refine ih (fun hc => hlost ?_)
    rwa [hstep.mem_resolve_iff, withTargets_of_ne hab]

end Folding

/-! ## 4. Repair and removal -/

/-- A selection with its references replaced. -/
def SelectionBranch.mapRefs (g : Id → Id) (sel : SelectionBranch) : SelectionBranch :=
  ⟨sel.branch.mapRefs g, g sel.merge, g sel.condition⟩

theorem Block.Parts.selection?_mapRefs {k k' : Block} {body body' : List Instruction}
    {merge? : Option Instruction} {t : Instruction} {g : Id → Id} (hk : k.Parts body merge? t)
    (hk' : k'.Parts body' (merge?.map (Instruction.mapRefs g)) (t.mapRefs g)) :
    k'.selection? = k.selection?.map (SelectionBranch.mapRefs g) := by
  cases hsel : k.selection? with
  | some sel =>
    obtain ⟨i, rfl, ho, hopen, hmerge, hcond, rfl⟩ := hk.selection?_eq_some_iff.mp hsel
    exact hk'.selection?_eq_some_iff.mpr ⟨i.mapRefs g, rfl, ho, hopen, by simp [hmerge,
      SelectionBranch.mapRefs], by simp [hcond, SelectionBranch.mapRefs], rfl⟩
  | none =>
    refine Option.eq_none_iff_forall_ne_some.mpr (fun sel' hsel' => ?_)
    obtain ⟨i', hi', ho, hopen, hmerge', hcond', -⟩ := hk'.selection?_eq_some_iff.mp hsel'
    obtain ⟨i, rfl, rfl⟩ := Option.map_eq_some_iff.mp hi'
    obtain ⟨merge, hmerge, -⟩ := Option.map_eq_some_iff.mp (i.idOperand?_mapRefs g 0 ▸ hmerge')
    obtain ⟨cond, hcond, -⟩ := Option.map_eq_some_iff.mp (t.idOperand?_mapRefs g 0 ▸ hcond')
    have hsome : k.selection? = some ⟨t, merge, cond⟩ :=
      hk.selection?_eq_some_iff.mpr ⟨i, rfl, ho, hopen, hmerge, hcond, rfl⟩
    cases hsel.symm.trans hsome

namespace Function

variable {f f' : Function} {w w' : Workspace} {folded : Folding} {repaired : PhiRepair}
  {mended : BlockKey → List Instruction} {a b c : BlockKey} {sel : SelectionBranch} {live l : Id}
  {T T' : ConstantTable} {globals : List Instruction} {bound : UInt32}

open PhiRepair (rename)

/-- A branch on a constant that keeps its name goes where it went, under the new name. -/
theorem takenTarget?_mapRefs {t : Instruction} {g : Id → Id} (hT : T.Extends T')
    (hfix : ∀ x, (T.bool? x).isSome ∨ (T.int? x).isSome → g x = x)
    (htaken : T.takenTarget? t = some live) : T'.takenTarget? (t.mapRefs g) = some (g live) := by
  unfold ConstantTable.takenTarget? at htaken ⊢
  rw [Instruction.opcode_mapRefs]
  split at htaken
  · obtain ⟨c, hc, htaken⟩ := Option.bind_eq_some_iff.mp htaken
    obtain ⟨v, hv, htaken⟩ := Option.bind_eq_some_iff.mp htaken
    simp [hc, hfix c (.inl (by simp [hv])), hT.bool c v hv, htaken]
  · obtain ⟨c, hc, htaken⟩ := Option.bind_eq_some_iff.mp htaken
    obtain ⟨n, hn, htaken⟩ := Option.bind_eq_some_iff.mp htaken
    simp [hc, hfix c (.inr (by simp [hn])), hT.int c n hn, ← Option.map_or, htaken,
      Instruction.caseLabel?_map]
  · cases htaken

namespace Phases

/-- The selections in the end are those that folding left, with references replaced. -/
theorem selectionAt?_result (h : Phases f w f' w' folded repaired mended) (hb : b ∈ f'.layout) :
    f'.selectionAt? b =
      (folded.function.selectionAt? b).map
        (SelectionBranch.mapRefs (rename repaired.replacements)) := by
  have hfolded := h.wellFormed_folded
  have hb₂ := (h.remove.mem_layout.mp hb).1
  have hb₁ : b ∈ folded.function.layout := h.repair.frame.layout ▸ hb₂
  obtain ⟨k₁, hk₁, -⟩ := hfolded.coherent.exists_block hb₁
  obtain ⟨body, merge?, t, hp₁, -⟩ := (hfolded.sound b hb₁ k₁ hk₁).parts
  obtain ⟨k₂, hk₂, -, hp₂⟩ := h.repair.parts hb₁ hk₁ hp₁
  obtain ⟨body', -, hk₃, hp₃⟩ := h.remove.parts hb hk₂ hp₂
  rw [selectionAt?, selectionAt?, hk₁, hk₃, Option.bind_some, Option.bind_some]
  exact hp₁.selection?_mapRefs hp₃

/-- The merge block of a selection keeps its name. -/
theorem rename_merge (h : Phases f w f' w' folded repaired mended)
    (hb : b ∈ folded.function.layout) (hsel : folded.function.selectionAt? b = some sel) :
    rename repaired.replacements sel.merge = sel.merge := by
  have hfolded := h.wellFormed_folded
  obtain ⟨k, hk, hksel⟩ := Option.bind_eq_some_iff.mp hsel
  have hsound := hfolded.sound b hb k hk
  obtain ⟨body, i, heq, ho, -, hmerge, -⟩ := Block.exists_end_of_selection? hksel
  have href : sel.merge ∈ i.blockRefs := by
    refine Instruction.mem_blockRefs.mpr (.inr (.inl ⟨(sel.merge, none), ?_, .inl rfl⟩))
    simp [Instruction.mergeTargets?, ho, hmerge]
  obtain ⟨c, hc⟩ := Option.isSome_iff_exists.mp (hsound.refs i (by simp [heq]) _ href)
  exact h.repair.rename_label hc

/-- **Repair and removal give the headers nothing more to do.** -/
theorem lighter (hapart : folded.constants.Apart f) (hT : folded.constants.Extends w'.constants)
    (h : Phases f w f' w' folded repaired mended) :
    Lighter folded.function folded.constants f' w'.constants := by
  have hknown : ∀ x, (folded.constants.bool? x).isSome ∨ (folded.constants.int? x).isSome →
      rename repaired.replacements x = x := by
    rintro x (hx | hx) <;> obtain ⟨v, hv⟩ := Option.isSome_iff_exists.mp hx
    · exact h.rename_of_not_mem_bodyIds (hapart.bool x v hv)
    · exact h.rename_of_not_mem_bodyIds (hapart.int x v hv).1
  have hmem : ∀ {b}, b ∈ f'.layout → b ∈ folded.function.layout := fun hb =>
    h.repair.frame.layout ▸ (h.remove.mem_layout.mp hb).1
  -- what is decided stays decided
  have hdecided : ∀ b ∈ f'.layout, ∀ sel live, folded.function.selectionAt? b = some sel →
      folded.constants.takenTarget? sel.branch = some live →
      w'.constants.takenTarget? (sel.branch.mapRefs (rename repaired.replacements)) =
        some live := by
    intro b hb sel live hsel htaken
    have hfix := h.rename_target b (hmem hb) live
      (targets_of_selectionAt? hsel ▸ ConstantTable.mem_branchTargets_of_takenTarget? htaken)
    rw [takenTarget?_mapRefs hT hknown htaken, hfix]
  refine ⟨?_, ?_, fun l c hc => h.blockOf?_eq hc, fun b hb sel' hsel' => ?_, fun b hb l hl => ?_⟩
  · rw [h.remove.layout, h.repair.frame.layout]
    exact List.filter_sublist
  · rw [h.remove.entry?, h.repair.frame.entry?]
  · rw [h.selectionAt?_result hb] at hsel'
    obtain ⟨sel, hsel, rfl⟩ := Option.map_eq_some_iff.mp hsel'
    have hmerge := h.rename_merge (hmem hb) hsel
    refine ⟨sel, hsel, hmerge, fun live htaken hn => ⟨hdecided b hb sel live hsel htaken, ?_⟩⟩
    have hfix := h.rename_target b (hmem hb) live
      (targets_of_selectionAt? hsel ▸ ConstantTable.mem_branchTargets_of_takenTarget? htaken)
    unfold isNarrowed at hn ⊢
    split at hn
    · rename_i value hvalue
      have hcond := hknown sel.condition (.inl (by simp [hvalue]))
      simp only [SelectionBranch.mapRefs, hcond, hmerge, hT.bool _ _ hvalue]
      rw [decide_eq_true_eq] at hn ⊢
      rw [hn]
      cases value <;> simp [Instruction.mapRefs, Instruction.branchConditional, Operand.mapRef,
        hcond, hmerge, hfix]
    · cases hn
  · refine decidedTargets_subset (fun l hl => h.targets_result hb ▸ hl) (fun live hlive => ?_) hl
    obtain ⟨sel, hsel, htaken⟩ := Option.bind_eq_some_iff.mp hlive
    rw [decided?, h.selectionAt?_result hb, hsel]
    exact hdecided b hb sel live hsel htaken

end Phases

/-! ## 5. Phis that give way -/

/-- The phis with a result in reachable blocks name only blocks that branch to them. -/
def NamesPredecessors (f : Function) : Prop :=
  ∀ b, f.Reached b → ∀ k, f.block? b = some k → ∀ phi ∈ k.phis, phi.result?.isSome →
    f.ParentsBranch b phi

/-- A narrowed selection goes to its live target and to its merge block. -/
theorem mem_branchTargets_of_isNarrowed (hn : isNarrowed T sel live = true)
    (hl : l ∈ sel.branch.branchTargets) : l = live ∨ l = sel.merge := by
  unfold isNarrowed at hn
  split at hn
  · rename_i value _
    rw [decide_eq_true_eq] at hn
    rw [hn] at hl
    cases value
    · exact (List.mem_pair.mp hl).symm
    · exact List.mem_pair.mp hl
  · cases hn

theorem weight_le_workload (hb : b ∈ f.layout) : f.weight T b ≤ f.workload T :=
  List.single_le_sum (fun _ _ => Nat.zero_le _) _ (List.mem_map_of_mem hb)

/-- If control could get somewhere, but never does, there is a header. -/
theorem one_le_workload (hf : f.Coherent) (hc : f.Reached c)
    (hnot : ¬ f.ReachedBy (f.decidedTargets T) c) : 1 ≤ f.workload T := by
  by_contra hzero
  refine hnot (ReachedBy.mono (fun a ha d hd => ?_) hc)
  have hload := weight_le_workload (T := T) (ha.mem_layout hf)
  cases hsel : f.selectionAt? a with
  | none => simpa [decidedTargets, decided?, hsel] using hd
  | some sel =>
    have hweight := one_le_weight (T := T) hsel
    omega

/-- **A header that loses an edge to where control gets is not spent.** -/
theorem weight_of_lost (hf : f.Coherent) (hsel : f.selectionAt? a = some sel)
    (hold : c ∈ f.resolve (f.targets a))
    (hlost : ∀ live, T.takenTarget? sel.branch = some live → c ∉ f.resolve [live])
    (hc : f.ReachedBy (f.decidedTargets T) c) : f.weight T a = 2 := by
  rw [weight_of_some hsel, if_neg]
  intro hspent
  obtain ⟨⟨live, htaken, hn⟩, hmissed⟩ := (isSpent_iff hf).mp hspent
  obtain ⟨l, hl, hlc⟩ := mem_resolve.mp hold
  rw [targets_of_selectionAt? hsel] at hl
  rcases mem_branchTargets_of_isNarrowed hn hl with rfl | rfl
  · exact hlost l htaken (mem_resolve.mpr ⟨l, by simp, hlc⟩)
  · exact hmissed c hlc hc

namespace Phases

/-- The parent of a pair that a phi loses, in a function before it is folded. -/
theorem exists_lost (h : Phases f w f' w' folded repaired mended)
    (hreplaced : repaired.replacements ≠ []) :
    ∃ b, ∃ a ∈ f.layout, folded.function.Reached b ∧
      (f.Reached b → f.NamesPredecessors → b ∈ f.resolve (f.targets a)) ∧
      b ∉ folded.function.resolve (folded.function.targets a) := by
  have hfolded := h.wellFormed_folded
  obtain ⟨r, hr⟩ := List.exists_mem_of_ne_nil _ hreplaced
  obtain ⟨c, -, phi', -, hcollapsed⟩ := (h.repair.mem_replacements r).mp hr
  obtain ⟨-, -, hpruned, -⟩ := PhiRepair.collapsed?_eq_some_iff.mp hcollapsed
  obtain ⟨b, hb, k, hk, phi, hphi, ⟨p, hp, hlost⟩, hresult⟩ := (h.repair.mem_pruned r.1).mp hpruned
  have hb₁ := hb.mem_layout hfolded.coherent
  obtain ⟨k₀, hk₀, hphis, -⟩ := h.phis_folded hk (h.fold.frame.layout ▸ hb₁)
  obtain ⟨hmem, hisphi⟩ := Block.mem_of_mem_phis hphi
  have href := (hfolded.sound b hb₁ k hk).refs phi hmem p.2
    (Instruction.mem_blockRefs.mpr (.inr (.inr ⟨hisphi, p, hp, rfl⟩)))
  obtain ⟨a, ha⟩ := Option.isSome_iff_exists.mp href
  have ha₀ : f.blockOf? p.2 = some a := h.fold.frame.blockOf? _ ▸ ha
  refine ⟨b, a, (h.wellFormed.coherent.indexed _ _ ha₀).1, hb, fun hreached hnames => ?_,
    fun hedge => ?_⟩
  · exact hnames b hreached k₀ hk₀ phi (hphis ▸ hphi) (by simp [hresult]) p hp a ha₀
  · exact hlost ((mem_phiParents_all hfolded.coherent).mpr ⟨a, ha, hedge⟩)

/-- **If a phi gives way to its value, the workload was at least two.**  Some header has lost an
edge that a phi had a pair for.  Either control gets to that phi, and the header was not spent, or
it does not, and a header is left. -/
theorem two_le_workload (hnames : f.NamesPredecessors)
    (hT : w.constants.Anchored w.ids globals bound) (h : Phases f w f' w' folded repaired mended)
    (hreplaced : repaired.replacements ≠ []) :
    folded.changed = true ∧ 2 ≤ f.workload w.constants := by
  obtain ⟨b, a, ha, hb, hold, hlost⟩ := h.exists_lost hreplaced
  have hparts := h.wellFormed.sound.hasParts
  have hfolded := h.wellFormed_folded
  have hchanged : folded.changed = true := by
    by_contra hquiet
    have hsame := Folding.run_quiet h.run (by simpa using hquiet)
    rw [hsame] at hb hlost
    exact hlost (hold hb hnames)
  refine ⟨hchanged, ?_⟩
  obtain ⟨hlighter, hload⟩ := Folding.run_lighter h.wellFormed.coherent hparts hT h.run
  by_cases hc : f.ReachedBy (f.decidedTargets w.constants) b
  · have hreached : f.Reached b := hc.mono (fun _ _ d hd => by
      obtain ⟨l, hl, hld⟩ := mem_resolve.mp hd
      exact mem_resolve.mpr ⟨l, mem_targets_of_decided hl, hld⟩)
    have hedge := hold hreached hnames
    obtain ⟨sel, hsel, hlost⟩ := Folding.run_lost h.wellFormed.coherent hparts hT h.run hedge hlost
    rw [← weight_of_lost h.wellFormed.coherent hsel hedge hlost hc]
    exact weight_le_workload ha
  · rw [hchanged, if_pos rfl] at hload
    have hone := one_le_workload hfolded.coherent hb
      (fun hreached => hc (hlighter.reached hfolded.coherent hreached))
    omega

end Phases
end Function
end ShaderIR
