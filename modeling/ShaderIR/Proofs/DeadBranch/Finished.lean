import ShaderIR.Proofs.DeadBranch.SecondRun
import ShaderIR.Proofs.DeadBranch.Workload

/-!
# Functions that are finished

A function is left alone exactly if it is *finished*: no header is due for a new ending, the phis
agree with the predecessors, and nothing is there that is not needed.  A run may drop a loose
operand of a phi, one that belongs to no pair, without marking a change.  Headers do not notice
(`SamePairs`), so what a run leaves unmarked is finished.

* `eliminateDeadBranches_eq_iff`: the functions that are left alone;
* `Phases.finished`: a processed function is finished once no header is due;
* `Phases.mem_callees`: a call is new only where a phi gave way to its value;
* `handled`: what processing a function does to the workload, in terms of the constants that are
  known before and after the whole run.
-/

namespace ShaderIR

/-! ## 1. Functions that differ in loose operands -/

/-- Two instructions that may differ in a loose operand of a phi, one that belongs to no pair. -/
structure Instruction.SamePairs (i j : Instruction) : Prop where
  opcode : j.opcode = i.opcode
  result : j.result? = i.result?
  incoming : j.phiIncoming = i.phiIncoming
  same : i.opcode.isPhi = false → j = i

namespace Instruction.SamePairs

variable {i j k : Instruction}

theorem refl (i : Instruction) : i.SamePairs i := ⟨rfl, rfl, rfl, fun _ => rfl⟩

theorem symm (h : i.SamePairs j) : j.SamePairs i :=
  ⟨h.opcode.symm, h.result.symm, h.incoming.symm, fun hj => (h.same (h.opcode ▸ hj)).symm⟩

theorem trans (h : i.SamePairs j) (h' : j.SamePairs k) : i.SamePairs k :=
  ⟨h'.opcode.trans h.opcode, h'.result.trans h.result, h'.incoming.trans h.incoming,
    fun hi => (h'.same (h.opcode ▸ hi)).trans (h.same hi)⟩

end Instruction.SamePairs

/-- The ends of two blocks are the same. -/
theorem Block.end_of_samePairs {l l' : Id} {is js : List Instruction}
    (h : List.Forall₂ Instruction.SamePairs is js) :
    (Block.mk l' js).terminator? = (Block.mk l is).terminator? ∧
      (Block.mk l' js).mergeInstruction? = (Block.mk l is).mergeInstruction? := by
  have hends : ∀ {i j : Instruction}, i.SamePairs j → i.opcode.isTerminator = true ∨
      i.opcode.isMerge = true → j = i := by
    rintro i j hij (ho | ho)
    · exact hij.same (Opcode.isPhi_of_isTerminator ho)
    · exact hij.same (Opcode.isPhi_of_isMerge ho)
  have hrev := List.forall₂_reverse_iff.mpr h
  simp only [terminator?, mergeInstruction?, List.getLast?_eq_head?_reverse]
  generalize is.reverse = ris, js.reverse = rjs at hrev ⊢
  cases hrev with
  | nil => exact ⟨rfl, rfl⟩
  | @cons i j is' js' hij hrest =>
    constructor
    · cases ho : i.opcode.isTerminator with
      | true => simp [hends hij (.inl ho)]
      | false => simp [Option.filter, hij.opcode, ho]
    · cases hrest with
      | nil => rfl
      | @cons i' j' _ _ hij' _ =>
        simp only [hij.opcode, hij'.opcode]
        split
        · rename_i ho
          rw [hends hij' (.inr (by simpa using (Bool.and_eq_true _ _ ▸ ho).2))]
        · rfl

theorem samePairs_trans {is js ks : List Instruction}
    (h : List.Forall₂ Instruction.SamePairs is js) (h' : List.Forall₂ Instruction.SamePairs js ks) :
    List.Forall₂ Instruction.SamePairs is ks := by
  induction h generalizing ks with
  | nil => exact h'
  | cons hij _ ih =>
    cases h' with
    | cons hjk hrest => exact .cons (hij.trans hjk) (ih hrest)

namespace Function

variable {f g f' : Function} {T T' : ConstantTable} {b c : BlockKey} {w w' : Workspace}

/-- Two functions that may differ in loose operands of phis. -/
structure SamePairs (f g : Function) : Prop where
  frame : f.SameFrame g
  instructions : ∀ b, List.Forall₂ Instruction.SamePairs (f.instructions b) (g.instructions b)

namespace SamePairs

theorem refl (f : Function) : f.SamePairs f :=
  ⟨.refl f, fun _ => List.forall₂_same.mpr (fun i _ => .refl i)⟩

theorem symm (h : f.SamePairs g) : g.SamePairs f where
  frame := ⟨h.frame.id.symm, h.frame.definition.symm, h.frame.params.symm, h.frame.layout.symm,
    h.frame.labels.symm, fun b => (h.frame.label? b).symm⟩
  instructions b := (h.instructions b).flip.imp (fun _ _ hij => hij.symm)

/-- One more block has lost loose operands. -/
theorem setInstructions (h : f.SamePairs g) {is : List Instruction}
    (his : List.Forall₂ Instruction.SamePairs (g.instructions b) is) :
    f.SamePairs (g.setInstructions b is) where
  frame := h.frame.trans (sameFrame_setInstructions g b is)
  instructions c := by
    by_cases hc : c = b
    · subst hc
      cases hk : g.block? c with
      | none =>
        have hnone : (g.setInstructions c is).instructions c = g.instructions c := by
          simp [Function.instructions, block?_setInstructions, hk]
        exact hnone ▸ h.instructions c
      | some k =>
        have hsome : (g.setInstructions c is).instructions c = is := by
          simp [Function.instructions, block?_setInstructions, hk]
        rw [hsome]
        exact samePairs_trans (h.instructions c) his
    · have hsame : (g.setInstructions b is).instructions c = g.instructions c := by
        simp [Function.instructions, block?_setInstructions, hc]
      exact hsame ▸ h.instructions c

theorem block? (h : f.SamePairs g) (b : BlockKey) :
    (f.block? b = none ∧ g.block? b = none) ∨
      ∃ k k', f.block? b = some k ∧ g.block? b = some k' ∧
        k'.terminator? = k.terminator? ∧ k'.mergeInstruction? = k.mergeInstruction? := by
  have hlabel := h.frame.label? b
  have hpairs := h.instructions b
  cases hk : f.block? b with
  | none => exact .inl ⟨rfl, by simpa [Function.label?, hk] using hlabel⟩
  | some k =>
    cases hk' : g.block? b with
    | none => simp [Function.label?, hk, hk'] at hlabel
    | some k' =>
      rw [instructions_of_block? hk, instructions_of_block? hk'] at hpairs
      exact .inr ⟨k, k', rfl, rfl, Block.end_of_samePairs hpairs⟩

theorem targets (h : f.SamePairs g) (b : BlockKey) : g.targets b = f.targets b := by
  rcases h.block? b with ⟨hk, hk'⟩ | ⟨k, k', hk, hk', hterminator, -⟩
  · simp [Function.targets, hk, hk']
  · simp [Function.targets, hk, hk', Block.targets, hterminator]

theorem selectionAt? (h : f.SamePairs g) (b : BlockKey) : g.selectionAt? b = f.selectionAt? b := by
  rcases h.block? b with ⟨hk, hk'⟩ | ⟨k, k', hk, hk', hterminator, hmerge⟩
  · simp [Function.selectionAt?, hk, hk']
  · simp [Function.selectionAt?, hk, hk', Block.selection?, hterminator, hmerge]

theorem definitions (h : f.SamePairs g) : g.definitions = f.definitions := by
  refine h.frame.definitions (fun b => ?_)
  have hpairs := h.instructions b
  generalize f.instructions b = is, g.instructions b = js at hpairs
  induction hpairs with
  | nil => rfl
  | cons hij _ ih => simp only [List.filterMap_cons, hij.result, ih]

theorem definedIn? (h : f.SamePairs g) (x : Id) : g.definedIn? x = f.definedIn? x := by
  rw [Function.definedIn?, h.definitions, Function.definedIn?]

theorem availableBy (h : f.SamePairs g) {targets : BlockKey → List Id} {x : Id}
    (hx : f.AvailableBy targets x b) : g.AvailableBy targets x b := by
  intro d hd
  exact h.frame.dominatedBy_iff.mpr (hx d (h.definedIn? x ▸ hd))

theorem inOrderBy (h : f.SamePairs g) {targets : BlockKey → List Id} (hf : f.InOrderBy targets) :
    g.InOrderBy targets := by
  intro b hb j hj
  obtain ⟨i, hi, hij⟩ := exists_of_mem_right (h.instructions b) hj
  have huses := hf b (h.frame.reachedBy_iff.mp hb) i hi
  refine ⟨fun ho p hp a ha hra => ?_, fun ho x hx => ?_⟩
  · exact h.availableBy (huses.phi (hij.opcode ▸ ho) p (hij.incoming ▸ hp) a
      (h.frame.blockOf? _ ▸ ha) (h.frame.reachedBy_iff.mp hra))
  · rw [hij.opcode] at ho
    exact h.availableBy (huses.other ho x (hij.same ho ▸ hx))

theorem legal (h : f.SamePairs g) {edges : List Id} (hf : f.Legal b edges) : g.Legal b edges := by
  have htargets : g.targets = f.targets := funext h.targets
  have hwith : g.withTargets b edges = f.withTargets b edges := by
    funext c
    rw [withTargets, withTargets, h.targets]
  refine ⟨fun c hc hnot l hl d hd hne j hj ho => ?_, ?_⟩
  · obtain ⟨i, hi, hij⟩ := exists_of_mem_right (h.instructions d) hj
    rw [hwith, h.frame.reachedBy_iff] at hnot hd
    rw [Reached, htargets, h.frame.reachedBy_iff] at hc
    rw [hij.opcode] at ho
    exact hij.same ho ▸ hf.unnamed c hc hnot l (h.frame.label? c ▸ hl) d hd hne i hi ho
  · rw [hwith]
    exact h.inOrderBy hf.inOrder

/-- **Loose operands do not matter for folding.** -/
theorem isOpen (h : f.SamePairs g) (hf : f.Coherent) : g.isOpen T b = f.isOpen T b := by
  have hg := h.frame.coherent hf
  have hlegal : ∀ edges, g.isLegalProposal g.reachable b edges =
      f.isLegalProposal f.reachable b edges := fun edges => by
    rw [Bool.eq_iff_iff, isLegalProposal_iff hg, isLegalProposal_iff hf]
    exact ⟨h.symm.legal, h.legal⟩
  have hverdict : ∀ live merge, g.verdict g.reachable b live merge =
      f.verdict f.reachable b live merge := fun live merge => by
    simp only [verdict, hlegal]
  have hsel := h.selectionAt? b
  unfold Function.selectionAt? at hsel
  simp only [Function.isOpen, hsel, hverdict]

end SamePairs
end Function

/-! ## 2. Repair that is not marked as a change -/

namespace PhiRepair

variable {parents : PhiParents} {s s' : PhiRepair} {phi phi' : Instruction} {f : Function}
  {T : ConstantTable} {ids : IdSupply} {b : BlockKey} {k : Block}

theorem mendPhi_samePairs (ho : phi.opcode.isPhi = true)
    (h : mendPhi parents s phi = .ok (s', phi')) (hquiet : s'.changed = false) :
    s' = s ∧ phi.SamePairs phi' := by
  obtain ⟨hnot, hprune⟩ := mendPhi_unmarked h hquiet
  rw [prune_eq, if_neg (fun hdropped => hnot (loses_iff.mp hdropped))] at hprune
  obtain ⟨rfl, rfl⟩ := Prod.mk.inj hprune
  refine ⟨rfl, rfl, rfl, ?_, fun hnophi => by simp [ho] at hnophi⟩
  have hkeeps : ∀ p ∈ phi.phiIncoming, p.2 ∈ parents.all := by
    intro p hp
    by_contra hlost
    exact hnot ⟨p, hp, hlost⟩
  simpa using hkeeps

theorem mendPhis_samePairs {phis phis' : List Instruction}
    (ho : ∀ phi ∈ phis, phi.opcode.isPhi = true)
    (h : mendPhis parents s phis = .ok (s', phis')) (hquiet : s'.changed = false) :
    s' = s ∧ List.Forall₂ Instruction.SamePairs phis phis' := by
  induction phis generalizing s phis' with
  | nil =>
    cases h
    exact ⟨rfl, .nil⟩
  | cons phi phis ih =>
    unfold mendPhis at h
    obtain ⟨⟨s₁, phi₁⟩, hphi, h⟩ := bind_eq_ok.mp h
    obtain ⟨⟨s₂, phis₂⟩, hphis, h⟩ := bind_eq_ok.mp h
    cases h
    obtain ⟨rfl, hrest⟩ := ih (fun phi' hphi' => ho phi' (by simp [hphi'])) hphis
    obtain ⟨rfl, hfirst⟩ := mendPhi_samePairs (ho phi (by simp)) hphi hquiet
    exact ⟨rfl, .cons hfirst hrest⟩

theorem mendBlock_samePairs (hk : s.function.block? b = some k) (hs : f.SamePairs s.function)
    (h : mendBlock parents s b k = .ok s') (hquiet : s'.Quiet) :
    s'.constants = s.constants ∧ s'.ids = s.ids ∧ f.SamePairs s'.function := by
  unfold mendBlock at h
  obtain ⟨⟨s₁, phis'⟩, hmend, h⟩ := bind_eq_ok.mp h
  cases h
  obtain ⟨hchanged, hreplaced⟩ := hquiet
  obtain ⟨rfl, hphis⟩ := mendPhis_samePairs (fun phi hphi => (Block.mem_of_mem_phis hphi).2) hmend
    hchanged
  have hnew := (List.append_eq_nil_iff.mp hreplaced).2
  have hkept : phis'.filter (isLeft parents s₁.pruned) = phis' := by
    refine List.filter_eq_self.mpr (fun phi hphi => isLeft_iff_collapsed?.mpr ?_)
    exact List.filterMap_eq_nil_iff.mp hnew phi hphi
  refine ⟨rfl, rfl, hs.setInstructions ?_⟩
  rw [hkept, Function.instructions_of_block? hk,
    ← List.takeWhile_append_dropWhile (l := k.instructions)]
  exact List.rel_append hphis (List.forall₂_same.mpr (fun i _ => .refl i))

/-- **Repair that is not marked as a change** drops at most loose operands. -/
theorem run_samePairs (h : run f T ids = .ok s) (hquiet : s.changed = false) :
    s.constants = T ∧ s.ids = ids ∧ s.replacements = [] ∧ f.SamePairs s.function := by
  unfold run at h
  obtain ⟨s₁, hfold, h⟩ := bind_eq_ok.mp h
  cases h
  have hq : s₁.Quiet := by simpa [Quiet] using hquiet
  obtain ⟨hT, hids, hsame⟩ := foldlM_induct (P := fun s => s.Quiet →
    s.constants = T ∧ s.ids = ids ∧ f.SamePairs s.function) hfold (fun _ => ⟨rfl, rfl, .refl f⟩)
    (fun s b s' _ ih hvisit hquiet => by
      obtain ⟨hT, hids, hs⟩ := ih (visit_mono hvisit hquiet)
      unfold visit at hvisit
      split at hvisit
      · rename_i k hk
        obtain ⟨hT', hids', hs'⟩ := mendBlock_samePairs hk hs hvisit hquiet
        exact ⟨hT'.trans hT, hids'.trans hids, hs'⟩
      · cases hvisit
        exact ⟨hT, hids, hs⟩) hq
  refine ⟨hT, hids, hq.2, ?_⟩
  rw [hq.2]
  simpa [substitute] using hsame

end PhiRepair

namespace Function

variable {f g f' : Function} {T T' T₁ : ConstantTable} {b c : BlockKey} {w w' : Workspace}
  {folded : Folding} {repaired : PhiRepair} {mended : BlockKey → List Instruction} {changed : Bool}
  {globals : List Instruction} {bound : UInt32} {x : Id} {sel : SelectionBranch}

/-! ## 3. Closed and finished functions -/

/-- No header is due for a new ending. -/
def Closed (f : Function) (T : ConstantTable) : Prop := ∀ b, f.Reached b → f.isOpen T b = false

/-- Nothing is left to do: the function is settled, and its phis agree with the predecessors and
have no loose operands. -/
structure Finished (f : Function) (T : ConstantTable) : Prop extends f.Settled T where
  agree : f.PhisAgree
  even : ∀ b, f.Reached b → ∀ k, f.block? b = some k → ∀ phi ∈ k.phis,
    phi.operands.length % 2 = 0

/-- What is known about a header depends on the constants that the function mentions. -/
theorem known_congr (hb : b ∈ f.layout) (hsel : f.selectionAt? b = some sel)
    (hT : ∀ x ∈ f.bodyUses, T'.bool? x = T.bool? x ∧ T'.int? x = T.int? x) :
    T'.takenTarget? sel.branch = T.takenTarget? sel.branch ∧
      T'.bool? sel.condition = T.bool? sel.condition := by
  obtain ⟨k, hk, hksel⟩ := Option.bind_eq_some_iff.mp hsel
  obtain ⟨body, i, heq, -, -, -, hcond⟩ := Block.exists_end_of_selection? hksel
  have hused : sel.condition ∈ f.bodyUses := by
    refine mem_bodyUses.mpr ⟨b, hb, sel.branch, ?_, Instruction.mem_uses_of_idOperand? hcond⟩
    simp [instructions_of_block? hk, heq]
  obtain ⟨hbool, hint⟩ := hT _ hused
  exact ⟨by simp [ConstantTable.takenTarget?, hcond, hbool, hint], hbool⟩

theorem isOpen_congr (hb : b ∈ f.layout)
    (hT : ∀ x ∈ f.bodyUses, T'.bool? x = T.bool? x ∧ T'.int? x = T.int? x) :
    f.isOpen T' b = f.isOpen T b := by
  unfold isOpen
  cases hsel : (f.block? b).bind Block.selection? with
  | none => rfl
  | some sel =>
    obtain ⟨htaken, hbool⟩ := known_congr hb hsel hT
    simp only [htaken, isNarrowed, hbool]

theorem NewEnding.congr (hf : f.Coherent)
    (hT : ∀ x ∈ f.bodyUses, T'.bool? x = T.bool? x ∧ T'.int? x = T.int? x)
    (h : f.NewEnding T' g T₁ b) : f.NewEnding T g T₁ b := by
  obtain ⟨live, hlive⟩ := Option.isSome_iff_exists.mp h.decided
  obtain ⟨sel, hsel, -⟩ := Option.bind_eq_some_iff.mp hlive
  obtain ⟨htaken, hbool⟩ := known_congr (h.reached.mem_layout hf) hsel hT
  have hdecided : f.decided? T b = f.decided? T' b := by simp [decided?, hsel, htaken]
  have hnarrowed : f.isNarrowedAt T b = f.isNarrowedAt T' b := by
    simp only [isNarrowedAt, hsel, Option.any_some, htaken]
    congr 1
    funext l
    simp only [isNarrowed, hbool]
  exact ⟨h.reached, hdecided ▸ h.decided, hnarrowed ▸ h.ending⟩

theorem closed_congr (hf : f.Coherent)
    (hT : ∀ x ∈ f.bodyUses, T'.bool? x = T.bool? x ∧ T'.int? x = T.int? x) :
    f.Closed T' ↔ f.Closed T :=
  forall_congr' (fun _ => forall_congr' (fun hb => by rw [isOpen_congr (hb.mem_layout hf) hT]))

theorem SamePairs.closed (h : f.SamePairs g) (hf : f.Coherent) (hclosed : f.Closed T) :
    g.Closed T := by
  intro b hb
  have htargets : g.targets = f.targets := funext h.targets
  rw [Reached, htargets, h.frame.reachedBy_iff] at hb
  rw [h.isOpen hf, hclosed b hb]

theorem PhisAgree.namesPredecessors (hf : f.Coherent) (h : f.PhisAgree) : f.NamesPredecessors := by
  intro b hb k hk phi hphi _ p hp a ha
  obtain ⟨a', ha', hlabel, hedge⟩ := h.parents b hb k hk phi hphi p hp
  obtain rfl := Option.some.inj ((hf.blockOf?_eq_some_iff.mpr ⟨ha', hlabel⟩).symm.trans ha)
  exact hedge

theorem finished_congr (hf : f.Coherent)
    (hT : ∀ x ∈ f.bodyUses, T'.bool? x = T.bool? x ∧ T'.int? x = T.int? x) :
    f.Finished T' ↔ f.Finished T :=
  ⟨fun h => ⟨⟨(closed_congr hf hT).mp h.closed, h.needed⟩, h.agree, h.even⟩,
    fun h => ⟨⟨(closed_congr hf hT).mpr h.closed, h.needed⟩, h.agree, h.even⟩⟩

/-- **A finished function stays as it is.** -/
theorem Finished.eliminateDeadBranches_eq (hf : f.WellFormed) (hread : f.Readable)
    (h : f.Finished w.constants) : f.eliminateDeadBranches w = .ok (f, w, false) :=
  h.toSettled.eliminateDeadBranches_eq hf.coherent hread hf.sound.hasParts h.agree h.even

namespace Phases

theorem even (h : Phases f w f' w' folded repaired mended) {k : Block} (hb : f'.Reached b)
    (hk : f'.block? b = some k) {phi : Instruction} (hphi : phi ∈ k.phis) :
    phi.operands.length % 2 = 0 := by
  obtain ⟨k₁, phi₀, phi₁, -, -, ⟨supplied, rfl, -⟩, rfl⟩ := h.exists_mends hb hk hphi
  simp [Instruction.mapRefs, PhiRepair.mended, length_unpair]

/-- **A processed function is finished once no header is due.** -/
theorem finished (h : Phases f w f' w' folded repaired mended) (hclosed : f'.Closed T) :
    f'.Finished T :=
  ⟨⟨hclosed, h.needsAll⟩, h.phisAgree, fun _ hb _ hk _ hphi => h.even hb hk hphi⟩

/-- **A processed body lives among the globals** that it was processed with. -/
theorem livesIn (hlives : f.LivesIn globals bound)
    (hT : w'.constants.Anchored w'.ids globals bound) {P : Id → Prop} {ids : IdSupply}
    (hgrows : w'.constants.Grows P w'.ids T ids) (h : Phases f w f' w' folded repaired mended) :
    f'.LivesIn (globals ++ T.newGlobals) ids.bound := by
  have hids := h.bodyIds_sublist.subset
  have hlater := hlives.later (hgrows.tracks hT.toTracks)
  refine ⟨fun x hx => hlater.below x (hids hx), fun x hx => hlater.own x (hids hx),
    fun x hx => ?_⟩
  rcases h.mem_bodyUses hx with hx | hnew
  · exact hlater.uses x hx
  · have hlt : x.word.toNat < w'.ids.bound.toNat := by
      rcases hnew with hx | ⟨t, hx⟩ | ⟨c, hc⟩
      · exact hT.lt_bound (hT.mem_results_of_bool? (hT.comesFrom.isTrue x hx))
      · exact hT.lt_bound (hT.comesFrom.undef_mem_results hx)
      · obtain ⟨hlayout, hlabel⟩ := h.wellFormed.coherent.indexed x c hc
        have hlow := hlives.below x (Function.mem_bodyIds.mpr (.inl ⟨c, hlayout, hlabel⟩))
        exact Nat.lt_of_lt_of_le (UInt32.lt_iff_toNat_lt.mp hlow) hT.bound_le
    exact UInt32.lt_iff_toNat_lt.mpr (Nat.lt_of_lt_of_le hlt hgrows.known_of_lt.1)

end Phases

/-! ## 4. Functions that can be processed again -/

/-- What processing needs of a function, and what it leaves of it. -/
structure Fit (f : Function) (globals : List Instruction) (bound : UInt32) : Prop where
  wellFormed : f.WellFormed
  readable : f.Readable
  names : f.NamesPredecessors
  lives : f.LivesIn globals bound

theorem Fit.later {ids : IdSupply} (hf : f.Fit globals bound) (hT : T.Tracks ids globals bound) :
    f.Fit (globals ++ T.newGlobals) ids.bound :=
  ⟨hf.wellFormed, hf.readable, hf.names, hf.lives.later hT⟩

/-- **A processed function can be processed again.** -/
theorem Phases.fit (hf : f.Fit globals bound) (hT : w'.constants.Anchored w'.ids globals bound)
    {P : Id → Prop} {ids : IdSupply} (hgrows : w'.constants.Grows P w'.ids T ids)
    (h : Phases f w f' w' folded repaired mended) : f'.Fit (globals ++ T.newGlobals) ids.bound where
  wellFormed := h.wellFormed_result
  readable := h.readable hf.readable
  names := h.phisAgree.namesPredecessors h.remove.coherent
  lives := h.livesIn hf.lives hT hgrows

/-! ## 5. Calls -/

theorem mem_callees : x ∈ f.callees ↔ ∃ b ∈ f.layout, ∃ i ∈ f.instructions b,
    i.opcode = .functionCall ∧ i.idOperand? 0 = some x := by
  simp only [callees, List.mem_filterMap, mem_body, Prod.exists]
  constructor
  · rintro ⟨b, i, ⟨hb, hi⟩, hx⟩
    split at hx
    · rename_i ho
      exact ⟨b, hb, i, hi, ho, hx⟩
    · cases hx
  · rintro ⟨b, hb, i, hi, ho, hx⟩
    exact ⟨b, i, ⟨hb, hi⟩, by rw [if_pos ho, hx]⟩

/-- **Unless a phi gives way to its value, no call is new.** -/
theorem Phases.mem_callees (h : Phases f w f' w' folded repaired mended)
    (hreplaced : repaired.replacements = []) (hx : x ∈ f'.callees) : x ∈ f.callees := by
  obtain ⟨b, hb, i', hi', ho, hx⟩ := Function.mem_callees.mp hx
  obtain ⟨i, rfl, hi⟩ := h.origin hb hi'
  have hid : i.mapRefs (PhiRepair.rename repaired.replacements) = i := by
    have hrename : PhiRepair.rename [] = fun x => x := funext (fun x => by rw [PhiRepair.rename])
    rw [hreplaced, hrename, Instruction.mapRefs_id]
  rw [hid] at ho hx
  have hlayout := h.mem_layout hb
  obtain ⟨k, hk, -⟩ := h.wellFormed.coherent.exists_block hlayout
  obtain ⟨k₁, hk₁, -, body, merge?, t, merge?', t', hp, hp₁, -⟩ := h.fold.block b hlayout k hk
  rcases hi with hi | ⟨hlive, hi⟩
  · rw [instructions_of_block? hk₁] at hi
    rcases hp₁.mem_instructions_iff.mp hi with hi | hi | rfl
    · refine Function.mem_callees.mpr ⟨b, hlayout, i, ?_, ho, hx⟩
      rw [instructions_of_block? hk]
      exact hp.mem_instructions_iff.mpr (.inl hi)
    · have hmerge := hp₁.merge i hi
      rw [ho] at hmerge
      cases hmerge
    · have hlast := hp₁.last
      rw [ho] at hlast
      cases hlast
  · rw [h.repair.opcode_of_mem_mended hlive hk₁ hi] at ho
    cases ho

/-! ## 6. What processing does -/

/-- Folding changes something exactly if a header is due. -/
theorem Phases.closed_iff (hread : f.Readable) (h : Phases f w f' w' folded repaired mended) :
    f.Closed w.constants ↔ folded.changed = false := by
  constructor
  · intro hclosed
    have hrun : Folding.run f w.constants w.ids =
        .ok ⟨f, w.constants, w.ids, f.reachable, false⟩ :=
      (Folding.run_eq_iff h.wellFormed.coherent hread).mpr hclosed
    rw [Except.ok.inj (h.run.symm.trans hrun)]
  · intro hchanged
    exact (Folding.run_eq_iff h.wellFormed.coherent hread).mp
      (Folding.run_quiet h.run hchanged ▸ h.run)

/-- **A function that is not marked as changed is finished afterwards**, and no call is new. -/
theorem finished_of_unmarked (hf : f.WellFormed) (hread : f.Readable)
    (h : f.eliminateDeadBranches w = .ok (f', w', false)) :
    w' = w ∧ f'.Finished w.constants ∧ ∀ x ∈ f'.callees, x ∈ f.callees := by
  obtain ⟨folded, hfold, h⟩ := bind_eq_ok.mp h
  obtain ⟨repaired, hrepair, h⟩ := bind_eq_ok.mp h
  obtain ⟨⟨g, killed, removed⟩, hremove, h⟩ := bind_eq_ok.mp h
  simp only [Except.ok.injEq, Prod.mk.injEq, Bool.or_eq_false_iff] at h
  obtain ⟨rfl, rfl, ⟨hfolded, hrepaired⟩, rfl⟩ := h
  obtain ⟨mended, hphases⟩ := phases_of_runs hf hfold hrepair hremove
  have hclosed := (hphases.closed_iff hread).mpr hfolded
  obtain rfl := Folding.run_quiet hfold hfolded
  obtain ⟨hT, hids, hreplaced, hpairs⟩ := PhiRepair.run_samePairs hrepair hrepaired
  obtain ⟨rfl, hkilled⟩ := removeUnreachable_quiet hremove
  refine ⟨?_, hphases.finished (hpairs.closed hf.coherent hclosed),
    fun x hx => hphases.mem_callees hreplaced hx⟩
  rw [hT, hids, hkilled, hreplaced]
  rfl

/-- **A function is left alone exactly if it is finished.** -/
theorem eliminateDeadBranches_eq_iff (hf : f.WellFormed) (hread : f.Readable) :
    f.eliminateDeadBranches w = .ok (f, w, false) ↔ f.Finished w.constants :=
  ⟨fun h => (finished_of_unmarked hf hread h).2.1, fun h => h.eliminateDeadBranches_eq hf hread⟩

/-- What there is to do before and after a function is processed. -/
structure Handled (f : Function) (T : ConstantTable) (f' : Function) (T' : ConstantTable) :
    Prop where
  workload_le : f'.workload T' ≤ f.workload T
  /-- If a header was due, the workload is smaller. -/
  workload_lt : ¬ f.Closed T → f'.workload T' + 1 ≤ f.workload T
  newEnding : ¬ f.Closed T → ∃ b, f.NewEnding T f' T' b
  /-- If a call is new, a header was due, and the workload was not one. -/
  newCall : ∀ x ∈ f'.callees, x ∉ f.callees → ¬ f.Closed T ∧ 2 ≤ f.workload T
  finished : f'.Closed T' → f'.Finished T'
  kept : f.Finished T → f' = f

/-- **What processing a function does to its workload**, whichever tables of constants are looked at
before and after. -/
theorem handled (hf : f.Fit globals bound) (hw : w.constants.Anchored w.ids globals bound)
    (hbefore : T.Continues bound w.constants)
    (h : f.eliminateDeadBranches w = .ok (f', w', changed))
    (hafter : w'.constants.Extends T') : f.Handled T f' T' := by
  have hwf := hf.wellFormed
  obtain ⟨folded, repaired, mended, hphases⟩ := eliminateDeadBranches_phases hwf h
  have hknown : ∀ x ∈ f.bodyUses, w.constants.bool? x = T.bool? x ∧
      w.constants.int? x = T.int? x := fun x hx =>
    hbefore.agrees x (UInt32.lt_iff_toNat_lt.mp (hf.lives.uses x hx))
  have hdue : f.Closed T ↔ folded.changed = false :=
    (closed_congr hwf.coherent hknown).symm.trans (hphases.closed_iff hf.readable)
  -- the workload before, after folding, and in the end
  have hanchored := hphases.fold.grows.anchored hw
  have hrest := hphases.lighter (hf.lives.apart hanchored)
    (hphases.constants ▸ hphases.repair.grows.extends hanchored)
  have hload := (Folding.run_lighter hwf.coherent hwf.sound.hasParts hw hphases.run).2
  have hstart := (Lighter.of_extends (f := f) hbefore.toExtends).workload_le hwf.coherent
    hwf.coherent
  have hend := (hrest.trans (.of_extends hafter)).workload_le
    hphases.wellFormed_folded.coherent hphases.remove.coherent
  have hchanged : ¬ f.Closed T → folded.changed = true := fun hnot => by
    simpa using fun hc => hnot (hdue.mpr hc)
  refine ⟨by omega, fun hnot => ?_, fun hnot => ?_, fun x hx hnew => ?_, hphases.finished,
    fun hfinished => ?_⟩
  · rw [hchanged hnot, if_pos rfl] at hload
    omega
  · obtain ⟨b, hb⟩ := Folding.run_newEnding hwf.coherent hwf.sound.hasParts hw hphases.run
      (hchanged hnot)
    exact ⟨b, (hb.later (hrest.trans (.of_extends hafter))).congr hwf.coherent hknown⟩
  · have hreplaced : repaired.replacements ≠ [] := fun hnil =>
      hnew (hphases.mem_callees hnil hx)
    obtain ⟨hfolded, htwo⟩ := hphases.two_le_workload hf.names hw hreplaced
    refine ⟨fun hclosed => ?_, by omega⟩
    rw [hdue.mp hclosed] at hfolded
    cases hfolded
  · have hsame := Finished.eliminateDeadBranches_eq hwf hf.readable
      ((finished_congr hwf.coherent hknown).mpr hfinished)
    cases h.symm.trans hsame
    rfl

end Function
end ShaderIR
