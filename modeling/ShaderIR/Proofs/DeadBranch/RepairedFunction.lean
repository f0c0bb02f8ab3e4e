import ShaderIR.Proofs.DeadBranch.Repair

/-!
# The function after phi repair

Phi repair touches phis and renames values.  A label is no value, so every branch and every merge
declaration means what it meant before, and control gets where it got before.

* `Repaired.rename_label`: labels are not renamed;
* `Repaired.parts`: the parts of a block after repair;
* `Repaired.targets_eq`, `Repaired.reached_iff_of_fixed`: branches are renamed, and control is the same
  unless that gives them new targets;
* `Repaired.targets`, `Repaired.mem_declared_iff`, `Repaired.reached_iff`: in sound blocks it does not.
-/

namespace ShaderIR

/-- The labels that a block declares as its merge block and its continue target. -/
def Function.declared (f : Function) (b : BlockKey) : List Id :=
  match (f.block? b).bind Block.mergeAndContinue? with
  | some (merge, continueTarget?) => merge :: continueTarget?.toList
  | none => []

theorem Function.declared_of_block? {f : Function} {b : BlockKey} {k : Block}
    {body : List Instruction} {merge? : Option Instruction} {t : Instruction}
    (hk : f.block? b = some k) (hp : k.Parts body merge? t) {l : Id} :
    l ∈ f.declared b ↔
      ∃ p, merge?.bind Instruction.mergeTargets? = some p ∧ (l = p.1 ∨ p.2 = some l) := by
  simp only [declared, hk, Option.bind_some, hp.mergeAndContinue?_eq]
  cases merge?.bind Instruction.mergeTargets? with
  | none => simp
  | some p =>
    obtain ⟨m, c?⟩ := p
    simp

theorem Function.mem_instructions_of_phis {f : Function} {b : BlockKey} {k : Block}
    {phi : Instruction} (hk : f.block? b = some k) (hphi : phi ∈ k.phis) :
    phi ∈ f.instructions b := by
  rw [instructions_of_block? hk]
  exact (Block.mem_of_mem_phis hphi).1

/-- Renaming a block renames its targets. -/
theorem Block.targets_map (l : Id) (is : List Instruction) (g : Id → Id) :
    (Block.mk l (is.map (Instruction.mapRefs g))).targets = (Block.mk l is).targets.map g := by
  simp only [targets, terminator?, List.getLast?_map]
  cases is.getLast? with
  | none => rfl
  | some t => cases ht : t.opcode.isTerminator <;> simp [Option.filter_some, ht]

/-- Phis in front of a block do not change its targets. -/
theorem Block.targets_append_phis {l : Id} {phis is : List Instruction}
    (h : ∀ i ∈ phis, i.opcode.isPhi = true) :
    (Block.mk l (phis ++ is)).targets = (Block.mk l is).targets := by
  simp only [targets, terminator?, List.getLast?_append]
  cases is.getLast? with
  | some t => rfl
  | none =>
    cases hlast : phis.getLast? with
    | none => rfl
    | some i =>
      have ho := Opcode.isPhi_iff.mp (h i (List.mem_of_getLast? hlast))
      simp [Option.filter_some, ho, Opcode.isTerminator]

/-- Phis, followed by what is past the phis of another list. -/
theorem phis_append_dropWhile {phis rest : List Instruction}
    (h : ∀ i ∈ phis, i.opcode.isPhi = true) :
    (phis ++ rest.dropWhile (fun i => i.opcode.isPhi)).takeWhile (fun i => i.opcode.isPhi) = phis ∧
      (phis ++ rest.dropWhile (fun i => i.opcode.isPhi)).dropWhile (fun i => i.opcode.isPhi) =
        rest.dropWhile (fun i => i.opcode.isPhi) := by
  rw [List.takeWhile_append_of_pos h, List.dropWhile_append_of_pos h,
    List.takeWhile_eq_nil_iff.mpr (List.dropWhile_get_zero_not _ rest),
    List.dropWhile_eq_self_iff.mpr (List.dropWhile_get_zero_not _ rest), List.append_nil]
  exact ⟨rfl, rfl⟩

theorem Instruction.mem_blockRefs_mapRefs {i : Instruction} {g : Id → Id} {l : Id}
    (h : l ∈ (i.mapRefs g).blockRefs) : ∃ l₀ ∈ i.blockRefs, l = g l₀ := by
  rcases mem_blockRefs.mp h with hl | ⟨p, hp, hl⟩ | ⟨hphi, p, hp, rfl⟩
  · rw [branchTargets_mapRefs] at hl
    obtain ⟨l₀, hl₀, rfl⟩ := List.mem_map.mp hl
    exact ⟨l₀, mem_blockRefs.mpr (.inl hl₀), rfl⟩
  · rw [mergeTargets?_mapRefs] at hp
    obtain ⟨⟨m, c?⟩, hq, rfl⟩ := Option.map_eq_some_iff.mp hp
    rcases hl with rfl | hl
    · exact ⟨m, mem_blockRefs.mpr (.inr (.inl ⟨_, hq, .inl rfl⟩)), rfl⟩
    · obtain ⟨c, hc, rfl⟩ := Option.map_eq_some_iff.mp hl
      exact ⟨c, mem_blockRefs.mpr (.inr (.inl ⟨_, hq, .inr hc⟩)), rfl⟩
  · rw [phiIncoming_mapRefs] at hp
    obtain ⟨q, hq, rfl⟩ := List.mem_map.mp hp
    exact ⟨q.2, mem_blockRefs.mpr (.inr (.inr ⟨hphi, q, hq, rfl⟩)), rfl⟩

namespace PhiRepair.Repaired

variable {P : Id → Prop} {f : Function} {T : ConstantTable} {ids : IdSupply} {s : PhiRepair}
  {mended : BlockKey → List Instruction} {b c : BlockKey} {k : Block} {body : List Instruction}
  {merge? : Option Instruction} {t : Instruction} {l : Id}

/-! ## 1. Renaming -/

/-- What is replaced is the result of a phi. -/
theorem phi_of_mem_replacements (h : Repaired P f T ids s mended) {r : Id × Id}
    (hr : r ∈ s.replacements) :
    ∃ b, f.Reached b ∧ ∃ k, f.block? b = some k ∧ ∃ phi ∈ k.phis, phi.result? = some r.1 := by
  obtain ⟨b, hb, phi', hphi', hcol⟩ := (h.mem_replacements r).mp hr
  obtain ⟨k, hk, -⟩ := h.source.exists_block (hb.mem_layout h.source)
  obtain ⟨phi, hphi, hmends⟩ := exists_of_mem_right (h.mends b hb k hk) hphi'
  refine ⟨b, hb, k, hk, phi, hphi, ?_⟩
  rw [← hmends.same.2.2]
  exact (collapsed?_eq_some_iff.mp hcol).1

/-- **Labels are not renamed.** -/
theorem rename_label (h : Repaired P f T ids s mended) (hl : f.blockOf? l = some c) :
    rename s.replacements l = l := by
  refine rename_of_not_mem (fun hmem => ?_)
  obtain ⟨r, hr, rfl⟩ := List.mem_map.mp hmem
  obtain ⟨hc, hlc⟩ := h.source.indexed _ c hl
  obtain ⟨b, hb, k, hk, phi, hphi, hres⟩ := h.phi_of_mem_replacements hr
  exact h.unique.label c hc b (hb.mem_layout h.source) phi
    (Function.mem_instructions_of_phis hk hphi) r.1 hlc
    hres

/-! ## 2. Blocks -/

/-- The body of a block before renaming: of a reachable block the phis that are left and what follows
them, of any other block all of it. -/
def leftBody (f : Function) (s : PhiRepair) (mended : BlockKey → List Instruction) (b : BlockKey)
    (body : List Instruction) : List Instruction :=
  if f.reachable.contains b then
    (mended b).filter (isLeft (f.phiParents b) s.pruned) ++
      body.dropWhile (fun i => i.opcode.isPhi)
  else body

theorem leftBody_of_reached (hf : f.Coherent) (hb : f.Reached b) :
    leftBody f s mended b body =
      (mended b).filter (isLeft (f.phiParents b) s.pruned) ++
        body.dropWhile (fun i => i.opcode.isPhi) :=
  if_pos ((Function.contains_reachable_iff hf).mpr hb)

theorem leftBody_of_not_reached (hf : f.Coherent) (hb : ¬ f.Reached b) :
    leftBody f s mended b body = body :=
  if_neg (fun hc => hb ((Function.contains_reachable_iff hf).mp hc))

theorem opcode_of_mem_mended (h : Repaired P f T ids s mended) (hb : f.Reached b)
    (hk : f.block? b = some k) {phi : Instruction} (hphi : phi ∈ mended b) :
    phi.opcode = .phi := by
  obtain ⟨phi₀, hphi₀, hmends⟩ := exists_of_mem_right (h.mends b hb k hk) hphi
  rw [hmends.same.1]
  exact Opcode.isPhi_iff.mp (Block.mem_of_mem_phis hphi₀).2

/-- What is left of a body is one of its instructions or a mended phi. -/
theorem mem_leftBody (hf : f.Coherent) {i : Instruction} (hi : i ∈ leftBody f s mended b body) :
    i ∈ body ∨ (f.Reached b ∧ i ∈ mended b) := by
  by_cases hr : f.Reached b
  · rw [leftBody_of_reached hf hr] at hi
    rcases List.mem_append.mp hi with hi | hi
    · exact .inr ⟨hr, (List.mem_filter.mp hi).1⟩
    · exact .inl ((List.dropWhile_sublist _).subset hi)
  · rw [leftBody_of_not_reached hf hr] at hi
    exact .inl hi

/-- **The parts of a block after repair.** -/
theorem parts (h : Repaired P f T ids s mended) (hb : b ∈ f.layout) (hk : f.block? b = some k)
    (hp : k.Parts body merge? t) :
    ∃ k', s.function.block? b = some k' ∧ k'.label = k.label ∧
      k'.Parts ((leftBody f s mended b body).map (Instruction.mapRefs (rename s.replacements)))
        (merge?.map (Instruction.mapRefs (rename s.replacements)))
        (t.mapRefs (rename s.replacements)) := by
  have hblock : s.function.block? b = some { k with
      instructions := (leftBody f s mended b body ++ merge?.toList ++ [t]).map
        (Instruction.mapRefs (rename s.replacements)) } := by
    by_cases hr : f.Reached b
    · rw [h.live b hr k hk, leftBody_of_reached h.source hr, hp.afterPhis_eq]
      simp only [List.append_assoc]
    · rw [h.dead b hb hr k hk, leftBody_of_not_reached h.source hr, hp.eq]
  refine ⟨_, hblock, rfl, ?_, ?_, ?_, hp.last⟩
  · cases merge? <;> simp
  · intro i hi
    obtain ⟨j, hj, rfl⟩ := List.mem_map.mp hi
    rcases mem_leftBody h.source hj with hj | ⟨hr, hj⟩
    · exact hp.body j hj
    · rw [Instruction.opcode_mapRefs, h.opcode_of_mem_mended hr hk hj]
      exact ⟨rfl, rfl⟩
  · intro i hi
    obtain ⟨j, hj, rfl⟩ := Option.map_eq_some_iff.mp hi
    exact hp.merge j hj

/-! ## 3. Control -/

/-- **Every branch is left, renamed.**  Mending and taking out phis does not touch the end of a
block. -/
theorem targets_eq (h : Repaired P f T ids s mended) (hb : b ∈ f.layout) :
    s.function.targets b = (f.targets b).map (rename s.replacements) := by
  obtain ⟨k, hk, -⟩ := h.source.exists_block hb
  rw [Function.targets_of_block? hk]
  by_cases hr : f.Reached b
  · have hphis : ∀ i ∈ (mended b).filter (isLeft (f.phiParents b) s.pruned),
        i.opcode.isPhi = true := by
      intro i hi
      rw [h.opcode_of_mem_mended hr hk (List.mem_filter.mp hi).1]
      rfl
    have hsplit : k.instructions = k.phis ++ k.afterPhis := List.takeWhile_append_dropWhile.symm
    have hk' : k.targets = (Block.mk k.label k.afterPhis).targets :=
      calc k.targets
        _ = (Block.mk k.label (k.phis ++ k.afterPhis)).targets := by rw [← hsplit]
        _ = (Block.mk k.label k.afterPhis).targets :=
            Block.targets_append_phis (fun i hi => (Block.mem_of_mem_phis hi).2)
    rw [Function.targets_of_block? (h.live b hr k hk), Block.targets_map,
      Block.targets_append_phis hphis, hk']
  · rw [Function.targets_of_block? (h.dead b hb hr k hk), Block.targets_map]

/-- Targets that are not renamed are the targets they were. -/
theorem targets_of_fixed (h : Repaired P f T ids s mended)
    (hfix : ∀ l ∈ f.targets b, rename s.replacements l = l) (hb : b ∈ f.layout) :
    s.function.targets b = f.targets b := by
  rw [h.targets_eq hb]
  exact (List.map_congr_left hfix).trans (List.map_id' _)

/-- **Where no target is renamed, control gets where it got before.** -/
theorem reached_iff_of_fixed (h : Repaired P f T ids s mended)
    (hfix : ∀ a ∈ f.layout, ∀ l ∈ f.targets a, rename s.replacements l = l) :
    s.function.Reached b ↔ f.Reached b := by
  rw [Function.Reached, h.frame.reachedBy_iff, Function.Reached]
  refine Function.reachedBy_congr (fun a ha c => ?_) b
  have hlayout := ha.mem_layout h.source
  rw [h.targets_of_fixed (hfix a hlayout) hlayout]

/-- The targets of sound blocks are labels. -/
theorem rename_target (h : Repaired P f T ids s mended) (hs : f.SoundBlocks) (hb : b ∈ f.layout)
    (hl : l ∈ f.targets b) : rename s.replacements l = l := by
  obtain ⟨k, hk, -⟩ := h.source.exists_block hb
  have hks := hs b hb k hk
  obtain ⟨body, merge?, t, hp, -⟩ := hks.parts
  rw [Function.targets_of_block? hk, hp.targets_eq] at hl
  obtain ⟨c, hc⟩ := Option.isSome_iff_exists.mp
    (hks.refs t (hp.mem_instructions_iff.mpr (.inr (.inr rfl))) l
      (Instruction.mem_blockRefs.mpr (.inl hl)))
  exact h.rename_label hc

theorem targets (h : Repaired P f T ids s mended) (hs : f.SoundBlocks) (hb : b ∈ f.layout) :
    s.function.targets b = f.targets b :=
  h.targets_of_fixed (fun _ hl => h.rename_target hs hb hl) hb

theorem mem_declared_iff (h : Repaired P f T ids s mended) (hb : b ∈ f.layout)
    (hk : f.block? b = some k) (hs : f.SoundBlock k) :
    l ∈ s.function.declared b ↔ l ∈ f.declared b := by
  obtain ⟨body, merge?, t, hp, -⟩ := hs.parts
  obtain ⟨k', hk', -, hp'⟩ := h.parts hb hk hp
  rw [Function.declared_of_block? hk' hp', Function.declared_of_block? hk hp]
  have hsame : (merge?.map (Instruction.mapRefs (rename s.replacements))).bind
      Instruction.mergeTargets? = merge?.bind Instruction.mergeTargets? := by
    cases hm : merge? with
    | none => rfl
    | some i =>
      have hrefs := hs.refs i (hp.mem_instructions_iff.mpr (.inr (.inl hm)))
      simp only [Option.map_some, Option.bind_some, Instruction.mergeTargets?_mapRefs]
      cases hi : i.mergeTargets? with
      | none => rfl
      | some p =>
        obtain ⟨m, c?⟩ := p
        have hfix : ∀ l, l = m ∨ c? = some l → rename s.replacements l = l := by
          intro l hl
          obtain ⟨c, hc⟩ := Option.isSome_iff_exists.mp
            (hrefs l (Instruction.mem_blockRefs.mpr (.inr (.inl ⟨_, hi, hl⟩))))
          exact h.rename_label hc
        cases c? with
        | none => simp [hfix m (.inl rfl)]
        | some c => simp [hfix m (.inl rfl), hfix c (.inr rfl)]
  rw [hsame]

theorem reached_iff (h : Repaired P f T ids s mended) (hs : f.SoundBlocks) :
    s.function.Reached b ↔ f.Reached b :=
  h.reached_iff_of_fixed (fun _ ha _ hl => h.rename_target hs ha hl)

/-! ## 4. Definitions -/

theorem results_mended {parents : PhiParents} {phis phis' : List Instruction}
    (h : List.Forall₂ (Mends T parents) phis phis') :
    phis'.filterMap Instruction.result? = phis.filterMap Instruction.result? := by
  induction h with
  | nil => rfl
  | cons hmends _ ih => simp only [List.filterMap_cons, hmends.same.2.2, ih]

theorem results_mapRefs (g : Id → Id) (is : List Instruction) :
    (is.map (Instruction.mapRefs g)).filterMap Instruction.result? =
      is.filterMap Instruction.result? := List.filterMap_map

/-- Phi repair defines nothing new. -/
theorem results_sublist (h : Repaired P f T ids s mended) (hb : b ∈ f.layout) :
    ((s.function.instructions b).filterMap Instruction.result?).Sublist
      ((f.instructions b).filterMap Instruction.result?) := by
  obtain ⟨k, hk, -⟩ := h.source.exists_block hb
  rw [Function.instructions_of_block? hk]
  by_cases hr : f.Reached b
  · have hsplit : k.instructions = k.phis ++ k.afterPhis := List.takeWhile_append_dropWhile.symm
    rw [Function.instructions_of_block? (h.live b hr k hk), results_mapRefs, hsplit,
      List.filterMap_append, List.filterMap_append, ← results_mended (h.mends b hr k hk)]
    exact (List.filter_sublist.filterMap _).append (.refl _)
  · rw [Function.instructions_of_block? (h.dead b hb hr k hk), results_mapRefs]

theorem bodyIds_sublist (h : Repaired P f T ids s mended) :
    s.function.bodyIds.Sublist f.bodyIds := by
  refine Function.bodyIds_sublist (by rw [h.frame.layout]) (fun b _ => h.frame.label? b)
    (fun b hb => ?_)
  rw [h.frame.layout] at hb
  exact h.results_sublist hb

/-- What is no longer defined is a phi that has given way. -/
theorem mem_results (h : Repaired P f T ids s mended) (hb : b ∈ f.layout) {x : Id}
    (hx : x ∈ (f.instructions b).filterMap Instruction.result?) :
    x ∈ (s.function.instructions b).filterMap Instruction.result? ∨
      x ∈ s.replacements.map Prod.fst := by
  obtain ⟨k, hk, -⟩ := h.source.exists_block hb
  rw [Function.instructions_of_block? hk] at hx
  by_cases hr : f.Reached b
  · have hsplit : k.instructions = k.phis ++ k.afterPhis := List.takeWhile_append_dropWhile.symm
    rw [Function.instructions_of_block? (h.live b hr k hk), results_mapRefs, List.filterMap_append]
    rw [hsplit, List.filterMap_append, ← results_mended (h.mends b hr k hk)] at hx
    rcases List.mem_append.mp hx with hx | hx
    · obtain ⟨phi, hphi, hres⟩ := List.mem_filterMap.mp hx
      cases hcol : collapsed? (f.phiParents b) s.pruned phi with
      | none =>
        refine .inl (List.mem_append_left _ (List.mem_filterMap.mpr ⟨phi, ?_, hres⟩))
        exact List.mem_filter.mpr ⟨hphi, isLeft_iff_collapsed?.mpr hcol⟩
      | some r =>
        have hrx : r.1 = x := Option.some.inj ((collapsed?_eq_some_iff.mp hcol).1.symm.trans hres)
        exact .inr (hrx ▸ List.mem_map_of_mem ((h.mem_replacements r).mpr ⟨b, hr, phi, hphi, hcol⟩))
    · exact .inl (List.mem_append_right _ hx)
  · left
    rwa [Function.instructions_of_block? (h.dead b hb hr k hk), results_mapRefs]

theorem mem_bodyIds (h : Repaired P f T ids s mended) {x : Id} (hx : x ∈ f.bodyIds) :
    x ∈ s.function.bodyIds ∨ x ∈ s.replacements.map Prod.fst := by
  rw [Function.mem_bodyIds, h.frame.layout]
  rcases Function.mem_bodyIds.mp hx with ⟨b, hb, hlabel⟩ | ⟨b, hb, i, hi, hres⟩
  · exact .inl (.inl ⟨b, hb, (h.frame.label? b).trans hlabel⟩)
  · rcases h.mem_results hb (List.mem_filterMap.mpr ⟨i, hi, hres⟩) with hleft | hgone
    · obtain ⟨j, hj, hjx⟩ := List.mem_filterMap.mp hleft
      exact .inl (.inr ⟨b, hb, j, hj, hjx⟩)
    · exact .inr hgone

/-- What gives way was defined. -/
theorem mem_bodyIds_of_replaced (h : Repaired P f T ids s mended) {x : Id}
    (hx : x ∈ s.replacements.map Prod.fst) : x ∈ f.bodyIds := by
  obtain ⟨r, hr, rfl⟩ := List.mem_map.mp hx
  obtain ⟨b, hb, k, hk, phi, hphi, hres⟩ := h.phi_of_mem_replacements hr
  exact Function.mem_bodyIds.mpr
    (.inr ⟨b, hb.mem_layout h.source, phi, Function.mem_instructions_of_phis hk hphi, hres⟩)

/-! ## 5. Soundness -/

theorem blockOf?_of_mended (h : Repaired P f T ids s mended) (hr : f.Reached b)
    (hk : f.block? b = some k) (hs : f.SoundBlock k) {phi : Instruction} (hphi : phi ∈ mended b)
    {p : Id × Id} (hp : p ∈ phi.phiIncoming) : (f.blockOf? p.2).isSome := by
  obtain ⟨phi₀, hphi₀, supplied, rfl, hsupplied, -⟩ :=
    exists_of_mem_right (h.mends b hr k hk) hphi
  rw [phiIncoming_mended] at hp
  rcases List.mem_append.mp hp with hp | hp
  · have hphi₀ := Block.mem_of_mem_phis hphi₀
    exact hs.refs phi₀ hphi₀.1 p.2 (Instruction.mem_blockRefs.mpr
      (.inr (.inr ⟨hphi₀.2, p, (List.mem_filter.mp hp).1, rfl⟩)))
  · obtain ⟨a, ha, -⟩ := (Function.mem_phiParents_live h.source).mp (hsupplied p hp).1
    simp [ha]

/-- The labels that a block names are labels still. -/
theorem refs_leftBody (h : Repaired P f T ids s mended) (hk : f.block? b = some k)
    (hs : f.SoundBlock k) (hp : k.Parts body merge? t) {i : Instruction}
    (hi : i ∈ leftBody f s mended b body) (hl : l ∈ i.blockRefs) : (f.blockOf? l).isSome := by
  rcases mem_leftBody h.source hi with hi | ⟨hr, hi⟩
  · exact hs.refs i (hp.mem_instructions_iff.mpr (.inl hi)) l hl
  · have ho := h.opcode_of_mem_mended hr hk hi
    rcases Instruction.mem_blockRefs.mp hl with hl | ⟨q, hq, -⟩ | ⟨-, q, hq, rfl⟩
    · simp [Instruction.branchTargets, ho] at hl
    · simp [Instruction.mergeTargets?, ho] at hq
    · exact h.blockOf?_of_mended hr hk hs hi hq

theorem phisLead_leftBody (h : Repaired P f T ids s mended) (hk : f.block? b = some k)
    (hbody : PhisLead body) : PhisLead (leftBody f s mended b body) := by
  by_cases hr : f.Reached b
  · have hphi : ∀ i ∈ (mended b).filter (isLeft (f.phiParents b) s.pruned),
        i.opcode.isPhi = true := by
      intro i hi
      rw [h.opcode_of_mem_mended hr hk (List.mem_filter.mp hi).1]
      rfl
    rw [leftBody_of_reached h.source hr]
    refine List.pairwise_append.mpr ⟨?_, List.Pairwise.sublist (List.dropWhile_sublist _) hbody,
      fun i hi j _ _ _ => hphi i hi⟩
    exact List.pairwise_of_forall_mem_list (fun i hi j _ _ _ => hphi i hi)
  · rwa [leftBody_of_not_reached h.source hr]

/-- **Blocks stay sound.** -/
theorem soundBlocks (h : Repaired P f T ids s mended) (hs : f.SoundBlocks) :
    s.function.SoundBlocks := by
  intro b hb k' hk'
  rw [h.frame.layout] at hb
  obtain ⟨k, hk, -⟩ := h.source.exists_block hb
  have hks := hs b hb k hk
  obtain ⟨body, merge?, t, hp, hfits⟩ := hks.parts
  obtain ⟨k₁, hk₁, -, hp'⟩ := h.parts hb hk hp
  obtain rfl : k₁ = k' := Option.some.inj (hk₁.symm.trans hk')
  refine h.frame.soundBlock_iff.mpr ⟨⟨_, _, _, hp', ?_⟩, ?_, ?_⟩
  · intro i hi
    obtain ⟨j, hj, rfl⟩ := Option.map_eq_some_iff.mp hi
    exact hfits j hj
  · rw [hp'.eq, List.append_assoc, phisLead_append_iff hp'.end_not_phi]
    have hphis := hks.phis
    rw [hp.eq, List.append_assoc, phisLead_append_iff hp.end_not_phi] at hphis
    exact List.pairwise_map.mpr (h.phisLead_leftBody hk hphis)
  · have hrefs : ∀ j : Instruction, (∀ l ∈ j.blockRefs, (f.blockOf? l).isSome) →
        ∀ l ∈ (j.mapRefs (rename s.replacements)).blockRefs, (f.blockOf? l).isSome := by
      intro j hj l hl
      obtain ⟨l₀, hl₀, rfl⟩ := Instruction.mem_blockRefs_mapRefs hl
      obtain ⟨c, hc⟩ := Option.isSome_iff_exists.mp (hj l₀ hl₀)
      rw [h.rename_label hc]
      exact hj l₀ hl₀
    intro i hi
    rcases hp'.mem_instructions_iff.mp hi with hi | hi | rfl
    · obtain ⟨j, hj, rfl⟩ := List.mem_map.mp hi
      exact hrefs j (fun l hl => h.refs_leftBody hk hks hp hj hl)
    · obtain ⟨j, hj, rfl⟩ := Option.map_eq_some_iff.mp hi
      exact hrefs j (hks.refs j (hp.mem_instructions_iff.mpr (.inr (.inl hj))))
    · exact hrefs t (hks.refs t (hp.mem_instructions_iff.mpr (.inr (.inr rfl))))

end PhiRepair.Repaired
end ShaderIR
