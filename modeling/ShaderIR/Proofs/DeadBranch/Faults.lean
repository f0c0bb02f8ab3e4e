import ShaderIR.Proofs.DeadBranch.ModuleRun
import ShaderIR.Proofs.DeadBranch.Outcome

/-!
# Failing for want of ids

Functions that the check lets through are rewritten again and again, and no state in between is
checked.  What every state has is less than what was checked, and it is enough: layout and index fit
together, the targets of the branches can be read (`Sane`), and while headers are folded every block
is made of its parts (`Folding.Workable`).  The one thing that can run out is the supply of ids.

* `LacksOnlyIds`: a computation that fails, if at all, for want of ids;
* `Folding.lacksOnlyIds_run`, `PhiRepair.lacksOnlyIds_run`,
  `Function.lacksOnlyIds_removeUnreachable`: the three phases;
* `Module.lacksOnlyIds_eliminateDeadBranches`: modules whose functions are well formed.
-/

namespace ShaderIR

/-! ## 1. Failing for want of ids -/

variable {α β σ : Type}

/-- A computation that fails, if at all, for want of ids. -/
def LacksOnlyIds (x : Except Fault α) : Prop := ∀ e, x = .error e → e = .idsExhausted

namespace LacksOnlyIds

theorem ok (a : α) : LacksOnlyIds (.ok a) := fun _ h => by cases h

theorem of_eq_ok {x : Except Fault α} {a : α} (h : x = .ok a) : LacksOnlyIds x := h ▸ ok a

theorem bind {x : Except Fault α} {next : α → Except Fault β} (hx : LacksOnlyIds x)
    (hnext : ∀ a, x = .ok a → LacksOnlyIds (next a)) : LacksOnlyIds (x >>= next) := by
  cases x with
  | error e =>
    intro e' he
    cases he
    exact hx e rfl
  | ok a => exact hnext a rfl

/-- **A run lacks only ids if its steps do**, in all states that the steps get to. -/
theorem foldlM {step : σ → α → Except Fault σ} {P : σ → Prop} {as : List α} {s : σ} (hs : P s)
    (hfail : ∀ s a, a ∈ as → P s → LacksOnlyIds (step s a))
    (hstep : ∀ s a s', a ∈ as → P s → step s a = .ok s' → P s') :
    LacksOnlyIds (as.foldlM step s) := by
  induction as generalizing s with
  | nil => exact ok s
  | cons a as ih =>
    rw [List.foldlM_cons]
    refine (hfail s a (by simp) hs).bind (fun t ht => ih (hstep s a t (by simp) hs ht) ?_ ?_)
    · exact fun s b hb => hfail s b (by simp [hb])
    · exact fun s b s' hb => hstep s b s' (by simp [hb])

end LacksOnlyIds

/-! ## 2. Ids and constants -/

theorem IdSupply.lacksOnlyIds_take {s : IdSupply} (hs : s.bound ≠ 0) : LacksOnlyIds s.take := by
  intro e h
  unfold IdSupply.take at h
  split at h
  · exact (Except.error.inj h).symm
  · rw [Id.ofWord, if_neg hs] at h
    cases h

theorem ConstantTable.Grows.bound_ne_zero {P : Id → Prop} {T T' : ConstantTable}
    {ids ids' : IdSupply} (h : T.Grows P ids T' ids') (hids : ids.bound ≠ 0) : ids'.bound ≠ 0 := by
  intro hzero
  have hle := h.known_of_lt.1
  rw [hzero] at hle
  exact hids (UInt32.toNat_inj.mp (Nat.le_zero.mp hle))

namespace ConstantTable

variable {T : ConstantTable} {ids : IdSupply}

theorem lacksOnlyIds_undef (hids : ids.bound ≠ 0) (type : Id) :
    LacksOnlyIds (T.undef type ids) := by
  unfold undef
  split
  · exact .ok _
  · exact (IdSupply.lacksOnlyIds_take hids).bind (fun _ _ => .ok _)

theorem lacksOnlyIds_trueConstant (hids : ids.bound ≠ 0) : LacksOnlyIds (T.trueConstant ids) := by
  unfold trueConstant
  split
  · exact .ok _
  · have htype : LacksOnlyIds (T.boolType ids) := by
      unfold boolType
      split
      · exact .ok _
      · exact (IdSupply.lacksOnlyIds_take hids).bind (fun _ _ => .ok _)
    refine htype.bind ?_
    rintro ⟨type, T₁, ids₁⟩ h
    have hids₁ : ids₁.bound ≠ 0 := by
      rcases boolType_cases h with ⟨-, -, rfl⟩ | ⟨-, -, -, hqueues⟩
      · exact hids
      · intro hzero
        have hlt := hqueues.bound_lt
        rw [hzero] at hlt
        exact absurd hlt (by simp)
    exact (IdSupply.lacksOnlyIds_take hids₁).bind (fun _ _ => .ok _)

end ConstantTable

/-! ## 3. Sane functions -/

namespace Function

variable {f g : Function} {b : BlockKey} {is : List Instruction}

/-- Layout and index fit together, and the targets of every branch can be read. -/
structure Sane (f : Function) : Prop where
  coherent : f.Coherent
  readable : f.Readable

theorem Sane.setInstructions (hf : f.Sane) (his : ∀ i ∈ is, i.hasReadableTargets = true) :
    (f.setInstructions b is).Sane := by
  have hframe := sameFrame_setInstructions f b is
  refine ⟨hframe.coherent hf.coherent, fun c hc i hi => ?_⟩
  rw [hframe.layout] at hc
  simp only [instructions, block?_setInstructions] at hi
  split at hi
  · rename_i hcb
    subst hcb
    obtain ⟨k, hk, -⟩ := hf.coherent.exists_block hc
    rw [hk] at hi
    exact his i hi
  · exact hf.readable c hc i hi

theorem Sane.replaceAllUses (hf : f.Sane) (old new : Id) : (f.replaceAllUses old new).Sane := by
  have hframe := sameFrame_replaceAllUses f old new
  refine ⟨hframe.coherent hf.coherent, fun c hc i hi => ?_⟩
  rw [hframe.layout] at hc
  obtain ⟨k, hk, -⟩ := hf.coherent.exists_block hc
  simp only [instructions, block?_replaceAllUses, if_pos hc, hk, Option.map_some,
    Option.getD_some, List.mem_map] at hi
  obtain ⟨j, hj, rfl⟩ := hi
  rw [Instruction.replaceUses_eq_mapRefs, Instruction.hasReadableTargets_mapRefs]
  exact hf.readable c hc j (by rwa [instructions_of_block? hk])

theorem Sane.substitute (hf : f.Sane) (rs : List (Id × Id)) : (PhiRepair.substitute f rs).Sane := by
  induction rs using PhiRepair.replacements_induct generalizing f with
  | hnil => rwa [PhiRepair.substitute]
  | hcons old new rest ih =>
    rw [PhiRepair.substitute_cons]
    exact ih (hf.replaceAllUses old new)

theorem Sane.strip {sites : List Site} {killed killed' : SortedSet Id} {changed changed' : Bool}
    (hf : f.Sane) (hb : b ∈ f.layout)
    (h : strip sites (f, killed, changed) b = .ok (g, killed', changed')) : g.Sane := by
  have hspec := strip_spec hf.coherent hb h
  refine ⟨hspec.coherent, fun c hc i hi => ?_⟩
  obtain ⟨hc, hstays⟩ : c ∈ f.layout ∧ (c ≠ b || isRetained sites c) = true := by
    rw [hspec.layout] at hc
    exact List.mem_filter.mp hc
  by_cases hcb : c = b
  · subst hcb
    have hkept := hspec.kept (by simpa using hstays)
    obtain ⟨k, hk, -⟩ := hf.coherent.exists_block hc
    rw [hk] at hkept
    rw [instructions_of_block? hkept] at hi
    obtain ⟨e, he, rfl⟩ := List.mem_map.mp hi
    exact hf.readable c hc _ (List.fst_mem_of_mem_zipIdx (List.mem_filter.mp he).1)
  · exact hf.readable c hc i (by simpa only [instructions, hspec.other c hcb] using hi)

/-- What a removal leaves can be read. -/
theorem Removed.sane {f' : Function} {killed killed' : SortedSet Id} (hf : f.Sane)
    (h : f.Removed killed f' killed') : f'.Sane := by
  refine ⟨h.coherent, fun b hb i hi => hf.readable b (h.mem_layout.mp hb).1 i ?_⟩
  rw [h.instructions hb] at hi
  exact (remains_sublist f b).subset hi

end Function

/-! ## 4. Folding -/

namespace Folding

variable {f : Function} {s s' : Folding} {b : BlockKey} {T : ConstantTable} {ids : IdSupply}

theorem Ending.hasReadableTargets {sel : SelectionBranch} {live : Id} {merge? : Option Instruction}
    {t : Instruction} {edges : List Id} (h : Ending s b sel live merge? t edges T ids) :
    t.hasReadableTargets = true := by
  cases h <;> rfl

/-- A new ending can be read. -/
theorem Rewrite.sane {e : HeaderEdit} (h : Rewrite s b e s') (hs : s.function.Sane) :
    s'.function.Sane := by
  obtain ⟨m, heq, -⟩ := h.header
  rw [h.function]
  refine hs.setInstructions (fun i (hi : i ∈ e.body ++ e.newMerge?.toList ++ [e.newBranch]) => ?_)
  rcases List.mem_append.mp hi with hi | hi
  · rcases List.mem_append.mp hi with hbody | hmerge
    · refine hs.readable b (h.reached.mem_layout hs.coherent) i ?_
      rw [Function.instructions_of_block? h.block, heq]
      exact List.mem_append_left _ hbody
    · exact Instruction.hasReadableTargets_of_not_isTerminator
        (Opcode.isTerminator_of_isMerge (h.ending.isMerge i (by simpa using hmerge)))
  · rw [List.mem_singleton.mp hi]
    exact h.ending.hasReadableTargets

/-- What folding can go on from. -/
structure Workable (s : Folding) : Prop where
  sane : s.function.Sane
  parts : s.function.HasParts
  reachable : s.reachable = s.function.reachable
  ids : s.ids.bound ≠ 0

theorem Workable.visit (hs : s.Workable) (h : s.visit b = .ok s') : s'.Workable := by
  by_cases hb : b ∈ s.function.layout
  · rcases visit_cases hs.sane.coherent hs.reachable (hs.parts b hb) h with rfl | ⟨e, he⟩
    · exact hs
    · refine ⟨he.sane hs.sane, fun c hc k hk => ?_, he.reachable,
        he.ending.grows.bound_ne_zero hs.ids⟩
      by_cases hcb : c = b
      · subst hcb
        obtain rfl := Option.some.inj (he.block?_self.symm.trans hk)
        exact ⟨_, _, _, he.newParts⟩
      · rw [he.block?_of_ne hcb] at hk
        exact hs.parts c (he.frame.layout ▸ hc) k hk
  · have hout : s.reachable.contains b = true → s.function.isOpen s.constants b = false := by
      intro hreach
      rw [hs.reachable] at hreach
      exact absurd (((Function.contains_reachable_iff hs.sane.coherent).mp hreach).mem_layout
        hs.sane.coherent) hb
    rw [visit_of_not_isOpen hs.reachable hout] at h
    exact Except.ok.inj h ▸ hs

theorem lacksOnlyIds_condition (hs : s.ids.bound ≠ 0) (sel : SelectionBranch) :
    LacksOnlyIds (s.condition sel) := by
  unfold condition
  split
  · exact .ok _
  · exact (ConstantTable.lacksOnlyIds_trueConstant hs).bind (fun _ _ => .ok _)

theorem lacksOnlyIds_editBlock {k k' : Block} {edit : Block → Except Fault Block}
    (hk : f.block? b = some k) (hedit : edit k = .ok k') : LacksOnlyIds (f.editBlock b edit) :=
  .of_eq_ok (bind_eq_ok.mpr ⟨k, Function.block_eq_ok_iff.mpr hk, bind_eq_ok.mpr ⟨k', hedit, rfl⟩⟩)

/-- **A visit finds its header whole**, and puts an ending on a block without one. -/
theorem lacksOnlyIds_visit (hs : s.Workable) (b : BlockKey) : LacksOnlyIds (s.visit b) := by
  unfold visit
  split
  · rename_i hreach
    split
    · rename_i sel hsel
      obtain ⟨k, hk, hksel⟩ := Option.bind_eq_some_iff.mp hsel
      rw [hs.reachable] at hreach
      have hb := ((Function.contains_reachable_iff hs.sane.coherent).mp hreach).mem_layout
        hs.sane.coherent
      obtain ⟨body, merge?, t, hp⟩ := hs.parts b hb k hk
      obtain ⟨i, rfl, -⟩ := hp.selection?_eq_some_iff.mp hksel
      have heq : k.instructions = body ++ [i, t] := by simpa using hp.eq
      have hbody : ∀ j ∈ body, j.opcode.isTerminator = false := fun j hj => (hp.body j hj).1
      split
      · rename_i live _
        unfold apply
        split
        · exact (lacksOnlyIds_editBlock hk (Block.foldSelection_of_end heq hksel hbody live)).bind
            (fun _ _ => .ok _)
        · refine (lacksOnlyIds_condition hs.ids sel).bind ?_
          rintro ⟨cond, value, s₁⟩ hcond
          have hs₁ : s₁.function = s.function := by rw [(condition_cases hcond).1]
          by_cases hsame : sel.branch = .branchConditional cond (if value then live else sel.merge)
              (if value then sel.merge else live)
          · simp only [if_pos hsame]
            exact .ok _
          · simp only [if_neg hsame, hs₁]
            exact (lacksOnlyIds_editBlock hk
              (Block.narrowSelection_of_end heq hksel hbody _ _ _ _)).bind (fun _ _ => .ok _)
        · exact .ok _
      · exact .ok _
    · exact .ok _
  · exact .ok _

theorem workable_start (hf : f.Sane) (hparts : f.HasParts) (hids : ids.bound ≠ 0) :
    Workable ⟨f, T, ids, f.reachable, false⟩ := ⟨hf, hparts, rfl, hids⟩

theorem lacksOnlyIds_run (hf : f.Sane) (hparts : f.HasParts) (hids : ids.bound ≠ 0) :
    LacksOnlyIds (run f T ids) :=
  (LacksOnlyIds.of_eq_ok hf.readable.readStructuredOrder_eq_ok).bind (fun _ _ =>
    .foldlM (P := Workable) (workable_start hf hparts hids)
      (fun _ b _ hs => lacksOnlyIds_visit hs b) (fun _ _ _ _ hs h => hs.visit h))

end Folding

/-! ## 5. Repair -/

namespace PhiRepair

variable {f : Function} {s s' : PhiRepair} {b : BlockKey} {T : ConstantTable} {ids : IdSupply}
  {parents : PhiParents}

theorem lacksOnlyIds_mendPhi (hs : s.ids.bound ≠ 0) (phi : Instruction) :
    LacksOnlyIds (mendPhi parents s phi) := by
  unfold mendPhi
  split
  · rename_i type _
    refine .foldlM (P := fun state => state.1.ids.bound ≠ 0) ?_ ?_ ?_
    · exact (prune_spec (fun _ => True) parents s phi).1.grows.bound_ne_zero hs
    · rintro ⟨s, phi⟩ l - hs
      unfold supplyParent
      dsimp only
      split
      · exact .ok _
      · exact (ConstantTable.lacksOnlyIds_undef hs type).bind (fun _ _ => .ok _)
    · rintro ⟨s, phi⟩ l s' - hs h
      unfold supplyParent at h
      dsimp only at h
      split at h
      · cases h
        exact hs
      · obtain ⟨⟨value, T, ids⟩, hundef, h⟩ := bind_eq_ok.mp h
        cases h
        exact (ConstantTable.Grows.undef (P := fun _ => True) .refl trivial hundef).bound_ne_zero hs
  · exact .ok _

theorem lacksOnlyIds_mendPhis (hs : s.ids.bound ≠ 0) (phis : List Instruction) :
    LacksOnlyIds (mendPhis parents s phis) := by
  induction phis generalizing s with
  | nil => exact .ok _
  | cons phi phis ih =>
    unfold mendPhis
    refine (lacksOnlyIds_mendPhi hs phi).bind ?_
    rintro ⟨s₁, phi₁⟩ h
    have hs₁ := (mendPhi_spec (P := fun _ => True) (fun _ _ => trivial) h).1.grows.bound_ne_zero hs
    exact (ih hs₁).bind (fun _ _ => .ok _)

/-- Phis that are mended can be read, and so can what is renamed. -/
theorem Repaired.sane {P : Id → Prop} {mended : BlockKey → List Instruction} (hf : f.Sane)
    (h : Repaired P f T ids s mended) : s.function.Sane := by
  refine ⟨h.coherent, fun b hb i hi => ?_⟩
  rw [h.frame.layout] at hb
  obtain ⟨k, hk, -⟩ := hf.coherent.exists_block hb
  have hold : ∀ j ∈ k.instructions, j.hasReadableTargets = true := fun j hj =>
    hf.readable b hb j (Function.instructions_of_block? hk ▸ hj)
  by_cases hr : f.Reached b
  · rw [Function.instructions_of_block? (h.live b hr k hk)] at hi
    obtain ⟨j, hj, rfl⟩ := List.mem_map.mp hi
    rw [Instruction.hasReadableTargets_mapRefs]
    rcases List.mem_append.mp hj with hj | hj
    · refine Instruction.hasReadableTargets_of_not_isTerminator ?_
      rw [h.opcode_of_mem_mended hr hk (List.mem_filter.mp hj).1]
      rfl
    · exact hold j ((List.dropWhile_suffix _).subset hj)
  · rw [Function.instructions_of_block? (h.dead b hb hr k hk)] at hi
    obtain ⟨j, hj, rfl⟩ := List.mem_map.mp hi
    rw [Instruction.hasReadableTargets_mapRefs]
    exact hold j hj

/-- What repair can go on from. -/
structure Workable (f : Function) (s : PhiRepair) : Prop where
  frame : f.SameFrame s.function
  sane : s.function.Sane
  ids : s.ids.bound ≠ 0

theorem workable_start (hf : f.Sane) (hids : ids.bound ≠ 0) :
    Workable f ⟨f, T, ids, [], [], false⟩ := ⟨.refl f, hf, hids⟩

variable {graph : FlowGraph} {live : KeySet BlockKey}

theorem lacksOnlyIds_visit (hs : Workable f s) (b : BlockKey) :
    LacksOnlyIds (visit graph live s b) := by
  unfold visit
  split
  · exact (lacksOnlyIds_mendPhis hs.ids _).bind (fun _ _ => .ok _)
  · exact .ok _

theorem Workable.visit (hs : Workable f s) (hb : b ∈ f.layout)
    (h : visit graph live s b = .ok s') : Workable f s' := by
  unfold PhiRepair.visit at h
  split at h
  · rename_i k hk
    obtain ⟨s₁, phis', hmending, -, hmends, rfl⟩ := mendBlock_spec (P := fun _ => True)
      (fun _ _ _ _ => trivial) h
    refine ⟨hs.frame.trans (Function.sameFrame_setInstructions _ _ _),
      hs.sane.setInstructions (fun i hi => ?_), hmending.grows.bound_ne_zero hs.ids⟩
    rcases List.mem_append.mp hi with hi | hi
    · obtain ⟨phi, hphi, hmend⟩ := exists_of_mem_right hmends (List.mem_filter.mp hi).1
      refine Instruction.hasReadableTargets_of_not_isTerminator ?_
      rw [hmend.same.1, Opcode.isPhi_iff.mp (Block.mem_of_mem_phis hphi).2]
      rfl
    · refine hs.sane.readable b (hs.frame.layout ▸ hb) i ?_
      rw [Function.instructions_of_block? hk]
      exact (List.dropWhile_suffix _).subset hi
  · exact Except.ok.inj h ▸ hs

theorem lacksOnlyIds_run (hf : f.Sane) (hids : ids.bound ≠ 0) : LacksOnlyIds (run f T ids) := by
  refine (LacksOnlyIds.foldlM (P := Workable f) (workable_start hf hids)
    (fun s b _ hs => lacksOnlyIds_visit hs b) (fun s b s' hb hs h => hs.visit ?_ h)).bind
    (fun _ _ => .ok _)
  exact (List.mem_filter.mp hb).1

end PhiRepair

/-! ## 6. Removal -/

namespace Function

variable {f g : Function} {sites : List Site} {killed killed' : SortedSet Id}
  {changed changed' : Bool} {bs : List BlockKey}

theorem Sane.strips (hf : f.Sane) (hbs : bs.Nodup) (hlayout : ∀ b ∈ bs, b ∈ f.layout)
    (h : bs.foldlM (Function.strip sites) (f, killed, changed) = .ok (g, killed', changed')) :
    g.Sane := by
  induction bs generalizing f killed changed with
  | nil =>
    cases h
    exact hf
  | cons b bs ih =>
    obtain ⟨⟨f₁, killed₁, changed₁⟩, hstrip, hrest⟩ := bind_eq_ok.mp h
    have hb : b ∈ f.layout := hlayout b (by simp)
    obtain ⟨hnew, hbs⟩ := List.nodup_cons.mp hbs
    exact ih (hf.strip hb hstrip) hbs (fun c hc => mem_layout_of_strip hf.coherent hb hstrip
      (hlayout c (by simp [hc])) (fun he => hnew (he ▸ hc))) hrest

theorem lacksOnlyIds_removeUnreachable (hf : f.Sane) :
    LacksOnlyIds (f.removeUnreachable killed) := by
  obtain ⟨r, hr⟩ := exists_removeUnreachable hf.coherent killed
    (hf.readable.requireReadable_reachable hf.coherent)
  exact .of_eq_ok hr

end Function

/-! ## 7. Functions and modules -/

namespace Function

variable {f f' : Function} {w w' : Workspace} {changed : Bool}

theorem WellFormed.hasParts (hf : f.WellFormed) : f.HasParts := hf.sound.hasParts

theorem WellFormed.sane (hf : f.WellFormed) (hread : f.Readable) : f.Sane := ⟨hf.coherent, hread⟩

/-- Folding leaves a sane function. -/
theorem Sane.fold {s : Folding} (hf : f.Sane) (hparts : f.HasParts) (hids : w.ids.bound ≠ 0)
    (h : Folding.run f w.constants w.ids = .ok s) : s.Workable := by
  obtain ⟨order, -, hrun⟩ := bind_eq_ok.mp h
  exact foldlM_induct hrun (Folding.workable_start hf hparts hids)
    (fun _ _ _ _ hs hvisit => hs.visit hvisit)

/-- Repair leaves a sane function. -/
theorem Sane.repair {s : PhiRepair} {T : ConstantTable} {ids : IdSupply} (hf : f.Sane)
    (hids : ids.bound ≠ 0) (h : PhiRepair.run f T ids = .ok s) : s.function.Sane := by
  obtain ⟨s₁, hrun, h⟩ := bind_eq_ok.mp h
  cases h
  refine Sane.substitute (PhiRepair.Workable.sane (f := f) ?_) _
  exact foldlM_induct hrun (PhiRepair.workable_start hf hids)
    (fun _ _ _ hb hs hvisit => hs.visit (List.mem_filter.mp hb).1 hvisit)

/-- **A well-formed function is processed without faults.** -/
theorem lacksOnlyIds_eliminateDeadBranches (hf : f.WellFormed) (hread : f.Readable)
    (hids : w.ids.bound ≠ 0) : LacksOnlyIds (f.eliminateDeadBranches w) := by
  have hsane := hf.sane hread
  refine (Folding.lacksOnlyIds_run hsane hf.hasParts hids).bind (fun folded hfold => ?_)
  have hfolded := hsane.fold hf.hasParts hids hfold
  refine (PhiRepair.lacksOnlyIds_run hfolded.sane hfolded.ids).bind (fun repaired hrepair => ?_)
  refine (lacksOnlyIds_removeUnreachable (hfolded.sane.repair hfolded.ids hrepair)).bind ?_
  exact fun _ _ => .ok _

end Function

namespace Module

variable {m m' m₁ : Module} {w w' : Workspace} {k : FunctionKey} {changed changed' : Bool}

/-- What the functions of a module can be processed from. -/
structure Workable (m m₁ : Module) (w : Workspace) : Prop where
  size : m₁.functions.size = m.functions.size
  wellFormed : ∀ f ∈ m₁.functionList, f.WellFormed
  readable : ∀ f ∈ m₁.functionList, f.Readable
  ids : w.ids.bound ≠ 0
  bound : m₁.bound ≤ w.ids.bound

theorem workable_start (hwf : ∀ f ∈ m.functionList, f.WellFormed)
    (hread : ∀ f ∈ m.functionList, f.Readable) : Workable m m (.ofModule m) := by
  refine ⟨rfl, hwf, hread, ?_, ?_⟩ <;>
    by_cases hzero : m.bound = 0 <;> simp [Workspace.ofModule, supply, IdSupply.startingAt, hzero]

theorem Workable.function (hs : Workable m m₁ w) (hk : k ∈ m.functionKeys) :
    ∃ f, m₁.function k = .ok f ∧ m₁.function? k = some f :=
  function_of_mem_functionKeys (functionKeys_eq hs.size ▸ hk)

theorem mem_functionList_setFunction {f g : Function} (hg : g ∈ (m.setFunction k f).functionList) :
    g = f ∨ g ∈ m.functionList := by
  obtain ⟨n, hn⟩ := List.mem_iff_getElem?.mp hg
  rw [functionList_setFunction] at hn
  split at hn
  · obtain ⟨-, -, rfl⟩ := Option.map_eq_some_iff.mp hn
    exact .inl rfl
  · exact .inr (List.mem_of_getElem? hn)

theorem Workable.step (hs : Workable m m₁ w)
    (h : processFunction (m₁, w, changed) k = .ok (m', w', changed')) : Workable m m' w' := by
  obtain ⟨f, f', w₂, marked, hf, hrun, heq⟩ := processFunction_cases h
  cases heq
  have hmem := mem_functionList hf
  obtain ⟨folded, repaired, mended, hphases⟩ :=
    Function.eliminateDeadBranches_phases (hs.wellFormed f hmem) hrun
  refine ⟨(Arena.size_set _ _ _).trans hs.size, fun g hg => ?_, fun g hg => ?_,
    hphases.grows.bound_ne_zero hs.ids, ?_⟩
  · rcases mem_functionList_setFunction hg with rfl | hg
    · exact hphases.wellFormed_result
    · exact hs.wellFormed g hg
  · rcases mem_functionList_setFunction hg with rfl | hg
    · exact hphases.readable (hs.readable f hmem)
    · exact hs.readable g hg
  · exact UInt32.le_trans hs.bound (UInt32.le_iff_toNat_le.mpr hphases.grows.known_of_lt.1)

/-- **A module of well-formed functions is processed without faults.** -/
theorem lacksOnlyIds_processFunctions (hwf : ∀ f ∈ m.functionList, f.WellFormed)
    (hread : ∀ f ∈ m.functionList, f.Readable) : LacksOnlyIds m.processFunctions := by
  have hstart := workable_start hwf hread
  have hstep : ∀ (s : Module × Workspace × Bool) k s', k ∈ m.callOrder → Workable m s.1 s.2.1 →
      processFunction s k = .ok s' → Workable m s'.1 s'.2.1 := fun _ _ _ _ hs h => hs.step h
  refine (LacksOnlyIds.foldlM (P := fun s => Workable m s.1 s.2.1) hstart ?_ hstep).bind ?_
  · rintro ⟨m₁, w₁, changed⟩ k hk hs
    obtain ⟨f, hf, hf?⟩ := hs.function (mem_functionKeys_of_callOrder hk)
    have hmem := mem_functionList hf?
    refine (LacksOnlyIds.of_eq_ok hf).bind (fun g hg => ?_)
    obtain rfl := Except.ok.inj (hf.symm.trans hg)
    exact (Function.lacksOnlyIds_eliminateDeadBranches (hs.wellFormed f hmem)
      (hs.readable f hmem) hs.ids).bind (fun _ _ => .ok _)
  · rintro ⟨m₁, w₁, changed⟩ hrun
    have hend : Workable m m₁ w₁ :=
      foldlM_induct (P := fun s => Workable m s.1 s.2.1) hrun hstart hstep
    exact (LacksOnlyIds.of_eq_ok (if_pos hend.bound)).bind (fun _ _ => .ok _)

theorem lacksOnlyIds_eliminateDeadBranches (hwf : ∀ f ∈ m.functionList, f.WellFormed)
    (hread : ∀ f ∈ m.functionList, f.Readable) (wl : Whitelist) :
    LacksOnlyIds (m.eliminateDeadBranches wl) := by
  unfold eliminateDeadBranches
  split
  · exact .ok _
  · exact (lacksOnlyIds_processFunctions hwf hread).bind (fun _ _ => .ok _)

end Module

end ShaderIR
