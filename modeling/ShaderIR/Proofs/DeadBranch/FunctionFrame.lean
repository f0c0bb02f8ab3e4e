import ShaderIR.Proofs.DeadBranch.Faults
import ShaderIR.Proofs.DeadBranch.Killed

/-!
# What a run does to the blocks of a function

Headers are folded one after the other, phis lose and gain pairs, and one id after the other is
replaced in the whole function.  All this comes down to one substitution: a block that control still
gets to has the instructions it had, with the substitution made in their operands.  There are two
exceptions.  Its leading phis may be taken out or have other pairs, and the end of a header whose
selection always goes to one label may be a new one, in which nothing is left to substitute.

* `Resolved`, `Rewritten`: the two exceptions, and all of a block;
* `Phases.isLeft_iff`, `Phases.phis_result`: the phis that are left;
* `Phases.rename_blockRef`, `Phases.resolved`: the end of a block;
* `blocks_are_rewritten`: the blocks in the end are the blocks before under one substitution.
-/

namespace ShaderIR

/-! ## 1. Blocks under a substitution -/

/-- The same instruction but for its operands. -/
def Instruction.SameHead (i j : Instruction) : Prop :=
  j.opcode = i.opcode ∧ j.type? = i.type? ∧ j.result? = i.result?

/-- What may take the place of a selection's declaration and its branch, which always goes to
`live`: a branch there, or the declaration and a branch on a constant that goes there and might go
to the merge block. -/
inductive Resolved (T : ConstantTable) (globals : List Instruction) (merge branch : Instruction) :
    List Instruction → Prop
  | fold {live : Id} (selection : merge.opcode = .selectionMerge)
      (taken : T.takenTarget? branch = some live) :
      Resolved T globals merge branch [.branch live]
  | narrow {live l cond : Id} {value : Bool} (selection : merge.opcode = .selectionMerge)
      (taken : T.takenTarget? branch = some live) (declares : merge.idOperand? 0 = some l)
      (constant : ∃ i ∈ globals, i.result? = some cond ∧
        i.opcode = if value then .constantTrue else .constantFalse) :
      Resolved T globals merge branch [.selectionMerge l,
        .branchConditional cond (if value then live else l) (if value then l else live)]

/-- A block before and after a run.  Leading phis with a result among `gone` are taken out, and the
others may have other operands; behind them, `s` is made in all operands, unless the block ends with
a selection that was resolved. -/
structure Rewritten (T : ConstantTable) (globals : List Instruction) (gone : List Id) (s : Id → Id)
    (k k' : Block) : Prop where
  label : k'.label = k.label
  phis : List.Forall₂ Instruction.SameHead
    (k.phis.filter (fun phi => phi.result?.all (fun x => x ∉ gone))) k'.phis
  rest : k'.afterPhis = k.afterPhis.map (Instruction.mapRefs s) ∨
    ∃ body merge branch new, k.afterPhis = body ++ [merge, branch] ∧
      Resolved T globals merge branch new ∧
      k'.afterPhis = body.map (Instruction.mapRefs s) ++ new

namespace Instruction

theorem mapRefs_branch (g : Id → Id) (l : Id) : (branch l).mapRefs g = .branch (g l) := rfl

theorem mapRefs_selectionMerge (g : Id → Id) (l : Id) :
    (selectionMerge l).mapRefs g = .selectionMerge (g l) := rfl

theorem mapRefs_branchConditional (g : Id → Id) (cond l₁ l₂ : Id) :
    (branchConditional cond l₁ l₂).mapRefs g = .branchConditional (g cond) (g l₁) (g l₂) := rfl

end Instruction

namespace Function

open PhiRepair (rename collapsed? isLeft isLeft_iff_collapsed?)

variable {f f' : Function} {w w' : Workspace} {folded : Folding} {repaired : PhiRepair}
  {mended : BlockKey → List Instruction} {b : BlockKey} {k k₁ : Block} {phi phi' i : Instruction}
  {l x : Id}

/-- A function before and after a run: some blocks are gone, some phis have given way to values,
and the blocks that control gets to are rewritten under the substitution of the values for them. -/
structure RewrittenBy (f : Function) (T : ConstantTable) (globals : List Instruction)
    (gone : List Id) (s : Id → Id) (f' : Function) : Prop where
  heading : f'.id = f.id ∧ f'.definition = f.definition ∧ f'.params = f.params
  layout : f'.layout.Sublist f.layout
  entry : f'.entry? = f.entry?
  phi_of_gone : ∀ x ∈ gone, ∃ b k phi, f'.Reached b ∧ f.block? b = some k ∧ phi ∈ k.phis ∧
    phi.result? = some x
  not_mem_of_gone : ∀ x ∈ gone, x ∉ f'.bodyIds
  fixed : ∀ x, x ∉ gone → s x = x
  substituted : ∀ x, s x ∉ gone
  block : ∀ b, f'.Reached b → ∃ k k', f.block? b = some k ∧ f'.block? b = some k' ∧
    Rewritten T globals gone s k k'

namespace Phases

/-! ## 2. The phis that are left -/

/-- The block in the end that comes from a block that control gets to after folding. -/
theorem exists_result (h : Phases f w f' w' folded repaired mended)
    (hb : folded.function.Reached b) (hk : folded.function.block? b = some k) :
    ∃ k', f'.block? b = some k' ∧ k'.label = k.label ∧
      k'.phis = ((mended b).filter (isLeft (folded.function.phiParents b) repaired.pruned)).map
          (Instruction.mapRefs (rename repaired.replacements)) ∧
      k'.afterPhis = k.afterPhis.map (Instruction.mapRefs (rename repaired.replacements)) := by
  have hw := h.wellFormed_folded
  have hreach := (h.repair.reached_iff hw.sound).mpr hb
  have hphis : ∀ i ∈ (mended b).filter (isLeft (folded.function.phiParents b) repaired.pruned),
      i.opcode.isPhi = true := fun i hi =>
    Opcode.isPhi_iff.mpr (h.repair.opcode_of_mem_mended hb hk (List.mem_filter.mp hi).1)
  refine ⟨_, (h.remove.block?_of_reached hreach).trans (h.repair.live b hb k hk), rfl, ?_, ?_⟩
  · rw [Block.phis, List.takeWhile_map]
    exact congrArg _ (phis_append_dropWhile hphis).1
  · rw [Block.afterPhis, List.dropWhile_map]
    exact congrArg _ (phis_append_dropWhile hphis).2

/-- A mended phi is left exactly if its result is not replaced. -/
theorem isLeft_iff (h : Phases f w f' w' folded repaired mended) (hb : folded.function.Reached b)
    (hk : folded.function.block? b = some k) (hphi' : phi' ∈ mended b) :
    isLeft (folded.function.phiParents b) repaired.pruned phi' = true ↔
      ∀ x, phi'.result? = some x → x ∉ repaired.replacements.map Prod.fst := by
  have hw := h.wellFormed_folded
  constructor
  · intro hnone x hx hgone
    -- what has given way is not defined any more, but this phi has stayed
    refine h.repair.not_mem_bodyIds hw.nodup hgone (Function.mem_bodyIds.mpr (.inr ⟨b, ?_, ?_⟩))
    · rw [h.repair.frame.layout]
      exact hb.mem_layout hw.coherent
    · refine ⟨phi'.mapRefs (rename repaired.replacements), ?_, hx⟩
      rw [instructions_of_block? (h.repair.live b hb k hk)]
      exact List.mem_map_of_mem (List.mem_append_left _ (List.mem_filter.mpr ⟨hphi', hnone⟩))
  · intro hkept
    refine isLeft_iff_collapsed?.mpr ?_
    cases hcol : collapsed? (folded.function.phiParents b) repaired.pruned phi' with
    | none => rfl
    | some r =>
      have hr := (h.repair.mem_replacements r).mpr ⟨b, hb, phi', hphi', hcol⟩
      exact absurd (List.mem_map_of_mem hr) (hkept r.1 (PhiRepair.collapsed?_eq_some_iff.mp hcol).1)

/-- **The phis that are left** are those whose results are not replaced, in their order. -/
theorem phis_result (h : Phases f w f' w' folded repaired mended) (hb : folded.function.Reached b)
    (hk : folded.function.block? b = some k) :
    List.Forall₂ Instruction.SameHead
      (k.phis.filter (fun phi =>
        phi.result?.all (fun x => x ∉ repaired.replacements.map Prod.fst)))
      (((mended b).filter (isLeft (folded.function.phiParents b) repaired.pruned)).map
          (Instruction.mapRefs (rename repaired.replacements))) := by
  rw [List.forall₂_map_right_iff]
  have hmends : List.Forall₂ (fun phi phi' => phi' ∈ mended b ∧ phi.SameHead phi') k.phis
      (mended b) := by
    refine List.Forall₂.flip ((List.forall₂_and_left _ _).mpr ⟨fun phi' hphi' => hphi', ?_⟩)
    exact ((h.repair.mends b hb k hk).imp (fun phi phi' hm => hm.same)).flip
  refine (List.rel_filter (R := fun phi phi' => phi' ∈ mended b ∧ phi.SameHead phi') ?_ hmends).imp
    (fun phi phi' hm => hm.2)
  rintro phi phi' ⟨hphi', -, -, hresult⟩
  have hleft := h.isLeft_iff hb hk hphi'
  rw [hresult] at hleft
  simpa only [Option.all_eq_true, decide_eq_true_eq] using hleft.symm

/-! ## 3. The end of a block -/

/-- A label that an instruction mentions as a block is not renamed. -/
theorem rename_blockRef (h : Phases f w f' w' folded repaired mended) (hb : b ∈ f.layout)
    (hk : f.block? b = some k) (hi : i ∈ k.instructions) (hl : l ∈ i.blockRefs) :
    rename repaired.replacements l = l := by
  obtain ⟨c, hc⟩ := Option.isSome_iff_exists.mp ((h.wellFormed.sound b hb k hk).refs i hi l hl)
  exact h.repair.rename_label (h.fold.frame.blockOf? l ▸ hc)

/-- A branch that was found to go to one label went there by what was known at the start. -/
theorem takenTarget?_start {T : ConstantTable} {ids : IdSupply} (hf : f.Ready w) (hb : b ∈ f.layout)
    (hk : f.block? b = some k) (hi : i ∈ k.instructions)
    (hgrows : w.constants.Grows (fun _ => False) w.ids T ids) :
    T.takenTarget? i = w.constants.takenTarget? i := by
  refine ConstantTable.takenTarget?_congr (fun x hx => hgrows.known_of_lt.2 x (hf.below x ?_))
  refine Function.mem_bodyUses.mpr ⟨b, hb, i, ?_, Instruction.mem_uses_of_idOperand? hx⟩
  exact instructions_of_block? hk ▸ hi

/-- The condition of a narrowed branch is a known constant in the end. -/
theorem bool?_condition {T : ConstantTable} {ids : IdSupply} {cond : Id} {value : Bool}
    (hf : f.Ready w) (h : Phases f w f' w' folded repaired mended) (hb : b ∈ f.layout)
    (hk : f.block? b = some k) (hi : i ∈ k.instructions)
    (hgrows : w.constants.Grows (fun _ => False) w.ids T ids)
    (hcond : (i.idOperand? 0 = some cond ∧ T.bool? cond = some value) ∨
      (value = true ∧ folded.constants.true? = some cond)) :
    w'.constants.bool? cond = some value := by
  rcases hcond with ⟨hop, hval⟩ | ⟨rfl, htrue⟩
  · have hlt := hf.below cond (Function.mem_bodyUses.mpr
      ⟨b, hb, i, instructions_of_block? hk ▸ hi, Instruction.mem_uses_of_idOperand? hop⟩)
    rw [(h.grows.known_of_lt.2 cond hlt).1, ← (hgrows.known_of_lt.2 cond hlt).1, hval]
  · refine (hf.apart _ _ _ h.grows).isTrue cond ?_
    rw [h.constants]
    exact h.repair.grows.true?_mono htrue

/-- **The end of a block** is left, or it was a selection that is resolved; nothing in the new end
is renamed. -/
theorem resolved {globals : List Instruction} {bound : UInt32} {body : List Instruction}
    {merge? merge?' : Option Instruction} {t t' : Instruction} (hf : f.Ready w)
    (h : Phases f w f' w' folded repaired mended)
    (hT : w.constants.Anchored w.ids globals bound)
    (hb : b ∈ f.layout) (hk : f.block? b = some k) (hp : k.Parts body merge? t)
    (hend : Folding.EndsAs w.constants w.ids folded.constants merge? t merge?' t') :
    (merge?' = merge? ∧ t' = t) ∨ ∃ merge, merge? = some merge ∧
      Resolved w.constants (globals ++ w'.constants.newGlobals) merge t
        ((merge?'.toList ++ [t']).map (Instruction.mapRefs (rename repaired.replacements))) := by
  have ht : t ∈ k.instructions := hp.mem_instructions_iff.mpr (.inr (.inr rfl))
  have hlabel : ∀ {i l}, i ∈ k.instructions → l ∈ i.blockRefs →
      rename repaired.replacements l = l :=
    fun hi hl => h.rename_blockRef hb hk hi hl
  cases hend with
  | same => exact .inl ⟨rfl, rfl⟩
  | @fold T₁ ids₁ live l grows taken declares =>
    obtain ⟨merge, rfl, hsel, -⟩ := Folding.EndsAs.mem_uses_of_mergeTargets declares
    have hlive := hlabel ht (Instruction.mem_blockRefs.mpr
      (.inl (ConstantTable.mem_branchTargets_of_takenTarget? taken)))
    rw [takenTarget?_start hf hb hk ht grows] at taken
    refine .inr ⟨merge, rfl, ?_⟩
    rw [Option.toList_none, List.nil_append, List.map_singleton, Instruction.mapRefs_branch, hlive]
    exact .fold hsel taken
  | @narrow T₁ ids₁ live l cond value grows taken declares condition =>
    obtain ⟨merge, rfl, hsel, hl⟩ := Folding.EndsAs.mem_uses_of_mergeTargets declares
    have hlive := hlabel ht (Instruction.mem_blockRefs.mpr
      (.inl (ConstantTable.mem_branchTargets_of_takenTarget? taken)))
    have hmerge := hlabel (hp.mem_instructions_iff.mpr (.inr (.inl rfl)))
      (Instruction.mem_blockRefs.mpr (.inr (.inl ⟨_, declares, .inl rfl⟩)))
    have hvalue := bool?_condition hf h hb hk ht grows condition
    have hcond := h.rename_of_not_mem_bodyIds ((hf.apart _ _ _ h.grows).bool cond value hvalue)
    rw [takenTarget?_start hf hb hk ht grows] at taken
    refine .inr ⟨merge, rfl, ?_⟩
    rw [Option.toList_some, List.singleton_append, List.map_cons, List.map_singleton,
      Instruction.mapRefs_selectionMerge, Instruction.mapRefs_branchConditional, hcond, hmerge,
      apply_ite (rename repaired.replacements), apply_ite (rename repaired.replacements), hlive,
      hmerge]
    exact .narrow hsel taken hl ((h.grows.anchored hT).comesFrom.bool cond value hvalue)

/-! ## 4. Blocks and functions -/

/-- **A block that control gets to in the end is rewritten.** -/
theorem rewritten {globals : List Instruction} {bound : UInt32} (hf : f.Ready w)
    (h : Phases f w f' w' folded repaired mended) (hT : w.constants.Anchored w.ids globals bound)
    (hb : f'.Reached b) : ∃ k k', f.block? b = some k ∧ f'.block? b = some k' ∧
      Rewritten w.constants (globals ++ w'.constants.newGlobals)
        (repaired.replacements.map Prod.fst) (rename repaired.replacements) k k' := by
  have hw := h.wellFormed_folded
  have hlive := h.reached_iff.mp hb
  have hlayout : b ∈ f.layout := h.fold.frame.layout ▸ hlive.mem_layout hw.coherent
  obtain ⟨k, hk, -⟩ := hf.wellFormed.coherent.exists_block hlayout
  obtain ⟨k₁, hk₁, hfolds⟩ := h.fold.block b hlayout k hk
  obtain ⟨k', hk', hlabel', hphis', hrest'⟩ := h.exists_result hlive hk₁
  have hphis := h.phis_result hlive hk₁
  rw [hfolds.phis, ← hphis'] at hphis
  obtain ⟨hlabel, body, merge?, t, merge?', t', hp, hp₁, hend⟩ := hfolds
  refine ⟨k, k', hk, hk', hlabel'.trans hlabel, hphis, ?_⟩
  rw [hrest', hp₁.afterPhis_eq, hp.afterPhis_eq]
  rcases h.resolved hf hT hlayout hk hp hend with ⟨rfl, rfl⟩ | ⟨merge, rfl, hnew⟩
  · exact .inl rfl
  · refine .inr ⟨_, merge, t, _, List.append_assoc .., hnew, ?_⟩
    rw [List.append_assoc, List.map_append]

end Phases

/-- **The blocks in the end are the blocks before under one substitution.** -/
theorem blocks_are_rewritten {m : Module} (hm : m.Coherent) (hok : m.check = .ok [])
    (hf : f ∈ m.functionList) (hphis : f.RegularPhis)
    (hT : w.constants.Tracks w.ids m.globals m.bound) :
    LacksOnlyIds (f.eliminateDeadBranches w) ∧
      ∀ f' w' changed, f.eliminateDeadBranches w = .ok (f', w', changed) →
        ∃ gone s, f.RewrittenBy w.constants (m.globals ++ w'.constants.newGlobals) gone s f' := by
  have ha := (Module.check_eq_ok_nil_iff hm).mp hok
  have hready := ready_of_accepted ha hf hphis hT
  refine ⟨lacksOnlyIds_eliminateDeadBranches hready.wellFormed
    (Module.isReadable_iff.mp ha.readable f hf) hT.positive, fun f' w' changed h => ?_⟩
  obtain ⟨folded, repaired, mended, hphases⟩ := eliminateDeadBranches_phases hready.wellFormed h
  have hw := hphases.wellFormed_folded
  refine ⟨repaired.replacements.map Prod.fst, rename repaired.replacements, hphases.heading, ?_, ?_,
    ?_, ?_, fun x hx => PhiRepair.rename_of_not_mem hx, hphases.rename_not_mem hready,
    fun b hb => hphases.rewritten hready ⟨hT, ha.nodup_globals, ha.below_globals⟩ hb⟩
  · rw [hphases.remove.layout, hphases.repair.frame.layout, hphases.fold.frame.layout]
    exact List.filter_sublist
  · rw [hphases.remove.entry?, hphases.repair.frame.entry?, hphases.fold.frame.entry?]
  · intro x hx
    obtain ⟨r, hr, rfl⟩ := List.mem_map.mp hx
    obtain ⟨b, hb, k, hk, phi, hphi, hres⟩ := hphases.repair.phi_of_mem_replacements hr
    obtain ⟨k₀, hk₀, hphis, -⟩ := hphases.phis_folded hk
      (hphases.fold.frame.layout ▸ hb.mem_layout hw.coherent)
    exact ⟨b, k₀, phi, hphases.reached_iff.mpr hb, hk₀, hphis ▸ hphi, hres⟩
  · intro x hx hmem
    exact hphases.repair.not_mem_bodyIds hw.nodup hx (hphases.remove.bodyIds_sublist.subset hmem)

/-- The selection at `%10` is folded, and that at `%12` keeps its merge block `%16`.  So the phi
`%21` gives way to `%20`, and that to `%7`. -/
def chained : Function := .ofBlocks ⟨1⟩ ⟨2⟩ ⟨3⟩ [
  ⟨⟨10⟩, [.selectionMerge ⟨12⟩, .branchConditional ⟨5⟩ ⟨11⟩ ⟨12⟩]⟩,
  ⟨⟨11⟩, [.branch ⟨12⟩]⟩,
  ⟨⟨12⟩, [.phi ⟨4⟩ ⟨20⟩ [(⟨6⟩, ⟨10⟩), (⟨7⟩, ⟨11⟩)], .selectionMerge ⟨16⟩,
    .branchConditional ⟨5⟩ ⟨13⟩ ⟨15⟩]⟩,
  ⟨⟨13⟩, [.selectionMerge ⟨15⟩, .branchConditional ⟨20⟩ ⟨14⟩ ⟨14⟩]⟩,
  ⟨⟨14⟩, [.ret]⟩,
  ⟨⟨15⟩, [.phi ⟨4⟩ ⟨21⟩ [(⟨6⟩, ⟨12⟩), (⟨20⟩, ⟨16⟩)],
    ⟨.logicalNot, some ⟨4⟩, some ⟨22⟩, [.ref ⟨21⟩]⟩, .ret]⟩,
  ⟨⟨16⟩, [.branch ⟨15⟩]⟩]

/-- The module of `chained`. -/
def chainedModule : Module := .ofFunction 23
  (Module.boolGlobals ++ [⟨.undef, some ⟨4⟩, some ⟨7⟩, []⟩]) chained

theorem blocks_are_rewritten_chained :
    chainedModule.Coherent ∧ chainedModule.check = .ok [] ∧ chained.RegularPhis ∧
      ∃ f' w' gone s, chained.eliminateDeadBranches (.ofModule chainedModule) = .ok (f', w', true) ∧
        f'.instructions ⟨2⟩ = [.selectionMerge ⟨16⟩, .branchConditional ⟨5⟩ ⟨13⟩ ⟨16⟩] ∧
        f'.instructions ⟨5⟩ = [⟨.logicalNot, some ⟨4⟩, some ⟨22⟩, [.ref ⟨7⟩]⟩, .ret] ∧
        chained.RewrittenBy (.ofModule chainedModule)
          (chainedModule.globals ++ w'.constants.newGlobals) gone s f' := by
  have hm : chainedModule.Coherent := by decide
  have hcheck : chainedModule.check = .ok [] := by cbv
  have hphis : chained.RegularPhis := by decide
  have hrun : (chained.eliminateDeadBranches (.ofModule chainedModule)).toOption.map
      (fun r => (r.1.instructions ⟨2⟩, r.1.instructions ⟨5⟩, r.2.2)) =
        some ([.selectionMerge ⟨16⟩, .branchConditional ⟨5⟩ ⟨13⟩ ⟨16⟩],
          [⟨.logicalNot, some ⟨4⟩, some ⟨22⟩, [.ref ⟨7⟩]⟩, .ret], true) := by cbv
  obtain ⟨⟨f', w', changed⟩, h, hout⟩ := toOption_map_eq_some.mp hrun
  obtain ⟨hnarrow, hout⟩ := Prod.mk.inj hout
  obtain ⟨hrenamed, rfl⟩ := Prod.mk.inj hout
  obtain ⟨gone, s, hrewritten⟩ := (blocks_are_rewritten hm hcheck (List.mem_singleton.mpr rfl) hphis
    (ConstantTable.tracks_snapshot _ _)).2 f' w' true h
  exact ⟨hm, hcheck, hphis, f', w', gone, s, h, hnarrow, hrenamed, hrewritten⟩

end Function
end ShaderIR
