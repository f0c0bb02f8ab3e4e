import ShaderIR.Proofs.DeadBranch.Phases
import ShaderIR.Proofs.Function.Walks

/-!
# What a proposal says about the result

A proposal is judged before it is carried out: reachability and dominance are computed over edges that
no block has yet, and the uses are read off blocks that still have their old end.  Here the new end
is put on, and the analyses of the result are compared with what the proposal was told.

* `Replacement`: the ends that a selection header can be given;
* `Redirected.legal_iff`: a proposal is legal if the result is in order, and if the uses that went with
  the old end could have stayed;
* `proposal_describes_result`: the proposal and the function that results from it;
* `stray_operand_prevents_fold`: an operand of the old branch counts, although it goes.
-/

namespace ShaderIR

/-! ## 1. New ends -/

/-- The merge declaration and the terminator of a block. -/
def Block.ending (k : Block) : List Instruction :=
  k.mergeInstruction?.toList ++ k.terminator?.toList

theorem Block.ending_of_selection? {k : Block} {sel : SelectionBranch}
    (hsel : k.selection? = some sel) :
    ∃ i, k.instructions = k.pop.pop.instructions ++ k.ending ∧ k.ending = [i, sel.branch] ∧
      i.opcode = .selectionMerge ∧
      (sel.branch.opcode = .branchConditional ∨ sel.branch.opcode = .switch) ∧
      i.idOperand? 0 = some sel.merge ∧ sel.branch.idOperand? 0 = some sel.condition := by
  obtain ⟨body, i, heq, hi, ht, hm, hc⟩ := exists_end_of_selection? hsel
  have hterm : sel.branch.opcode.isTerminator = true := by
    rcases ht with ht | ht <;> rw [ht] <;> rfl
  have hending : k.ending = [i, sel.branch] := by
    simp [ending, terminator?, mergeInstruction?, heq, hterm, hi, Opcode.isMerge]
  refine ⟨i, ?_, hending, hi, ht, hm, hc⟩
  simp [hending, pop, heq, List.dropLast_append_of_ne_nil]

theorem Block.isPhi_of_mem_ending {k : Block} {sel : SelectionBranch}
    (hsel : k.selection? = some sel) {i : Instruction} (hi : i ∈ k.ending) :
    i.opcode.isPhi = false := by
  obtain ⟨m, -, hending, hm, ht, -⟩ := ending_of_selection? hsel
  rw [hending] at hi
  rcases List.mem_pair.mp hi with rfl | rfl
  · rw [hm]
    rfl
  · rcases ht with ht | ht <;> rw [ht] <;> rfl

/-- A new end for a selection header: a branch to the live target, or the old merge block and a
conditional branch that takes the live target for one of the two values. -/
inductive Replacement where
  | fold
  | narrow (cond : Id) (value : Bool)

namespace Replacement

variable (e : Replacement) (live merge : Id)

/-- The edges that are proposed. -/
def edges : List Id :=
  match e with
  | fold => [live]
  | narrow _ _ => [live, merge]

/-- Puts the new end on a block. -/
def edit (k : Block) : Except Fault Block :=
  match e with
  | fold => k.foldSelection live
  | narrow cond value =>
    k.narrowSelection merge cond (if value then live else merge) (if value then merge else live)

def condition? : Option Id :=
  match e with
  | fold => none
  | narrow cond _ => some cond

/-- The new branch. -/
def branch : Instruction :=
  match e with
  | fold => .branch live
  | narrow cond value =>
    .branchConditional cond (if value then live else merge) (if value then merge else live)

/-- What is put in the place of the old end. -/
def instructions : List Instruction :=
  match e with
  | fold => [e.branch live merge]
  | narrow _ _ => [.selectionMerge merge, e.branch live merge]

variable {e live merge} {k : Block} {sel : SelectionBranch} {i : Instruction}

theorem edit_eq_ok (hsel : k.selection? = some sel)
    (hopen : ∀ i ∈ k.pop.pop.instructions, i.opcode.isTerminator = false)
    (e : Replacement) (live merge : Id) :
    e.edit live merge k = .ok ⟨k.label, k.pop.pop.instructions ++ e.instructions live merge⟩ := by
  obtain ⟨i, heq, hending, -⟩ := Block.ending_of_selection? hsel
  rw [hending] at heq
  cases e with
  | fold => exact Block.foldSelection_of_end heq hsel hopen live
  | narrow cond value => exact Block.narrowSelection_of_end heq hsel hopen _ _ _ _

theorem result?_of_mem (hi : i ∈ e.instructions live merge) : i.result? = none := by
  cases e with
  | fold =>
    rw [List.mem_singleton.mp hi]
    rfl
  | narrow cond value => rcases List.mem_pair.mp hi with rfl | rfl <;> rfl

theorem isPhi_of_mem (hi : i ∈ e.instructions live merge) : i.opcode.isPhi = false := by
  cases e with
  | fold =>
    rw [List.mem_singleton.mp hi]
    rfl
  | narrow cond value => rcases List.mem_pair.mp hi with rfl | rfl <;> rfl

/-- A new end names nothing but its edges, the merge block and the condition. -/
theorem eq_of_mem_uses (hi : i ∈ e.instructions live merge) {x : Id} (hx : x ∈ i.uses) :
    x = live ∨ x = merge ∨ e.condition? = some x := by
  cases e with
  | fold =>
    rw [List.mem_singleton.mp hi] at hx
    exact .inl (List.mem_singleton.mp hx)
  | narrow cond value =>
    rcases List.mem_pair.mp hi with rfl | rfl
    · exact .inr (.inl (List.mem_singleton.mp hx))
    · have hx : x ∈ [cond, if value then live else merge, if value then merge else live] := hx
      rcases List.mem_cons.mp hx with rfl | hx
      · exact .inr (.inr rfl)
      · cases value <;> grind

/-- What a new end names was named by the old one, but for a new condition. -/
theorem mem_uses_ending (hsel : k.selection? = some sel) (hlive : live ∈ sel.branch.branchTargets)
    (hi : i ∈ e.instructions live sel.merge) {x : Id} (hx : x ∈ i.uses) :
    (∃ j ∈ k.ending, x ∈ j.uses) ∨ e.condition? = some x := by
  obtain ⟨m, -, hending, -, -, hm, -⟩ := Block.ending_of_selection? hsel
  rw [hending]
  rcases eq_of_mem_uses hi hx with rfl | rfl | hx
  · exact .inl ⟨sel.branch, by simp, Instruction.mem_uses_of_mem_branchTargets hlive⟩
  · exact .inl ⟨m, by simp, Instruction.mem_uses_of_idOperand? hm⟩
  · exact .inr hx

theorem terminator?_append (l : Id) (body : List Instruction) :
    (Block.mk l (body ++ e.instructions live merge)).terminator? = some (e.branch live merge) := by
  cases e <;> exact Option.filter_eq_some_iff.mpr ⟨by simp [instructions, branch], rfl⟩

/-- The new branch goes along the proposed edges, in one order or the other. -/
theorem mem_branchTargets_branch {x : Id} :
    x ∈ (e.branch live merge).branchTargets ↔ x ∈ e.edges live merge := by
  cases e with
  | fold => rfl
  | narrow cond value =>
    cases value with
    | true => rfl
    | false => exact (List.Perm.swap live merge []).mem_iff

theorem hasReadableTargets_branch : (e.branch live merge).hasReadableTargets = true := by
  cases e <;> rfl

end Replacement

namespace Function

variable {f g : Function} {header b : BlockKey} {edges : List Id} {k : Block}
  {sel : SelectionBranch}

/-! ## 2. The uses in the result -/

namespace Redirected

/-- Ends without results define nothing, so one can take the place of the other. -/
theorem definitions (h : Redirected f g header edges) {body old new : List Instruction}
    (hf : f.instructions header = body ++ old) (hg : g.instructions header = body ++ new)
    (hold : ∀ i ∈ old, i.result? = none) (hnew : ∀ i ∈ new, i.result? = none) :
    g.definitions = f.definitions := by
  refine h.frame.definitions (fun b => ?_)
  by_cases hb : b = header
  · rw [hb, hf, hg, List.filterMap_append, List.filterMap_append,
      List.filterMap_eq_nil_iff.mpr hold, List.filterMap_eq_nil_iff.mpr hnew]
  · rw [h.instructions hb]

theorem unnamedBy_iff (h : Redirected f g header edges) :
    g.UnnamedBy g.targets header b ↔ f.UnnamedBy (f.withTargets header edges) header b := by
  unfold UnnamedBy
  rw [h.frame.label?]
  refine forall_congr' (fun l => imp_congr_right (fun _ => forall_congr' (fun c => ?_)))
  refine imp_congr h.reached_iff (imp_congr_right (fun hc => ?_))
  rw [h.instructions hc]

theorem availableBy_iff (h : Redirected f g header edges) (hdefs : g.definitions = f.definitions)
    {x : Id} : g.AvailableBy g.targets x b ↔ f.AvailableBy (f.withTargets header edges) x b := by
  simp only [AvailableBy, definedIn?, hdefs, h.dominatedBy_iff]

/-- **A proposal is legal if the result is in order,** and if the old end could have stayed as well. -/
theorem legal_iff (h : Redirected f g header edges) (hdefs : g.definitions = f.definitions)
    {body old new : List Instruction} (hf : f.instructions header = body ++ old)
    (hg : g.instructions header = body ++ new)
    (hold : ∀ i ∈ old, i.opcode.isPhi = false) (hnew : ∀ i ∈ new, i.opcode.isPhi = false)
    (huses : ∀ i ∈ new, ∀ x ∈ i.uses, (∃ j ∈ old, x ∈ j.uses) ∨ f.definedIn? x = none) :
    f.Legal header edges ↔
      (∀ b, f.Reached b → ¬ g.Reached b → g.UnnamedBy g.targets header b) ∧
      g.InOrderBy g.targets ∧
      (g.Reached header → ∀ i ∈ old, ∀ x ∈ i.uses, g.AvailableBy g.targets x header) := by
  have hdefined : ∀ x, g.definedIn? x = f.definedIn? x := fun x => by simp only [definedIn?, hdefs]
  have huses : ∀ i ∈ new, ∀ x ∈ i.uses, (∃ j ∈ old, x ∈ j.uses) ∨ g.definedIn? x = none :=
    fun i hi x hx => by simpa only [hdefined] using huses i hi x hx
  simp only [h.unnamedBy_iff, h.reached_iff]
  constructor
  · intro hlegal
    refine ⟨hlegal.unnamed, h.inOrderBy (fun x d hd => hdefined x ▸ hd) hf hg hold hnew huses
      hlegal.inOrder, fun hr i hi x hx => (h.availableBy_iff hdefs).mpr ?_⟩
    have hmem : i ∈ f.instructions header := by
      rw [hf]
      exact List.mem_append_right _ hi
    exact (hlegal.inOrder header hr i hmem).other (hold i hi) x hx
  · rintro ⟨hunnamed, hord, hend⟩
    refine ⟨hunnamed, fun b hb i hi => ?_⟩
    have hb' : g.Reached b := h.reached_iff.mpr hb
    have hsame : i ∈ g.instructions b → f.UsesAvailableBy (f.withTargets header edges) b i :=
      fun hi => (hord b hb' i hi).transfer hb (fun l => (h.frame.blockOf? l).symm)
        (fun a ha => h.reached_iff.mpr ha) (fun x a _ => (h.availableBy_iff hdefs).mp)
    by_cases hbh : b = header
    · subst hbh
      rw [hf] at hi
      rcases List.mem_append.mp hi with hi | hi
      · refine hsame ?_
        rw [hg]
        exact List.mem_append_left _ hi
      · exact ⟨fun hphi => by simp [hold i hi] at hphi,
          fun _ x hx => (h.availableBy_iff hdefs).mp (hend hb i hi x hx)⟩
    · refine hsame ?_
      rwa [h.instructions hbh]

end Redirected

/-- A header that is given a new end. -/
theorem redirected_setInstructions (hk : f.block? header = some k) (e : Replacement)
    (body : List Instruction) (live merge : Id) :
    Redirected f (f.setInstructions header (body ++ e.instructions live merge)) header
      (e.edges live merge) where
  frame := sameFrame_setInstructions f header _
  block? b hb := by rw [block?_setInstructions, if_neg hb]
  edges l := by
    rw [targets, block?_setInstructions, if_pos rfl, hk]
    simp only [Option.map_some, Option.getD_some, Block.targets, Replacement.terminator?_append,
      Replacement.mem_branchTargets_branch]

/-! ## 3. Proposal and result -/

/-- **A proposal tells what the function that results from it is like.**  Reachability and dominance
over the proposed edges are those of the result, and a proposal is legal exactly if the result is in
order and the ids that go with the old end could have stayed. -/
theorem proposal_describes_result (hf : f.Coherent) (hk : f.block? header = some k)
    (hsel : k.selection? = some sel)
    (hopen : ∀ i ∈ k.pop.pop.instructions, i.opcode.isTerminator = false)
    (e : Replacement) (live : Id) :
    ∃ g, f.editBlock header (e.edit live sel.merge) = .ok g ∧
      (∀ b, g.reachable.contains b =
        (f.reachableBy (f.withTargets header (e.edges live sel.merge))).contains b) ∧
      (∀ d b, g.dominators.dominates d b =
        (f.dominatorsBy (f.withTargets header (e.edges live sel.merge))).dominates d b) ∧
      (g.readReachable = .ok g.reachable ↔
        ∀ b, f.ReachedBy (f.withTargets header (e.edges live sel.merge)) b → b ≠ header →
          f.hasReadableTargets b = true) ∧
      (live ∈ sel.branch.branchTargets →
        (∀ x, e.condition? = some x → x = sel.condition ∨ f.definedIn? x = none) →
        (∀ i ∈ k.ending, i.result? = none) →
        (f.isLegalProposal f.reachable header (e.edges live sel.merge) = true ↔
          (∀ b, f.Reached b → ¬ g.Reached b → g.UnnamedBy g.targets header b) ∧
          g.InOrderBy g.targets ∧
          (g.Reached header → ∀ i ∈ k.ending, ∀ x ∈ i.uses,
            g.AvailableBy g.targets x header))) := by
  obtain ⟨i, heq, hending, -, -, -, hc⟩ := Block.ending_of_selection? hsel
  have hred := redirected_setInstructions hk e k.pop.pop.instructions live sel.merge
  have hedit := editBlock_of_block? hk (Replacement.edit_eq_ok hsel hopen e live sel.merge) rfl
  have hblock : (f.setInstructions header
      (k.pop.pop.instructions ++ e.instructions live sel.merge)).block? header =
      some ⟨k.label, k.pop.pop.instructions ++ e.instructions live sel.merge⟩ := by
    rw [block?_setInstructions, if_pos rfl, hk]
    rfl
  refine ⟨_, hedit, ?_⟩
  generalize f.setInstructions header (k.pop.pop.instructions ++ e.instructions live sel.merge) = g
    at hred hblock
  have hg : g.Coherent := hred.frame.coherent hf
  refine ⟨fun b => ?_, fun d b => ?_, ?_, fun hlive hcond hres => ?_⟩
  · rw [Bool.eq_iff_iff, contains_reachable_iff hg, contains_reachableBy_iff hf, hred.reached_iff]
  · rw [Bool.eq_iff_iff, dominators, dominates_dominatorsBy_iff hg, dominates_dominatorsBy_iff hf,
      hred.dominatedBy_iff]
  · rw [readReachable_eq_ok_iff hg]
    refine forall_congr' (fun b => imp_congr hred.reached_iff ?_)
    by_cases hb : b = header
    · subst hb
      simp [hasReadableTargets, hblock, Block.hasReadableTargets, Replacement.terminator?_append,
        Replacement.hasReadableTargets_branch]
    · simp [hasReadableTargets, hred.block? b hb, hb]
  · have hold : f.instructions header = k.pop.pop.instructions ++ k.ending :=
      (instructions_of_block? hk).trans heq
    have hnew := instructions_of_block? hblock
    have hdefs := hred.definitions hold hnew hres (fun j hj => Replacement.result?_of_mem hj)
    have huses : ∀ j ∈ e.instructions live sel.merge, ∀ x ∈ j.uses,
        (∃ j ∈ k.ending, x ∈ j.uses) ∨ f.definedIn? x = none := by
      intro j hj x hx
      rcases Replacement.mem_uses_ending hsel hlive hj hx with hx | hx
      · exact .inl hx
      · refine (hcond x hx).imp_left (fun hsame => ?_)
        rw [hending, hsame]
        exact ⟨sel.branch, by simp, Instruction.mem_uses_of_idOperand? hc⟩
    rw [isLegalProposal_iff hf]
    exact hred.legal_iff hdefs hold hnew (fun j hj => Block.isPhi_of_mem_ending hsel hj)
      (fun j hj => Replacement.isPhi_of_mem hj) huses

/-- Block `%11` names the merge block of the entry too, but does not go there. -/
def sharedMerge : Function := .ofBlocks ⟨1⟩ ⟨2⟩ ⟨3⟩ [
  ⟨⟨10⟩, [.selectionMerge ⟨12⟩, .switch ⟨7⟩ ⟨12⟩ [(1, ⟨11⟩)]]⟩,
  ⟨⟨11⟩, [⟨.logicalNot, some ⟨4⟩, some ⟨20⟩, [.ref ⟨5⟩]⟩, .selectionMerge ⟨12⟩,
    .branchConditional ⟨20⟩ ⟨13⟩ ⟨14⟩]⟩,
  ⟨⟨12⟩, [.ret]⟩,
  ⟨⟨13⟩, [⟨.logicalNot, some ⟨4⟩, some ⟨21⟩, [.ref ⟨20⟩]⟩, .ret]⟩,
  ⟨⟨14⟩, [.ret]⟩]

/-- Folding would lose the merge block `%12`, so the header keeps an edge to it. -/
theorem proposal_describes_result_sharedMerge :
    sharedMerge.Coherent ∧
      sharedMerge.isLegalProposal sharedMerge.reachable ⟨0⟩ [⟨11⟩] = false ∧
      sharedMerge.isLegalProposal sharedMerge.reachable ⟨0⟩ [⟨11⟩, ⟨12⟩] = true ∧
      ∃ g, sharedMerge.editBlock ⟨0⟩ ((Replacement.narrow ⟨5⟩ true).edit ⟨11⟩ ⟨12⟩) = .ok g ∧
        g.reachable.contains ⟨2⟩ = true ∧ g.dominators.dominates ⟨1⟩ ⟨3⟩ = true ∧
        g.InOrderBy g.targets := by
  have hco : sharedMerge.Coherent := by decide
  have hlegal : sharedMerge.isLegalProposal sharedMerge.reachable ⟨0⟩
      ((Replacement.narrow ⟨5⟩ true).edges ⟨11⟩ ⟨12⟩) = true := by cbv
  have hk : sharedMerge.block? ⟨0⟩ =
      some ⟨⟨10⟩, [.selectionMerge ⟨12⟩, .switch ⟨7⟩ ⟨12⟩ [(1, ⟨11⟩)]]⟩ := rfl
  have hsel : Block.selection? ⟨⟨10⟩, [.selectionMerge ⟨12⟩, .switch ⟨7⟩ ⟨12⟩ [(1, ⟨11⟩)]]⟩ =
      some ⟨.switch ⟨7⟩ ⟨12⟩ [(1, ⟨11⟩)], ⟨12⟩, ⟨7⟩⟩ := rfl
  obtain ⟨g, hg, hreach, hdom, -, hiff⟩ :=
    proposal_describes_result hco hk hsel (by decide) (.narrow ⟨5⟩ true) ⟨11⟩
  refine ⟨hco, by cbv, hlegal, g, hg, ?_, ?_, ?_⟩
  · rw [hreach]
    cbv
  · rw [hdom]
    cbv
  · refine ((hiff (by decide) ?_ (by decide)).mp hlegal).2.1
    rintro x hx
    cases hx
    exact .inr (by cbv)

/-! ## 4. An operand too many -/

/-- The branch of the entry has an operand that says nothing, and that is defined in `%11`. -/
def strayOperand : Function := .ofBlocks ⟨1⟩ ⟨2⟩ ⟨3⟩ [
  ⟨⟨10⟩, [.selectionMerge ⟨12⟩,
    ⟨.branchConditional, none, none, [.ref ⟨5⟩, .ref ⟨11⟩, .ref ⟨12⟩, .ref ⟨20⟩]⟩]⟩,
  ⟨⟨11⟩, [⟨.logicalNot, some ⟨4⟩, some ⟨20⟩, [.ref ⟨5⟩]⟩, .branch ⟨12⟩]⟩,
  ⟨⟨12⟩, [.ret]⟩]

/-- **An operand that goes with the old branch counts all the same.**  With a branch to `%11` the
function would be in order, but before the fold the operand is not available at the header. -/
theorem stray_operand_prevents_fold :
    strayOperand.Coherent ∧ (Module.ofFunction 21 Module.boolGlobals strayOperand).check = .ok [] ∧
      (∃ k, strayOperand.block? ⟨0⟩ = some k ∧ (∀ i ∈ k.instructions, i.result? = none) ∧
        k.selection?.map (fun sel => (sel.merge, sel.condition)) = some (⟨12⟩, ⟨5⟩)) ∧
      strayOperand.definedIn? ⟨5⟩ = none ∧
      strayOperand.isLegalProposal strayOperand.reachable ⟨0⟩ [⟨11⟩] = false ∧
      ∃ g, strayOperand.editBlock ⟨0⟩ (Replacement.fold.edit ⟨11⟩ ⟨12⟩) = .ok g ∧
        (∀ b, strayOperand.Reached b → g.Reached b) ∧ g.InOrderBy g.targets := by
  have hco : strayOperand.Coherent := by decide
  have hg : (strayOperand.setInstructions ⟨0⟩ [.branch ⟨11⟩]).Coherent :=
    (sameFrame_setInstructions _ _ _).coherent hco
  refine ⟨hco, by cbv, ⟨_, rfl, by decide, rfl⟩, by cbv, by cbv, _, rfl,
    fun b hb => (contains_reachable_iff hg).mp ?_,
    (keepsDominance_iff hg).mp (by cbv)⟩
  have hall : strayOperand.layout.all
      (strayOperand.setInstructions ⟨0⟩ [.branch ⟨11⟩]).reachable.contains = true := by cbv
  exact List.all_eq_true.mp hall b (hb.mem_layout hco)

end Function
end ShaderIR
