import ShaderIR.Proofs.Function.Neighbours
import ShaderIR.Proofs.Validity.Lawful

/-!
# The operands of accepted phis

The check compares the parents that a phi names with the predecessors of its block, each way by
membership.  It does not count.  A parent may stand in two pairs, and operands that make no pair of
ids are passed over.  So an accepted phi names the right blocks, but it need not have one pair for
each; whether it does can be told from the number of its operands.

* `Instruction.complete_iff`: when the operands are pairs of ids and nothing else;
* `Instruction.onePairEach_iff`: counting operands;
* `Module.accepted_phi_pairs`: the phis of an accepted module;
* `Module.loose_phis_accepted`: phis that do not have one pair for each predecessor.
-/

namespace ShaderIR

/-! ## 1. Pairs and operands -/

namespace Instruction

variable {phi : Instruction} {labels : List Id}

/-- The parents that a phi names, pair by pair. -/
def parents (phi : Instruction) : List Id := phi.phiIncoming.map Prod.snd

/-- A (value, parent) pair as operands. -/
def refs (p : Id × Id) : Operand × Operand := (.ref p.1, .ref p.2)

/-- The operands are one (value, parent) pair for each of the labels and nothing else. -/
structure OnePairEach (phi : Instruction) (labels : List Id) : Prop where
  complete : phi.operands = unpair (phi.phiIncoming.map refs)
  distinct : phi.parents.Nodup
  covers : ∀ l, l ∈ phi.parents ↔ l ∈ labels

theorem incomingPair?_eq_some {o : Operand × Operand} {p : Id × Id}
    (h : incomingPair? o = some p) : o = refs p := by
  obtain ⟨value, parent⟩ := o
  obtain ⟨v, hv, h⟩ := Option.bind_eq_some_iff.mp h
  obtain ⟨l, hl, h⟩ := Option.bind_eq_some_iff.mp h
  cases h
  cases value <;> cases hv
  cases parent <;> cases hl
  rfl

/-- If no pair of operands is left out, the pairs of ids are the pairs of operands. -/
theorem map_refs_filterMap {os : List (Operand × Operand)}
    (h : (os.filterMap incomingPair?).length = os.length) :
    (os.filterMap incomingPair?).map refs = os := by
  induction os with
  | nil => rfl
  | cons o os ih =>
    cases ho : incomingPair? o with
    | none =>
      rw [List.filterMap_cons_none ho, List.length_cons] at h
      have := List.length_filterMap_le incomingPair? os
      omega
    | some p =>
      rw [List.filterMap_cons_some ho, List.length_cons, List.length_cons] at h
      rw [List.filterMap_cons_some ho, List.map_cons, ih (by omega), incomingPair?_eq_some ho]

theorem length_phiIncoming_le (phi : Instruction) :
    2 * phi.phiIncoming.length ≤ phi.operands.length := by
  have hpairs := List.length_filterMap_le incomingPair? (pairs phi.operands)
  rw [length_pairs] at hpairs
  have : phi.phiIncoming.length ≤ phi.operands.length / 2 := hpairs
  omega

/-- **The operands are pairs of ids and nothing else** if they are twice as many as the pairs. -/
theorem complete_iff : phi.operands = unpair (phi.phiIncoming.map refs) ↔
    phi.operands.length = 2 * phi.phiIncoming.length := by
  constructor
  · intro h
    rw [congrArg List.length h, length_unpair, List.length_map]
  · intro h
    have hall : phi.phiIncoming.length = (pairs phi.operands).length := by
      rw [length_pairs]
      omega
    have hpairs : phi.phiIncoming.map refs = pairs phi.operands := map_refs_filterMap hall
    rw [hpairs, unpair_pairs (by omega)]

/-- Labels that all occur among the parents take two operands each. -/
theorem two_mul_length_le (hnodup : labels.Nodup) (hcovers : ∀ l ∈ labels, l ∈ phi.parents) :
    2 * labels.length ≤ phi.operands.length := by
  have hle := (List.subperm_of_subset hnodup hcovers).length_le
  rw [parents, List.length_map] at hle
  have := phi.length_phiIncoming_le
  omega

/-- **One pair for each label, or too many operands.** -/
theorem onePairEach_iff (hnodup : labels.Nodup) (hcovers : ∀ l, l ∈ phi.parents ↔ l ∈ labels) :
    phi.OnePairEach labels ↔ phi.operands.length = 2 * labels.length := by
  have hlength : phi.parents.length = phi.phiIncoming.length := List.length_map _
  constructor
  · rintro ⟨hcomplete, hdistinct, -⟩
    have hperm : phi.parents.Perm labels :=
      (List.perm_ext_iff_of_nodup hdistinct hnodup).mpr hcovers
    rw [complete_iff.mp hcomplete, ← hperm.length_eq, hlength]
  · intro hcount
    -- the labels leave no room for a second pair or a stray operand
    have hsub : labels.Subperm phi.parents :=
      List.subperm_of_subset hnodup (fun l hl => (hcovers l).mpr hl)
    have hle := hsub.length_le
    have hroom := phi.length_phiIncoming_le
    have hperm : labels.Perm phi.parents := hsub.perm_of_length_le (by omega)
    exact ⟨complete_iff.mpr (by omega), hperm.nodup_iff.mp hnodup, hcovers⟩

end Instruction

/-! ## 2. Predecessors -/

namespace Function

variable {f : Function} {k : BlockKey} {b : Block} {l : Id}

/-- The labels of the predecessors of a block, in layout order. -/
def predecessorLabels (f : Function) (k : BlockKey) : List Id :=
  f.labelsOf ((FlowGraph.ofFunction f).predecessors k)

theorem nodup_predecessorLabels (hf : f.Coherent) (k : BlockKey) :
    (f.predecessorLabels k).Nodup := by
  have hpreds : ((FlowGraph.ofFunction f).predecessors k).Nodup := by
    rw [predecessors_of_nodup hf.nodup]
    exact hf.nodup.filter _
  refine List.pairwise_filterMap.mpr (hpreds.imp_of_mem (fun ha ha' hne l hl l' hl' e => hne ?_))
  subst e
  exact hf.eq_of_label? (FlowGraph.mem_predecessors_iff.mp ha).1
    (FlowGraph.mem_predecessors_iff.mp ha').1 hl hl'

theorem mem_predecessorLabels_iff (hf : f.Coherent) (hk : k ∈ f.layout)
    (hb : f.block? k = some b) : l ∈ f.predecessorLabels k ↔
      ∃ a ∈ f.layout, f.label? a = some l ∧ b.label ∈ f.targets a := by
  rw [predecessorLabels, mem_labelsOf]
  refine exists_congr (fun a => ?_)
  rw [FlowGraph.mem_predecessors_iff, hf.mem_resolve_iff hk (label?_of_block? hb)]
  tauto

end Function

/-! ## 3. Accepted modules -/

namespace Module

variable {m : Module} {f : Function} {k : BlockKey} {b : Block} {phi : Instruction}

/-- **An accepted phi names the predecessors of its block and no other**, and it has one pair for
each of them exactly if it has two operands for each. -/
theorem accepted_phi_pairs (hm : m.Coherent) (hok : m.check = .ok []) (hf : f ∈ m.functionList)
    (hk : f.Reached k) (hb : f.block? k = some b) (hphi : phi ∈ b.phis)
    (hres : phi.result?.isSome) :
    (∀ l, l ∈ phi.parents ↔ l ∈ f.predecessorLabels k) ∧
      2 * (f.predecessorLabels k).length ≤ phi.operands.length ∧
      (phi.OnePairEach (f.predecessorLabels k) ↔
        phi.operands.length = 2 * (f.predecessorLabels k).length) := by
  have hco := hm f hf
  have ha := (check_eq_ok_nil_iff hm).mp hok
  have hlawful := (Function.sound_iff_lawful hco).mp (ha.sound f hf)
  have hcovers : ∀ l, l ∈ phi.parents ↔ l ∈ f.predecessorLabels k := by
    intro l
    rw [Function.mem_predecessorLabels_iff hco (hk.mem_layout hco) hb, Instruction.parents,
      List.mem_map]
    exact hlawful.phis k hk b hb phi hphi hres l
  have hnodup := Function.nodup_predecessorLabels hco k
  exact ⟨hcovers, Instruction.two_mul_length_le hnodup (fun l hl => (hcovers l).mpr hl),
    Instruction.onePairEach_iff hnodup hcovers⟩

/-- The phi of the loop header has a pair for the way into the loop and one for the way back. -/
theorem accepted_phi_pairs_loopWith :
    (loopWith [(⟨5⟩, ⟨10⟩), (⟨15⟩, ⟨12⟩)]).Coherent ∧
      (loopWith [(⟨5⟩, ⟨10⟩), (⟨15⟩, ⟨12⟩)]).check = .ok [] ∧
      (loopFunction [(⟨5⟩, ⟨10⟩), (⟨15⟩, ⟨12⟩)]).Reached ⟨1⟩ ∧
      (loopFunction [(⟨5⟩, ⟨10⟩), (⟨15⟩, ⟨12⟩)]).predecessorLabels ⟨1⟩ = [⟨10⟩, ⟨12⟩] ∧
      (Instruction.phi ⟨4⟩ ⟨14⟩ [(⟨5⟩, ⟨10⟩), (⟨15⟩, ⟨12⟩)]).OnePairEach [⟨10⟩, ⟨12⟩] := by
  have hm : (loopWith [(⟨5⟩, ⟨10⟩), (⟨15⟩, ⟨12⟩)]).Coherent := by decide
  have hok : (loopWith [(⟨5⟩, ⟨10⟩), (⟨15⟩, ⟨12⟩)]).check = .ok [] := by cbv
  have hf : loopFunction [(⟨5⟩, ⟨10⟩), (⟨15⟩, ⟨12⟩)] ∈
      (loopWith [(⟨5⟩, ⟨10⟩), (⟨15⟩, ⟨12⟩)]).functionList := List.mem_singleton.mpr rfl
  have hk : (loopFunction [(⟨5⟩, ⟨10⟩), (⟨15⟩, ⟨12⟩)]).Reached ⟨1⟩ :=
    (Function.contains_reachable_iff (hm _ hf)).mp (by cbv)
  have hlabels : (loopFunction [(⟨5⟩, ⟨10⟩), (⟨15⟩, ⟨12⟩)]).predecessorLabels ⟨1⟩ =
      [⟨10⟩, ⟨12⟩] := by cbv
  have hphi : Instruction.phi ⟨4⟩ ⟨14⟩ [(⟨5⟩, ⟨10⟩), (⟨15⟩, ⟨12⟩)] ∈
      Block.phis ⟨⟨11⟩, [.phi ⟨4⟩ ⟨14⟩ [(⟨5⟩, ⟨10⟩), (⟨15⟩, ⟨12⟩)], .loopMerge ⟨13⟩ ⟨12⟩,
        .branchConditional ⟨14⟩ ⟨12⟩ ⟨13⟩]⟩ := by decide
  obtain ⟨-, -, hiff⟩ := accepted_phi_pairs hm hok hf hk rfl hphi rfl
  rw [hlabels] at hiff
  exact ⟨hm, hok, hk, hlabels, hiff.mpr rfl⟩

/-- Three phis where two ways meet: the first names `%11` twice, the second has a value without a
parent, the third has a literal in place of a value. -/
def looseBlock : Block := ⟨⟨13⟩, [
  .phi ⟨4⟩ ⟨14⟩ [(⟨5⟩, ⟨11⟩), (⟨6⟩, ⟨12⟩), (⟨6⟩, ⟨11⟩)],
  ⟨.phi, some ⟨4⟩, some ⟨15⟩, [.ref ⟨5⟩, .ref ⟨11⟩, .ref ⟨6⟩, .ref ⟨12⟩, .ref ⟨5⟩]⟩,
  ⟨.phi, some ⟨4⟩, some ⟨16⟩, [.ref ⟨5⟩, .ref ⟨11⟩, .ref ⟨6⟩, .ref ⟨12⟩, .literal 0, .ref ⟨11⟩]⟩,
  .ret]⟩

/-- The function of `looseBlock`. -/
def looseFunction : Function := .ofBlocks ⟨1⟩ ⟨2⟩ ⟨3⟩ [
  ⟨⟨10⟩, [.selectionMerge ⟨13⟩, .branchConditional ⟨7⟩ ⟨11⟩ ⟨12⟩]⟩,
  ⟨⟨11⟩, [.branch ⟨13⟩]⟩,
  ⟨⟨12⟩, [.branch ⟨13⟩]⟩,
  looseBlock]

/-- The module of `looseFunction`. -/
def looseModule : Module :=
  { Module.empty with
    globals := [⟨.typeVoid, none, some ⟨2⟩, []⟩, ⟨.typeFunction, none, some ⟨3⟩, [.ref ⟨2⟩]⟩,
      ⟨.typeBool, none, some ⟨4⟩, []⟩, ⟨.constantTrue, some ⟨4⟩, some ⟨5⟩, []⟩,
      ⟨.constantFalse, some ⟨4⟩, some ⟨6⟩, []⟩, ⟨.undef, some ⟨4⟩, some ⟨7⟩, []⟩]
    functions := ⟨#[looseFunction]⟩
    bound := 17 }

/-- **The check accepts phis that do not have one pair for each predecessor.** -/
theorem loose_phis_accepted :
    looseModule.Coherent ∧ looseModule.check = .ok [] ∧ looseFunction ∈ looseModule.functionList ∧
      looseFunction.Reached ⟨3⟩ ∧ looseFunction.block? ⟨3⟩ = some looseBlock ∧
      looseBlock.phis.map Instruction.result? = [some ⟨14⟩, some ⟨15⟩, some ⟨16⟩] ∧
      ∀ phi ∈ looseBlock.phis, ¬ phi.OnePairEach (looseFunction.predecessorLabels ⟨3⟩) := by
  have hm : looseModule.Coherent := by decide
  have hf : looseFunction ∈ looseModule.functionList := List.mem_singleton.mpr rfl
  have hlabels : looseFunction.predecessorLabels ⟨3⟩ = [⟨11⟩, ⟨12⟩] := by cbv
  have hcount : ∀ phi ∈ looseBlock.phis, phi.operands.length ≠ 4 := by decide
  refine ⟨hm, by cbv, hf, (Function.contains_reachable_iff (hm _ hf)).mp (by cbv), rfl, by decide,
    fun phi hphi hone => ?_⟩
  rw [hlabels] at hone
  exact hcount phi hphi ((Instruction.onePairEach_iff (by decide) hone.covers).mp hone)

end Module
end ShaderIR
