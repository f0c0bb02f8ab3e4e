import ShaderIR.Proofs.Function.Flow

/-!
# The dominator tree of a function

The tree is asked three questions: whether a block dominates another one, whether it does so
strictly, and which is the immediate dominator.  All three answers are read off the paths from the
entry, for any choice of branch targets.  The predecessors of a block may be listed in any order and
any number of times when the tree is built: `dominatorsFrom?` takes the lists as they come, and
`dominatorsFrom?_eq` says that they make no difference.
-/

namespace ShaderIR.Function

variable {f : Function} {targets : BlockKey → List Id} {preds : BlockKey → List BlockKey}
  {a b d : BlockKey}

/-! ## 1. Strict and immediate dominators -/

section Coherent

variable (hf : f.Coherent)
include hf

theorem strictlyDominates_dominatorsBy_iff :
    (f.dominatorsBy targets).strictlyDominates d b = true ↔ f.DominatedBy targets d b ∧ d ≠ b := by
  rw [dominatorsBy, DominatedBy]
  cases he : f.entry? with
  | none => simp [Graph.DominatorTree.strictlyDominates, Graph.DominatorTree.empty]
  | some e =>
    have hmem : e ∈ f.layout := List.mem_of_mem_head? he
    simp [Graph.DominatorTree.strictlyDominates_ofGraph_iff (hf.closed_successorsBy targets)
      hf.nodup hmem]

theorem idom?_dominatorsBy_eq_none_iff :
    (f.dominatorsBy targets).idom? b = none ↔ f.entry? = some b ∨ ¬ f.ReachedBy targets b := by
  rw [dominatorsBy, ReachedBy]
  cases he : f.entry? with
  | none => simp [Graph.DominatorTree.idom?, Graph.DominatorTree.empty]
  | some e =>
    have hmem : e ∈ f.layout := List.mem_of_mem_head? he
    simp [Graph.DominatorTree.idom?_ofGraph_eq_none_iff (hf.closed_successorsBy targets) hf.nodup
      hmem, eq_comm]

theorem idom?_dominatorsBy_eq_some_iff :
    (f.dominatorsBy targets).idom? b = some a ↔
      f.DominatedBy targets a b ∧ a ≠ b ∧
        ∀ d, f.DominatedBy targets d b → d ≠ b → f.DominatedBy targets d a := by
  simp only [dominatorsBy, DominatedBy]
  cases he : f.entry? with
  | none => simp [Graph.DominatorTree.idom?, Graph.DominatorTree.empty]
  | some e =>
    have hmem : e ∈ f.layout := List.mem_of_mem_head? he
    simp [Graph.DominatorTree.idom?_ofGraph_eq_some_iff (hf.closed_successorsBy targets) hf.nodup
      hmem]

end Coherent

/-! ## 2. Predecessors in any order -/

/-- The lists hold the reachable predecessors of each block, in any order, any number of times. -/
def ListsPredecessors (f : Function) (targets : BlockKey → List Id)
    (preds : BlockKey → List BlockKey) : Prop :=
  ∀ a b, a ∈ preds b ↔ f.ReachedBy targets a ∧ b ∈ f.successorsBy targets a

/-- The dominator tree over the given targets, from lists of predecessors. -/
def dominatorsFrom? (f : Function) (targets : BlockKey → List Id)
    (preds : BlockKey → List BlockKey) : Option (Graph.DominatorTree BlockKey) :=
  match f.entry? with
  | some entry =>
    Graph.DominatorTree.ofPredecessors?
      (Graph.reversePostorder (f.successorsBy targets) f.layout entry) preds
  | none => some .empty

theorem dominatorsFrom?_eq (hf : f.Coherent) (hpreds : f.ListsPredecessors targets preds) :
    f.dominatorsFrom? targets preds = some (f.dominatorsBy targets) := by
  rw [dominatorsFrom?, dominatorsBy]
  cases he : f.entry? with
  | none => rfl
  | some e =>
    have hmem : e ∈ f.layout := List.mem_of_mem_head? he
    refine Graph.DominatorTree.ofPredecessors?_eq hf.nodup (fun a b => ?_)
    rw [hpreds, Graph.mem_reversePostorder_iff (hf.closed_successorsBy targets) hf.nodup hmem,
      ReachedBy, he]
    simp

/-- **The dominator tree is right about every path,** in whatever order the predecessors are
listed. -/
theorem dominator_tree_exact (hf : f.Coherent) (hpreds : f.ListsPredecessors targets preds) :
    f.dominatorsFrom? targets preds = some (f.dominatorsBy targets) ∧
      ∀ a b,
        ((f.dominatorsBy targets).dominates a b = true ↔ f.DominatedBy targets a b) ∧
        ((f.dominatorsBy targets).strictlyDominates a b = true ↔
          f.DominatedBy targets a b ∧ a ≠ b) ∧
        ((f.dominatorsBy targets).idom? b = none ↔
          f.entry? = some b ∨ ¬ f.ReachedBy targets b) ∧
        ((f.dominatorsBy targets).idom? b = some a ↔
          f.DominatedBy targets a b ∧ a ≠ b ∧
            ∀ d, f.DominatedBy targets d b → d ≠ b → f.DominatedBy targets d a) :=
  ⟨dominatorsFrom?_eq hf hpreds, fun _ _ => ⟨dominates_dominatorsBy_iff hf,
    strictlyDominates_dominatorsBy_iff hf, idom?_dominatorsBy_eq_none_iff hf,
    idom?_dominatorsBy_eq_some_iff hf⟩⟩

/-- The predecessors of a block against the order of the layout, and then along it. -/
def predecessorsTwice (f : Function) (targets : BlockKey → List Id) (b : BlockKey) :
    List BlockKey :=
  (f.layout.reverse ++ f.layout).filter (fun a =>
    (f.reachableBy targets).contains a && (f.successorsBy targets a).contains b)

theorem listsPredecessors_predecessorsTwice (hf : f.Coherent) :
    f.ListsPredecessors targets (f.predecessorsTwice targets) := by
  intro a b
  rw [predecessorsTwice, List.mem_filter, Bool.and_eq_true, contains_reachableBy_iff hf,
    List.contains_iff_mem, List.mem_append, List.mem_reverse, or_self]
  exact ⟨fun h => h.2, fun h => ⟨h.1.mem_layout hf, h⟩⟩

/-- Blocks `%11` and `%12` form a loop with two entrances, `%11` branches to `%12` twice, `%13`
branches to itself and to the entry, and `%14` cannot be reached. -/
def twoEntrances : Function := .ofBlocks ⟨1⟩ ⟨2⟩ ⟨3⟩ [
  ⟨⟨10⟩, [.branchConditional ⟨5⟩ ⟨11⟩ ⟨12⟩]⟩,
  ⟨⟨11⟩, [.branchConditional ⟨5⟩ ⟨12⟩ ⟨12⟩]⟩,
  ⟨⟨12⟩, [.branchConditional ⟨5⟩ ⟨11⟩ ⟨13⟩]⟩,
  ⟨⟨13⟩, [.branchConditional ⟨5⟩ ⟨13⟩ ⟨10⟩]⟩,
  ⟨⟨14⟩, [.branch ⟨13⟩]⟩]

theorem dominator_tree_exact_twoEntrances :
    twoEntrances.Coherent ∧
      twoEntrances.ListsPredecessors twoEntrances.targets
        (twoEntrances.predecessorsTwice twoEntrances.targets) ∧
      (twoEntrances.dominatorsFrom? twoEntrances.targets
        (twoEntrances.predecessorsTwice twoEntrances.targets)).bind (fun t => t.idom? ⟨2⟩) =
          some ⟨0⟩ ∧
      twoEntrances.DominatedBy twoEntrances.targets ⟨2⟩ ⟨3⟩ ∧
      ¬ twoEntrances.DominatedBy twoEntrances.targets ⟨1⟩ ⟨3⟩ ∧
      ¬ twoEntrances.ReachedBy twoEntrances.targets ⟨4⟩ := by
  have hco : twoEntrances.Coherent := by decide
  have hlists : twoEntrances.ListsPredecessors twoEntrances.targets
      (twoEntrances.predecessorsTwice twoEntrances.targets) :=
    listsPredecessors_predecessorsTwice hco
  obtain ⟨heq, htree⟩ := dominator_tree_exact hco hlists
  have hidom : (twoEntrances.dominatorsBy twoEntrances.targets).idom? ⟨2⟩ = some ⟨0⟩ := by cbv
  have hnone : (twoEntrances.dominatorsBy twoEntrances.targets).idom? ⟨4⟩ = none := by cbv
  have hdom : (twoEntrances.dominatorsBy twoEntrances.targets).dominates ⟨2⟩ ⟨3⟩ = true := by cbv
  have hnot : (twoEntrances.dominatorsBy twoEntrances.targets).dominates ⟨1⟩ ⟨3⟩ = false := by cbv
  refine ⟨hco, hlists, by rw [heq, Option.bind_some, hidom], (htree _ _).1.mp hdom, fun h => ?_, ?_⟩
  · rw [(htree _ _).1.mpr h] at hnot
    cases hnot
  · have hentry : twoEntrances.entry? ≠ some ⟨4⟩ := by decide
    exact ((htree ⟨4⟩ ⟨4⟩).2.2.1.mp hnone).resolve_left hentry

end ShaderIR.Function
