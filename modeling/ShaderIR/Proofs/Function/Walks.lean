import ShaderIR.Proofs.Function.DominatorTree
import ShaderIR.Proofs.Graph.DepthFirst

/-!
# The walks through a function

Three computations go through a function from its entry: the search for reachable blocks, the
depth-first walk of the dominator tree, and the walk of the structured order.  The tree knows a block
as reachable if it is the root or has an immediate dominator, which the sweeps have to find first.

* `reachability_agrees`: search, tree and post-order know the same blocks, those on a path from the
  entry;
* `walks_are_recursive`: the walks list the blocks as the recursive depth-first search does.
-/

namespace ShaderIR.Function

variable {f : Function} {targets : BlockKey → List Id} {b : BlockKey}

/-! ## 1. Reachability -/

theorem getLast?_postorder_dominatorsBy :
    (f.dominatorsBy targets).postorder.getLast? = f.entry? := by
  rw [Graph.DominatorTree.postorder, List.getLast?_reverse, dominatorsBy]
  cases he : f.entry? with
  | none => rfl
  | some e => exact Graph.head?_reversePostorder

theorem requireReadable_eq_ok_iff {bs : List BlockKey} :
    f.requireReadable bs = .ok () ↔ ∀ b ∈ bs, f.hasReadableTargets b = true := by
  rw [requireReadable, ← List.all_eq_true]
  split <;> simp [*]

theorem readFlowGraph_eq_ok_iff : f.readFlowGraph = .ok (FlowGraph.ofFunction f) ↔
    ∀ b ∈ f.layout, f.hasReadableTargets b = true := by
  rw [← requireReadable_eq_ok_iff, readFlowGraph]
  cases f.requireReadable f.layout <;> simp [bind, Except.bind]

section Coherent

variable (hf : f.Coherent)
include hf

theorem mem_postorder_dominatorsBy_iff :
    b ∈ (f.dominatorsBy targets).postorder ↔ f.ReachedBy targets b := by
  rw [Graph.DominatorTree.postorder, List.mem_reverse, dominatorsBy, ReachedBy]
  cases he : f.entry? with
  | none => simp [Graph.DominatorTree.empty]
  | some e =>
    have hmem : e ∈ f.layout := List.mem_of_mem_head? he
    simp [Graph.DominatorTree.ofGraph,
      Graph.mem_reversePostorder_iff (hf.closed_successorsBy targets) hf.nodup hmem]

theorem nodup_postorder_dominatorsBy : (f.dominatorsBy targets).postorder.Nodup := by
  rw [Graph.DominatorTree.postorder, List.nodup_reverse, dominatorsBy]
  cases f.entry? with
  | none => exact List.nodup_nil
  | some e => exact Graph.DominatorTree.nodup_order_ofGraph hf.nodup

/-- The blocks that the edges of the flow graph lead to are the reachable ones. -/
theorem reached_iff_flowGraph : f.Reached b ↔ ∃ e, f.entry? = some e ∧
    Graph.Reaches (fun x y => y ∈ (FlowGraph.ofFunction f).successors x) e b := by
  refine exists_congr (fun e => and_congr_right (fun he => ?_))
  refine Graph.reaches_congr (fun x y hx => ?_) b
  have hlayout : x ∈ f.layout := ReachedBy.mem_layout hf ⟨e, he, hx⟩
  rw [FlowGraph.mem_successors_iff, and_iff_right hlayout]
  rfl

/-- The reachable blocks are refused only if the targets of one of them cannot be read. -/
theorem readReachable_eq_ok_iff : f.readReachable = .ok f.reachable ↔
    ∀ b, f.Reached b → f.hasReadableTargets b = true := by
  have hkeys : (∀ b, f.Reached b → f.hasReadableTargets b = true) ↔
      f.requireReadable f.reachable.keys = .ok () := by
    rw [requireReadable_eq_ok_iff]
    exact forall_congr' (fun b => imp_congr_left (mem_keys_reachableBy_iff hf).symm)
  rw [hkeys, readReachable]
  cases f.requireReadable f.reachable.keys <;> simp [bind, Except.bind]

end Coherent

/-- **Search, dominator tree and post-order know the same blocks,** for any choice of targets, and
for the targets of the function the flow graph knows them too. -/
theorem reachability_agrees (hf : f.Coherent) :
    (∀ targets b,
      ((f.reachableBy targets).contains b = true ↔ f.ReachedBy targets b) ∧
      ((f.dominatorsBy targets).isReachable b = true ↔ f.ReachedBy targets b) ∧
      (b ∈ (f.dominatorsBy targets).postorder ↔ f.ReachedBy targets b)) ∧
    (∀ targets, (f.dominatorsBy targets).postorder.Nodup ∧
      (f.dominatorsBy targets).postorder.getLast? = f.entry?) ∧
    (∀ b, (f.dominators.isReachable b = f.reachable.contains b) ∧
      (f.reachable.contains b = true ↔ ∃ e, f.entry? = some e ∧
        Graph.Reaches (fun x y => y ∈ (FlowGraph.ofFunction f).successors x) e b)) ∧
    (f.readReachable = .ok f.reachable ↔ ∀ b, f.Reached b → f.hasReadableTargets b = true) ∧
    (f.readFlowGraph = .ok (FlowGraph.ofFunction f) ↔
      ∀ b ∈ f.layout, f.hasReadableTargets b = true) := by
  refine ⟨fun targets b => ⟨contains_reachableBy_iff hf, isReachable_dominatorsBy_iff hf,
    mem_postorder_dominatorsBy_iff hf⟩, fun targets => ⟨nodup_postorder_dominatorsBy hf,
    getLast?_postorder_dominatorsBy⟩, fun b => ⟨?_, ?_⟩, readReachable_eq_ok_iff hf,
    readFlowGraph_eq_ok_iff⟩
  · rw [Bool.eq_iff_iff, contains_reachable_iff hf]
    exact isReachable_dominatorsBy_iff hf
  · rw [contains_reachable_iff hf, reached_iff_flowGraph hf]

/-- In `twoEntrances` an edge stands twice, two blocks form a loop that has no header, and `%14`
leads to reachable blocks without being one. -/
theorem reachability_agrees_twoEntrances :
    twoEntrances.Coherent ∧
      twoEntrances.dominators.postorder = [⟨3⟩, ⟨2⟩, ⟨1⟩, ⟨0⟩] ∧
      (∀ b, twoEntrances.reachable.contains b = true ↔ b ∈ twoEntrances.dominators.postorder) ∧
      twoEntrances.dominators.isReachable ⟨4⟩ = false ∧
      twoEntrances.readReachable = .ok twoEntrances.reachable := by
  have hco : twoEntrances.Coherent := by decide
  obtain ⟨hsame, -, heq, hread, -⟩ := reachability_agrees hco
  have hpost : twoEntrances.dominators.postorder = [⟨3⟩, ⟨2⟩, ⟨1⟩, ⟨0⟩] := by cbv
  refine ⟨hco, hpost, fun b => ?_, ?_, hread.mpr (fun b hb => ?_)⟩
  · exact (hsame _ b).1.trans (hsame _ b).2.2.symm
  · rw [(heq ⟨4⟩).1]
    cbv
  · have hreadable : twoEntrances.layout.all twoEntrances.hasReadableTargets = true := by cbv
    exact List.all_eq_true.mp hreadable b (hb.mem_layout hco)

/-! ## 2. Depth-first order -/

/-- The blocks in the order in which the recursive depth-first search from the entry leaves them.
In a coherent function every successor is a block of the layout, so that only marked blocks are
passed over. -/
def postorderBy (f : Function) (next : BlockKey → List BlockKey) : List BlockKey :=
  match f.entry? with
  | some entry => Graph.postorder next f.layout entry
  | none => []

/-- **The walks of the structured order and of the dominator tree are the recursive depth-first
search.** -/
theorem walks_are_recursive (f : Function) :
    f.structuredOrder = (f.postorderBy f.structuredSuccessors).reverse ∧
      ∀ targets, (f.dominatorsBy targets).postorder = f.postorderBy (f.successorsBy targets) := by
  rw [structuredOrder]
  simp only [postorderBy, dominatorsBy]
  cases he : f.entry? with
  | none => exact ⟨rfl, fun _ => rfl⟩
  | some e =>
    have hmem : e ∈ f.layout := List.mem_of_mem_head? he
    refine ⟨Graph.reversePostorder_eq hmem, fun targets => ?_⟩
    simp only [Graph.DominatorTree.postorder, Graph.DominatorTree.ofGraph,
      Graph.reversePostorder_eq hmem, List.reverse_reverse]

end ShaderIR.Function
