import ShaderIR.Proofs.Function.Walks
import ShaderIR.Proofs.Instruction.Operands
import ShaderIR.Proofs.Lists

/-!
# The edges of the flow graph

The flow graph is entered edge by edge from both ends, and a block is met as a target before or
after its own turn.  What comes out does not show that history: the successors of a block are read
off its terminator, the predecessors off the layout, and the two agree.

* `flowGraph_congr`: nothing but layout, index and terminators counts;
* `flow_graph_exact`: the neighbours of every block.
-/

namespace ShaderIR.Function

variable {f g : Function} {b : BlockKey}

/-- The terminator of a block. -/
def terminator? (f : Function) (b : BlockKey) : Option Instruction :=
  (f.block? b).bind Block.terminator?

theorem targets_eq (f : Function) (b : BlockKey) :
    f.targets b = (f.terminator? b).toList.flatMap Instruction.branchTargets := by
  rw [targets, terminator?]
  cases f.block? b with
  | none => rfl
  | some k =>
    simp only [Option.map_some, Option.getD_some, Block.targets, Option.bind_some]
    cases k.terminator? <;> simp

theorem hasReadableTargets_iff : f.hasReadableTargets b = true ↔
    ∀ t, f.terminator? b = some t → ¬ (t.opcode = .branchConditional ∧ t.operands = []) := by
  simp only [hasReadableTargets, Block.hasReadableTargets, terminator?, Option.all_eq_true,
    Option.bind_eq_some_iff, Instruction.hasReadableTargets_iff]
  refine ⟨?_, fun h k hk t ht => h t ⟨k, hk, ht⟩⟩
  rintro h t ⟨k, hk, ht⟩
  exact h k hk t ht

/-- **Nothing but layout, index and terminators counts for the flow graph.** -/
theorem flowGraph_congr (hlayout : g.layout = f.layout) (hlabels : g.labels = f.labels)
    (hends : ∀ b ∈ f.layout, g.terminator? b = f.terminator? b) :
    FlowGraph.ofFunction g = FlowGraph.ofFunction f := by
  have hresolve : ∀ ls, g.resolve ls = f.resolve ls := by
    intro ls
    have hindex : g.blockOf? = f.blockOf? := by
      funext l
      rw [blockOf?, blockOf?, hlabels]
    rw [resolve, resolve, hindex]
  rw [FlowGraph.ofFunction, FlowGraph.ofFunction, hlayout]
  refine List.foldl_ext _ _ _ (fun graph b hb => ?_)
  rw [FlowGraph.addBlock, FlowGraph.addBlock, hresolve, targets_eq, targets_eq, hends b hb]

theorem predecessors_of_nodup (h : f.layout.Nodup) (b : BlockKey) :
    (FlowGraph.ofFunction f).predecessors b =
      f.layout.filter (fun a => b ∈ f.resolve (f.targets a)) := by
  rw [FlowGraph.predecessors_ofFunction, eraseDups_of_nodup (h.filter _)]

/-- **The flow graph knows the neighbours of every block exactly.**  It can be read unless a
terminator is a conditional branch without operands. -/
theorem flow_graph_exact (f : Function) :
    (f.readFlowGraph = .ok (FlowGraph.ofFunction f) ↔ ∀ b ∈ f.layout, ∀ t,
      f.terminator? b = some t → ¬ (t.opcode = .branchConditional ∧ t.operands = [])) ∧
    (∀ b ∈ f.layout, (FlowGraph.ofFunction f).successors b =
      (((f.terminator? b).toList.flatMap Instruction.branchTargets).filterMap
        f.blockOf?).eraseDups) ∧
    (∀ b, (FlowGraph.ofFunction f).predecessors b =
      (f.layout.filter (fun p => b ∈ (FlowGraph.ofFunction f).successors p)).eraseDups) ∧
    (f.layout.Nodup → ∀ b, (FlowGraph.ofFunction f).predecessors b =
      f.layout.filter (fun p => b ∈ (FlowGraph.ofFunction f).successors p)) ∧
    (∀ b p, (FlowGraph.ofFunction f).isPredecessor p b = true ↔
      b ∈ (FlowGraph.ofFunction f).successors p) ∧
    ∀ g : Function, g.layout = f.layout → g.labels = f.labels →
      (∀ b ∈ f.layout, g.terminator? b = f.terminator? b) →
        FlowGraph.ofFunction g = FlowGraph.ofFunction f := by
  have hfilter : ∀ b, f.layout.filter (fun p => b ∈ f.resolve (f.targets p)) =
      f.layout.filter (fun p => b ∈ (FlowGraph.ofFunction f).successors p) := by
    refine fun b => List.filter_congr (fun p hp => ?_)
    simp [FlowGraph.mem_successors_iff, hp]
  refine ⟨?_, fun b hb => ?_, fun b => ?_, fun hnodup b => ?_, fun b p => ?_,
    fun g => flowGraph_congr⟩
  · rw [readFlowGraph_eq_ok_iff]
    exact forall₂_congr (fun b _ => hasReadableTargets_iff)
  · rw [FlowGraph.successors_ofFunction, if_pos hb, targets_eq, resolve]
  · rw [FlowGraph.predecessors_ofFunction, hfilter]
  · rw [predecessors_of_nodup hnodup, hfilter]
  · rw [FlowGraph.isPredecessor_iff, FlowGraph.mem_successors_iff]

/-- A switch names one block twice and one that does not exist, `%11` branches to itself, and `%14`
is not reachable.  Merge declarations and phis name further blocks. -/
def crossroads : Function := .ofBlocks ⟨1⟩ ⟨2⟩ ⟨3⟩ [
  ⟨⟨10⟩, [.selectionMerge ⟨13⟩, .switch ⟨5⟩ ⟨12⟩ [(0, ⟨11⟩), (1, ⟨12⟩), (2, ⟨99⟩), (3, ⟨11⟩)]]⟩,
  ⟨⟨11⟩, [.loopMerge ⟨13⟩ ⟨14⟩, .branchConditional ⟨5⟩ ⟨11⟩ ⟨13⟩]⟩,
  ⟨⟨12⟩, [.phi ⟨4⟩ ⟨20⟩ [(⟨5⟩, ⟨14⟩)], .branch ⟨13⟩]⟩,
  ⟨⟨13⟩, [.ret]⟩,
  ⟨⟨14⟩, [.branch ⟨11⟩]⟩]

/-- The terminators of `crossroads` and nothing else. -/
def crossroadsEnds : Function := .ofBlocks ⟨1⟩ ⟨2⟩ ⟨3⟩ [
  ⟨⟨10⟩, [.switch ⟨5⟩ ⟨12⟩ [(0, ⟨11⟩), (1, ⟨12⟩), (2, ⟨99⟩), (3, ⟨11⟩)]]⟩,
  ⟨⟨11⟩, [.branchConditional ⟨5⟩ ⟨11⟩ ⟨13⟩]⟩,
  ⟨⟨12⟩, [.branch ⟨13⟩]⟩,
  ⟨⟨13⟩, [.ret]⟩,
  ⟨⟨14⟩, [.branch ⟨11⟩]⟩]

theorem flow_graph_exact_crossroads :
    crossroads.layout = [⟨0⟩, ⟨1⟩, ⟨2⟩, ⟨3⟩, ⟨4⟩] ∧
      crossroads.readFlowGraph = .ok (FlowGraph.ofFunction crossroads) ∧
      (FlowGraph.ofFunction crossroads).successors ⟨0⟩ = [⟨2⟩, ⟨1⟩] ∧
      (FlowGraph.ofFunction crossroads).predecessors ⟨1⟩ = [⟨0⟩, ⟨1⟩, ⟨4⟩] ∧
      (FlowGraph.ofFunction crossroads).isPredecessor ⟨1⟩ ⟨1⟩ = true ∧
      FlowGraph.ofFunction crossroadsEnds = FlowGraph.ofFunction crossroads := by
  obtain ⟨hread, hsuccs, -, hpreds, hpred, hcongr⟩ := flow_graph_exact crossroads
  refine ⟨by decide, hread.mpr (by decide), ?_, ?_, ?_,
    hcongr _ (by decide) (by decide) (by decide)⟩
  · rw [hsuccs ⟨0⟩ (by decide)]
    decide
  · rw [hpreds (by decide)]
    decide
  · rw [hpred, hsuccs ⟨1⟩ (by decide)]
    decide

end ShaderIR.Function
