import ShaderIR.Proofs.Function.DominatorTree
import ShaderIR.Proofs.Graph.Sweeps

/-!
# Building the dominator tree of a function

The blocks are numbered in the order of a depth-first walk, and sweeps over the numbers build the
tree.  Whatever the targets are, and however the predecessors are listed, the sweeps run through:
no number and no parent is ever missing, no node waits for its predecessors, and the loops end.
-/

namespace ShaderIR.Function

open ShaderIR.Graph.Parents

variable {f : Function} {targets : BlockKey → List Id} {preds : BlockKey → List BlockKey}
  {e : BlockKey}

/-- The blocks in the order in which the sweeps pass them. -/
def sweepOrder (f : Function) (targets : BlockKey → List Id) (e : BlockKey) : List BlockKey :=
  Graph.reversePostorder (f.successorsBy targets) f.layout e

/-- The numbers of the listed predecessors of each number. -/
def sweepPlaces (f : Function) (targets : BlockKey → List Id) (e : BlockKey)
    (preds : BlockKey → List BlockKey) : Nat → List Nat :=
  Graph.DominatorTree.listedPlaces (f.sweepOrder targets e) preds

section Entry

variable (hf : f.Coherent) (he : f.entry? = some e)
include hf he

/-- The blocks that have a number are those that can be reached. -/
theorem isSome_idxOf?_sweepOrder_iff (b : BlockKey) :
    ((f.sweepOrder targets e).idxOf? b).isSome ↔ f.ReachedBy targets b := by
  have hmem : e ∈ f.layout := List.mem_of_mem_head? he
  rw [List.isSome_idxOf?, sweepOrder,
    Graph.mem_reversePostorder_iff (hf.closed_successorsBy targets) hf.nodup hmem, ReachedBy, he]
  simp

theorem numbered_sweepPlaces (hpreds : f.ListsPredecessors targets preds) :
    Numbered (f.sweepPlaces targets e preds) (f.sweepOrder targets e).length := by
  refine Graph.DominatorTree.numbered_listedPlaces hf.nodup (fun a b => ?_)
  rw [hpreds, ← isSome_idxOf?_sweepOrder_iff hf he, List.isSome_idxOf?]
  rfl

omit hf in
theorem dominatorsFrom?_eq_map : f.dominatorsFrom? targets preds =
    (Graph.immediate? (f.sweepPlaces targets e preds) (f.sweepOrder targets e).length).map
      (Graph.DominatorTree.mk (f.sweepOrder targets e)) := by
  rw [dominatorsFrom?, he]
  exact Graph.DominatorTree.ofPredecessors?_eq_map _ preds

end Entry

/-- **The sweeps that build a dominator tree run through.**  Every listed predecessor has a number.
The sweeps come to an end with the tree.  At every moment of them any two placed nodes climb to a
node where they meet, over numbers that all belong to blocks, and the next node is placed under a
node, so none is passed over.  After the first sweep every reachable block has its place. -/
theorem dominator_sweeps_run_through (hf : f.Coherent) (he : f.entry? = some e)
    (hpreds : f.ListsPredecessors targets preds) :
    (∀ a b, a ∈ preds b →
      ((f.sweepOrder targets e).idxOf? a).isSome ∧ ((f.sweepOrder targets e).idxOf? b).isSome) ∧
    (∃ last,
      Settles (f.sweepPlaces targets e preds) (f.sweepOrder targets e).length
        (rooted (f.sweepOrder targets e).length) last ∧
      f.dominatorsBy targets = ⟨f.sweepOrder targets e, last⟩) ∧
    (∀ c up moved,
      Moment (f.sweepPlaces targets e preds) (f.sweepOrder targets e).length c up moved →
        (∀ i, Placed up i → ((f.sweepOrder targets e)[i]?).isSome) ∧
        (∀ i j, Placed up i → Placed up j → ∃ k, Climbs up i j k ∧ Placed up k) ∧
        (c < (f.sweepOrder targets e).length →
          ∃ p after, up.place? (f.sweepPlaces targets e preds c) = some (some p) ∧
            move? (f.sweepPlaces targets e preds) (up, moved) c = some after)) ∧
    ∃ first moved,
      sweep? (f.sweepPlaces targets e preds) (f.sweepOrder targets e).length
        (rooted (f.sweepOrder targets e).length) = some (first, moved) ∧
      ∀ b, f.ReachedBy targets b →
        ∃ i, (f.sweepOrder targets e).idxOf? b = some i ∧ Placed first i := by
  have hnum := numbered_sweepPlaces hf he hpreds
  refine ⟨fun a b hab => ?_, ?_, fun c up moved hmoment => ?_, ?_⟩
  · rw [isSome_idxOf?_sweepOrder_iff hf he, isSome_idxOf?_sweepOrder_iff hf he]
    obtain ⟨ha, hb⟩ := (hpreds a b).mp hab
    exact ⟨ha, ha.step hb⟩
  · obtain ⟨last, hlast, hsettles⟩ := exists_settles hnum
    have htree := dominatorsFrom?_eq hf hpreds
    rw [dominatorsFrom?_eq_map he, hlast] at htree
    exact ⟨last, hsettles, (Option.some.inj htree).symm⟩
  · obtain ⟨hprogress, -⟩ := hmoment.progress hnum
    refine ⟨fun i hi => ?_, fun i j => exists_climbs hprogress.tree, fun hc => ?_⟩
    · simp [hprogress.tree.lt hi]
    · exact (hmoment.exists_move hnum hc).2
  · obtain ⟨first, moved, hsweep, hplaced⟩ := exists_first_sweep hnum
    refine ⟨first, moved, hsweep, fun b hb => ?_⟩
    obtain ⟨i, hi⟩ := Option.isSome_iff_exists.mp
      ((isSome_idxOf?_sweepOrder_iff hf he b).mpr hb)
    exact ⟨i, hi, hplaced i (List.idxOf?_eq_some_iff.mp hi).1⟩

/-- Blocks `%11`, `%12` and `%13` form loops that are entered at each of them. -/
def threeEntrances : Function := .ofBlocks ⟨1⟩ ⟨2⟩ ⟨3⟩ [
  ⟨⟨16⟩, [.branchConditional ⟨5⟩ ⟨15⟩ ⟨14⟩]⟩,
  ⟨⟨15⟩, [.branch ⟨11⟩]⟩,
  ⟨⟨14⟩, [.branchConditional ⟨5⟩ ⟨12⟩ ⟨13⟩]⟩,
  ⟨⟨11⟩, [.branch ⟨12⟩]⟩,
  ⟨⟨12⟩, [.branchConditional ⟨5⟩ ⟨11⟩ ⟨13⟩]⟩,
  ⟨⟨13⟩, [.branch ⟨12⟩]⟩]

/-- One sweep is not enough here: it places `%11` under `%15`, and only the next one, which has seen
`%12`, moves it up to the entry. -/
theorem dominator_sweeps_run_through_threeEntrances :
    threeEntrances.Coherent ∧ threeEntrances.entry? = some ⟨0⟩ ∧
      threeEntrances.ListsPredecessors threeEntrances.targets
        (threeEntrances.predecessorsTwice threeEntrances.targets) ∧
      sweep? (threeEntrances.sweepPlaces threeEntrances.targets ⟨0⟩
          (threeEntrances.predecessorsTwice threeEntrances.targets)) 6 (rooted 6) =
        some (#[some 0, some 0, some 0, some 2, some 0, some 0], true) ∧
      ∃ last,
        Settles (threeEntrances.sweepPlaces threeEntrances.targets ⟨0⟩
          (threeEntrances.predecessorsTwice threeEntrances.targets)) 6 (rooted 6) last ∧
        last.parent? 3 = some 0 := by
  have hco : threeEntrances.Coherent := by decide
  have hentry : threeEntrances.entry? = some ⟨0⟩ := by decide
  have hlists : threeEntrances.ListsPredecessors threeEntrances.targets
      (threeEntrances.predecessorsTwice threeEntrances.targets) :=
    listsPredecessors_predecessorsTwice hco
  have horder : threeEntrances.sweepOrder threeEntrances.targets ⟨0⟩ =
      [⟨0⟩, ⟨2⟩, ⟨1⟩, ⟨3⟩, ⟨4⟩, ⟨5⟩] := by cbv
  have hparent :
      (threeEntrances.dominatorsBy threeEntrances.targets).parents.parent? 3 = some 0 := by
    cbv
  obtain ⟨-, ⟨last, hsettles, htree⟩, -⟩ := dominator_sweeps_run_through hco hentry hlists
  rw [htree] at hparent
  rw [horder] at hsettles
  exact ⟨hco, hentry, hlists, by cbv, last, hsettles, hparent⟩

end ShaderIR.Function
