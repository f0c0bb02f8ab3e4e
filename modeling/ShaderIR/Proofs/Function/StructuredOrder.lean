import ShaderIR.Proofs.Function.Flow

/-!
# The structured order and dominance

The structured order is a reverse post-order over the branch targets, the merge blocks and the
continue targets.  Every block but the entry stands behind one of its structured predecessors, so
strict dominators over structured paths come first.

Ordinary paths are fewer, and a block may have more dominators over them.  These come first as well
if the structured graph has no way back other than to a dominator: then the last edge of a shortest
ordinary path leads forwards, and every block stands behind one of its ordinary predecessors too.
-/

namespace ShaderIR

/-- One node stands before another one in an order. -/
def Graph.Precedes {α : Type} [DecidableEq α] (order : List α) (a b : α) : Prop :=
  b ∈ order ∧ order.idxOf a < order.idxOf b

instance {α : Type} [DecidableEq α] (order : List α) (a b : α) :
    Decidable (Graph.Precedes order a b) :=
  inferInstanceAs (Decidable (b ∈ order ∧ order.idxOf a < order.idxOf b))

namespace Function

variable {f : Function} {a b : BlockKey}

theorem head?_structuredOrder : f.structuredOrder.head? = f.entry? := by
  cases he : f.entry? with
  | none => simp [structuredOrder, he]
  | some e => rw [structuredOrder_of_entry he, Graph.head?_reversePostorder]

/-- Every structured edge that does not lead forwards in the order leads to a dominator of its
start. -/
def ReturnsToDominators (f : Function) : Prop :=
  ∀ s ∈ f.structuredOrder, ∀ t ∈ f.structuredSuccessors s,
    f.structuredOrder.idxOf t ≤ f.structuredOrder.idxOf s → f.DominatedBy f.structuredTargets t s

/-- The order can be computed unless a block ends in a branch whose targets cannot be read. -/
theorem readStructuredOrder_eq :
    f.readStructuredOrder =
      if ∀ b ∈ f.layout, f.hasReadableTargets b = true then .ok f.structuredOrder
      else .error .noBranchOperands := by
  unfold readStructuredOrder requireReadable
  simp only [List.all_eq_true]
  split <;> rfl

section Coherent

variable (hf : f.Coherent)
include hf

/-- Every block but the entry stands behind one of its structured predecessors. -/
theorem exists_earlier_structured {e : BlockKey} (he : f.entry? = some e)
    (hb : f.ReachedBy f.structuredTargets b) (hne : b ≠ e) :
    ∃ a, f.ReachedBy f.structuredTargets a ∧ b ∈ f.structuredSuccessors a ∧
      f.structuredOrder.idxOf a < f.structuredOrder.idxOf b := by
  have hmem := (mem_structuredOrder_iff hf).mpr hb
  obtain ⟨l₁, l₂, hsplit, hfirst⟩ := List.eq_append_cons_of_mem hmem
  obtain ⟨a, ha, hab⟩ := Graph.exists_earlier_predecessor
    ((structuredOrder_of_entry he).symm.trans hsplit) hne
  refine ⟨a, (mem_structuredOrder_iff hf).mp (by simp [hsplit, ha]), hab, ?_⟩
  rw [hsplit, List.idxOf_append_of_mem ha, List.idxOf_append_of_notMem hfirst,
    List.idxOf_cons_self]
  have := List.idxOf_lt_length_of_mem ha
  omega

theorem precedes_of_structured (hne : a ≠ b) (hab : f.DominatedBy f.structuredTargets a b) :
    Graph.Precedes f.structuredOrder a b := by
  obtain ⟨e, he, hdom⟩ := hab
  refine ⟨(mem_structuredOrder_iff hf).mpr ⟨e, he, hdom.reaches⟩, ?_⟩
  refine hdom.lt_of_earlier (f.structuredOrder.idxOf ·) (fun b hb hbe => ?_) hne
  obtain ⟨a, ⟨e', he', ha⟩, hedge, hlt⟩ := exists_earlier_structured hf he ⟨e, he, hb⟩ hbe
  obtain rfl := Option.some.inj (he'.symm.trans he)
  exact ⟨a, ha, hedge, hlt⟩

theorem precedes_of_ordinary (hret : f.ReturnsToDominators) (hne : a ≠ b)
    (hab : f.DominatedBy f.targets a b) : Graph.Precedes f.structuredOrder a b := by
  obtain ⟨e, he, hdom⟩ := hab
  refine ⟨mem_structuredOrder hf ⟨e, he, hdom.reaches⟩, ?_⟩
  refine hdom.lt_of_earlier (f.structuredOrder.idxOf ·) (fun b hb hbe => ?_) hne
  refine Graph.exists_earlier_edge _ (fun s t hs hst hle => ?_) hb hbe
  have hreached : f.Reached s := ⟨e, he, hs⟩
  have hts := hret s (mem_structuredOrder hf hreached) t (mem_resolve_structuredTargets hst) hle
  obtain ⟨e', he', hts⟩ := hts.mono (fun _ _ _ => mem_resolve_structuredTargets) hreached
  obtain rfl := Option.some.inj (he'.symm.trans he)
  exact hts

end Coherent

/-- **The structured order respects dominance.** -/
theorem structured_order_respects_dominance (hf : f.Coherent) :
    (f.readStructuredOrder =
      if ∀ b ∈ f.layout, f.hasReadableTargets b = true then .ok f.structuredOrder
      else .error .noBranchOperands) ∧
    f.structuredOrder.Nodup ∧
    (∀ b, b ∈ f.structuredOrder ↔ f.ReachedBy f.structuredTargets b) ∧
    f.structuredOrder.head? = f.entry? ∧
    (∀ a b, a ≠ b → f.DominatedBy f.structuredTargets a b →
      Graph.Precedes f.structuredOrder a b) ∧
    (f.ReturnsToDominators → ∀ a b, a ≠ b → f.DominatedBy f.targets a b →
      Graph.Precedes f.structuredOrder a b) :=
  ⟨readStructuredOrder_eq, nodup_structuredOrder hf, fun _ => mem_structuredOrder_iff hf,
    head?_structuredOrder, fun _ _ => precedes_of_structured hf,
    fun hret _ _ => precedes_of_ordinary hf hret⟩

/-- A loop with its header in `%11`, its body in `%12` and its continue target in `%13`.  The body
is on every ordinary path to the continue target, but not on every structured one. -/
def whileLoop : Function := .ofBlocks ⟨1⟩ ⟨2⟩ ⟨3⟩ [
  ⟨⟨10⟩, [.branch ⟨11⟩]⟩,
  ⟨⟨11⟩, [.loopMerge ⟨14⟩ ⟨13⟩, .branchConditional ⟨5⟩ ⟨12⟩ ⟨14⟩]⟩,
  ⟨⟨12⟩, [.branch ⟨13⟩]⟩,
  ⟨⟨13⟩, [.branch ⟨11⟩]⟩,
  ⟨⟨14⟩, [.ret]⟩]

theorem structured_order_respects_dominance_whileLoop :
    whileLoop.Coherent ∧ whileLoop.ReturnsToDominators ∧
      whileLoop.DominatedBy whileLoop.targets ⟨2⟩ ⟨3⟩ ∧
      ¬ whileLoop.DominatedBy whileLoop.structuredTargets ⟨2⟩ ⟨3⟩ ∧
      Graph.Precedes whileLoop.structuredOrder ⟨2⟩ ⟨3⟩ := by
  have hco : whileLoop.Coherent := by decide
  have hdom : (whileLoop.dominatorsBy whileLoop.targets).dominates ⟨2⟩ ⟨3⟩ = true := by cbv
  have hnot : (whileLoop.dominatorsBy whileLoop.structuredTargets).dominates ⟨2⟩ ⟨3⟩ = false := by
    cbv
  have hback : whileLoop.structuredOrder.all (fun s => (whileLoop.structuredSuccessors s).all
      (fun t => decide (whileLoop.structuredOrder.idxOf s < whileLoop.structuredOrder.idxOf t) ||
        (whileLoop.dominatorsBy whileLoop.structuredTargets).dominates t s)) = true := by cbv
  have hret : whileLoop.ReturnsToDominators := by
    intro s hs t ht hle
    have hst := List.all_eq_true.mp (List.all_eq_true.mp hback s hs) t ht
    rw [Bool.or_eq_true, decide_eq_true_eq] at hst
    exact (dominates_dominatorsBy_iff hco).mp (hst.resolve_left (Nat.not_lt.mpr hle))
  have hordinary := (dominates_dominatorsBy_iff hco).mp hdom
  refine ⟨hco, hret, hordinary, fun h => ?_, ?_⟩
  · rw [(dominates_dominatorsBy_iff hco).mpr h] at hnot
    cases hnot
  · exact (structured_order_respects_dominance hco).2.2.2.2.2 hret _ _ (by decide) hordinary

end Function
end ShaderIR
