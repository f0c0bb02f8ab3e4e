import ShaderIR.Dominance
import ShaderIR.FlowGraph
import ShaderIR.Proofs.Function.Editing
import ShaderIR.Proofs.Graph.Dominators
import ShaderIR.Proofs.KeySet

/-!
# The flow of control in a function

Which blocks follow a block, which can be reached from the entry and which dominate which is said
here without the traversals, over an arbitrary choice of branch targets.  The computed sets, trees
and graphs are then shown to answer for these relations.

* `contains_reachableBy_iff`: the computed set of reachable blocks;
* `isReachable_dominatorsBy_iff`, `dominates_dominatorsBy_iff`: the computed dominators;
* `FlowGraph.predecessors_ofFunction`, `FlowGraph.successors_ofFunction`: the computed neighbours;
* `mem_structuredOrder_iff`, `mem_structuredOrder`: the blocks of the structured order.
-/

namespace ShaderIR

namespace Function

variable {f g : Function} {targets targets' : BlockKey → List Id} {a b d : BlockKey}

/-! ## 1. Reachability and dominance over given targets -/

/-- Control can get from the entry to the block over the given targets. -/
def ReachedBy (f : Function) (targets : BlockKey → List Id) (b : BlockKey) : Prop :=
  ∃ e, f.entry? = some e ∧ Graph.Reaches (fun x y => y ∈ f.successorsBy targets x) e b

/-- Control can get to the block over the given targets, and only through `d`. -/
def DominatedBy (f : Function) (targets : BlockKey → List Id) (d b : BlockKey) : Prop :=
  ∃ e, f.entry? = some e ∧ Graph.Dominates (fun x y => y ∈ f.successorsBy targets x) e d b

/-- Control can get from the entry to the block. -/
def Reached (f : Function) (b : BlockKey) : Prop := f.ReachedBy f.targets b

theorem ReachedBy.entry {e : BlockKey} (he : f.entry? = some e) : f.ReachedBy targets e :=
  ⟨e, he, .start⟩

theorem ReachedBy.step (ha : f.ReachedBy targets a) (hb : b ∈ f.resolve (targets a)) :
    f.ReachedBy targets b := by
  obtain ⟨e, he, ha⟩ := ha
  exact ⟨e, he, ha.step hb⟩

/-- What holds of the entry and is handed on along branches holds of every reachable block. -/
theorem ReachedBy.induct {P : BlockKey → Prop} (hentry : ∀ e, f.entry? = some e → P e)
    (hstep : ∀ a b, f.ReachedBy targets a → P a → b ∈ f.resolve (targets a) → P b)
    (hb : f.ReachedBy targets b) : P b := by
  obtain ⟨e, he, hb⟩ := hb
  exact Graph.Reaches.induct (hentry e he) (fun a b ha => hstep a b ⟨e, he, ha⟩) hb

theorem ReachedBy.mem_layout (hf : f.Coherent) (hb : f.ReachedBy targets b) : b ∈ f.layout := by
  refine hb.induct (fun e he => List.mem_of_mem_head? he) (fun a b _ _ hab => ?_)
  obtain ⟨l, -, hl⟩ := mem_resolve.mp hab
  exact (hf.indexed l b hl).1

/-- More targets at the reachable blocks reach no less. -/
theorem ReachedBy.mono
    (hsub : ∀ a, f.ReachedBy targets a → ∀ b ∈ f.resolve (targets a), b ∈ f.resolve (targets' a))
    (hb : f.ReachedBy targets b) : f.ReachedBy targets' b :=
  hb.induct (fun _ he => .entry he) (fun a b ha ha' hab => ha'.step (hsub a ha b hab))

theorem DominatedBy.refl (hb : f.ReachedBy targets b) : f.DominatedBy targets b b := by
  obtain ⟨e, he, hb⟩ := hb
  exact ⟨e, he, .refl hb⟩

theorem DominatedBy.trans {c : BlockKey} (hab : f.DominatedBy targets a b)
    (hbc : f.DominatedBy targets b c) : f.DominatedBy targets a c := by
  obtain ⟨e, he, hab⟩ := hab
  obtain ⟨e', he', hbc⟩ := hbc
  obtain rfl := Option.some.inj (he'.symm.trans he)
  exact ⟨e', he', hab.trans hbc⟩

/-- What dominates the end of an edge, the end itself apart, dominates its start. -/
theorem DominatedBy.of_edge (hdb : f.DominatedBy targets d b) (hne : d ≠ b)
    (ha : f.ReachedBy targets a) (hab : b ∈ f.resolve (targets a)) : f.DominatedBy targets d a := by
  obtain ⟨e, he, hdb⟩ := hdb
  obtain ⟨e', he', ha⟩ := ha
  obtain rfl := Option.some.inj (he'.symm.trans he)
  exact ⟨e', he', hdb.of_edge hne ha hab⟩

theorem DominatedBy.mono
    (hsub : ∀ a, f.ReachedBy targets a → ∀ b ∈ f.resolve (targets a), b ∈ f.resolve (targets' a))
    (hdb : f.DominatedBy targets' d b) (hb : f.ReachedBy targets b) :
    f.DominatedBy targets d b := by
  obtain ⟨e, he, hdb⟩ := hdb
  obtain ⟨e', he', hb⟩ := hb
  rw [he] at he'
  cases he'
  exact ⟨e, he, hdb.mono (fun x y hx hxy => hsub x ⟨e, he, hx⟩ y hxy) hb⟩

/-- Targets that lead to the same blocks from every reachable block reach the same blocks. -/
theorem reachedBy_congr
    (h : ∀ a, f.ReachedBy targets a → ∀ b,
      b ∈ f.resolve (targets a) ↔ b ∈ f.resolve (targets' a)) (b : BlockKey) :
    f.ReachedBy targets b ↔ f.ReachedBy targets' b := by
  refine ⟨.mono (fun a ha b => (h a ha b).mp), fun hb => ?_⟩
  exact hb.induct (fun _ he => .entry he) (fun a b _ ha hab => ha.step ((h a ha b).mpr hab))

/-! ## 2. The computed sets and trees -/

theorem structuredOrder_of_entry {e : BlockKey} (he : f.entry? = some e) :
    f.structuredOrder =
      Graph.reversePostorder (f.successorsBy f.structuredTargets) f.layout e := by
  rw [structuredOrder, he]
  rfl

theorem mem_resolve_structuredTargets (hb : b ∈ f.resolve (f.targets a)) :
    b ∈ f.resolve (f.structuredTargets a) := by
  obtain ⟨l, hl, hlb⟩ := mem_resolve.mp hb
  refine mem_resolve.mpr ⟨l, ?_, hlb⟩
  unfold structuredTargets
  split
  · simp [hl]
  · exact hl

section Coherent

variable (hf : f.Coherent)
include hf

theorem Coherent.closed_successorsBy (targets : BlockKey → List Id) :
    Graph.Closed (f.successorsBy targets) f.layout := by
  intro a _ b hb
  obtain ⟨l, -, hl⟩ := mem_resolve.mp hb
  exact (hf.indexed l b hl).1

theorem contains_reachableBy_iff :
    (f.reachableBy targets).contains b = true ↔ f.ReachedBy targets b := by
  rw [reachableBy, KeySet.contains_insertAll, KeySet.contains_withCapacity, Bool.or_false,
    decide_eq_true_eq, ReachedBy]
  cases he : f.entry? with
  | none =>
    have hnone : Graph.search (f.successorsBy targets) f.layout [] = [] := by
      simp [Graph.search, Graph.visit]
    simp [hnone]
  | some e =>
    have hmem : e ∈ f.layout := List.mem_of_mem_head? he
    simp [Graph.mem_search_iff (hf.closed_successorsBy targets) hmem]

theorem mem_keys_reachableBy_iff : b ∈ (f.reachableBy targets).keys ↔ f.ReachedBy targets b := by
  rw [KeySet.mem_keys, contains_reachableBy_iff hf]

theorem contains_reachable_iff : f.reachable.contains b = true ↔ f.Reached b :=
  contains_reachableBy_iff hf

theorem isReachable_dominatorsBy_iff :
    (f.dominatorsBy targets).isReachable b = true ↔ f.ReachedBy targets b := by
  rw [dominatorsBy, ReachedBy]
  cases he : f.entry? with
  | none => simp [Graph.DominatorTree.isReachable, Graph.DominatorTree.idom?,
      Graph.DominatorTree.empty]
  | some e =>
    have hmem : e ∈ f.layout := List.mem_of_mem_head? he
    simp [Graph.DominatorTree.isReachable_ofGraph_iff (hf.closed_successorsBy targets) hf.nodup
      hmem]

theorem dominates_dominatorsBy_iff :
    (f.dominatorsBy targets).dominates d b = true ↔ f.DominatedBy targets d b := by
  rw [dominatorsBy, DominatedBy]
  cases he : f.entry? with
  | none => simp [Graph.DominatorTree.dominates, Graph.DominatorTree.isReachable,
      Graph.DominatorTree.strictlyDominates, Graph.DominatorTree.idom?,
      Graph.DominatorTree.empty]
  | some e =>
    have hmem : e ∈ f.layout := List.mem_of_mem_head? he
    simp [Graph.DominatorTree.dominates_ofGraph_iff (hf.closed_successorsBy targets) hf.nodup hmem]

theorem mem_structuredOrder_iff : b ∈ f.structuredOrder ↔ f.ReachedBy f.structuredTargets b := by
  rw [ReachedBy]
  cases he : f.entry? with
  | none => simp [structuredOrder, he]
  | some e =>
    have hmem : e ∈ f.layout := List.mem_of_mem_head? he
    rw [structuredOrder_of_entry he,
      Graph.mem_reversePostorder_iff (hf.closed_successorsBy f.structuredTargets) hf.nodup hmem]
    simp

/-- Structured successors include the successors, so the structured order has every block that can
be reached. -/
theorem mem_structuredOrder (hb : f.Reached b) : b ∈ f.structuredOrder :=
  (mem_structuredOrder_iff hf).mpr (hb.mono (fun _ _ _ => mem_resolve_structuredTargets))

theorem nodup_structuredOrder : f.structuredOrder.Nodup := by
  unfold structuredOrder
  split
  · exact Graph.nodup_reversePostorder hf.nodup
  · exact List.nodup_nil

theorem mem_layout_of_mem_structuredOrder (hb : b ∈ f.structuredOrder) : b ∈ f.layout :=
  ((mem_structuredOrder_iff hf).mp hb).mem_layout hf

end Coherent

/-! ## 3. Functions with the same frame -/

theorem SameFrame.successorsBy (hfg : SameFrame f g) (targets : BlockKey → List Id)
    (b : BlockKey) : g.successorsBy targets b = f.successorsBy targets b := hfg.resolve _

theorem SameFrame.reachedBy_iff (hfg : SameFrame f g) :
    g.ReachedBy targets b ↔ f.ReachedBy targets b := by
  simp only [ReachedBy, hfg.entry?, hfg.successorsBy]

theorem SameFrame.dominatedBy_iff (hfg : SameFrame f g) :
    g.DominatedBy targets d b ↔ f.DominatedBy targets d b := by
  simp only [DominatedBy, hfg.entry?, hfg.successorsBy]

end Function

/-! ## 4. Neighbours -/

namespace FlowGraph

variable {f : Function} {g : FlowGraph} {a b s t : BlockKey} {bs : List BlockKey}

theorem node_mk_insert (nodes : SortedMap BlockKey FlowNode) (n : FlowNode) (b c : BlockKey) :
    node ⟨nodes.insert b n⟩ c = if c = b then n else node ⟨nodes⟩ c := by
  simp only [node, SortedMap.get?_insert]
  split <;> rfl

theorem mem_addNew : a ∈ addNew b bs ↔ a ∈ bs ∨ a = b := by
  unfold addNew
  split
  · rename_i hb
    exact ⟨.inl, fun h => h.elim id (fun h => h ▸ hb)⟩
  · simp

theorem addNew_of_mem (hb : b ∈ bs) : addNew b bs = bs := if_pos hb

theorem eraseDups_concat (bs : List BlockKey) (b : BlockKey) :
    (bs ++ [b]).eraseDups = addNew b bs.eraseDups := by
  rw [List.eraseDups_append, addNew]
  by_cases hb : b ∈ bs <;> simp [List.removeAll, List.eraseDups_cons, hb]

/-- The list with further elements added to its end, those that it does not have. -/
def enterAll (bs new : List BlockKey) : List BlockKey := new.foldl (fun bs b => addNew b bs) bs

theorem enterAll_eraseDups (bs new : List BlockKey) :
    enterAll bs.eraseDups new = (bs ++ new).eraseDups := by
  induction new generalizing bs with
  | nil => simp [enterAll]
  | cons b new ih =>
    have hstep : enterAll bs.eraseDups (b :: new) = enterAll (bs ++ [b]).eraseDups new := by
      rw [eraseDups_concat]
      rfl
    rw [hstep, ih, List.append_assoc, List.singleton_append]

/-- Entering elements into an empty list keeps each where it is met first. -/
theorem enterAll_nil (new : List BlockKey) : enterAll [] new = new.eraseDups :=
  enterAll_eraseDups [] new

theorem mem_enterAll {new : List BlockKey} : a ∈ enterAll bs new ↔ a ∈ bs ∨ a ∈ new := by
  induction new generalizing bs with
  | nil => simp [enterAll]
  | cons b new ih =>
    have hstep : enterAll bs (b :: new) = enterAll (addNew b bs) new := rfl
    rw [hstep, ih, mem_addNew, List.mem_cons, or_assoc]

theorem enterAll_of_forall_mem {new : List BlockKey} (h : ∀ b ∈ new, b ∈ bs) :
    enterAll bs new = bs := by
  induction new with
  | nil => rfl
  | cons b new ih =>
    have hstep : enterAll bs (b :: new) = enterAll (addNew b bs) new := rfl
    rw [hstep, addNew_of_mem (h b (by simp)), ih (fun c hc => h c (by simp [hc]))]

theorem predecessors_addEdge (g : FlowGraph) (s t b : BlockKey) :
    (g.addEdge s t).predecessors b =
      if b = t then addNew s (g.predecessors b) else g.predecessors b := by
  by_cases hbt : b = t
  · subst hbt
    by_cases hbs : b = s
    · subst hbs
      simp [addEdge, predecessors, node_mk_insert]
    · simp [addEdge, predecessors, node_mk_insert, hbs]
  · by_cases hbs : b = s
    · subst hbs
      simp [addEdge, predecessors, node_mk_insert, hbt]
    · simp [addEdge, predecessors, node_mk_insert, hbt, hbs]

theorem successors_addEdge (g : FlowGraph) (s t a : BlockKey) :
    (g.addEdge s t).successors a =
      if a = s then addNew t (g.successors a) else g.successors a := by
  by_cases has : a = s
  · subst has
    by_cases hat : a = t
    · subst hat
      simp [addEdge, successors, node_mk_insert]
    · simp [addEdge, successors, node_mk_insert, hat]
  · by_cases hat : a = t
    · subst hat
      simp [addEdge, successors, node_mk_insert, has]
    · simp [addEdge, successors, node_mk_insert, has, hat]

/-- A block is entered once among the predecessors of a block, however often it branches to it. -/
theorem predecessors_addBlock (f : Function) (g : FlowGraph) (s b : BlockKey) :
    (addBlock f g s).predecessors b =
      if b ∈ f.resolve (f.targets s) then addNew s (g.predecessors b) else g.predecessors b := by
  unfold addBlock
  induction f.resolve (f.targets s) generalizing g with
  | nil => simp
  | cons t ts ih =>
    rw [List.foldl_cons, ih, predecessors_addEdge]
    have hagain : addNew s (addNew s (g.predecessors b)) = addNew s (g.predecessors b) :=
      addNew_of_mem (mem_addNew.mpr (.inr rfl))
    by_cases hbt : b = t
    · subst hbt
      simp [hagain]
    · simp [hbt]

theorem successors_addBlock (f : Function) (g : FlowGraph) (s a : BlockKey) :
    (addBlock f g s).successors a =
      if a = s then enterAll (g.successors a) (f.resolve (f.targets s)) else g.successors a := by
  unfold addBlock
  induction f.resolve (f.targets s) generalizing g with
  | nil => simp [enterAll]
  | cons t ts ih =>
    rw [List.foldl_cons, ih, successors_addEdge]
    by_cases has : a = s
    · simp only [has, if_true]
      rfl
    · simp only [has, if_false]

/-- **The predecessors of a block are the blocks of the layout that branch to it**, in order. -/
theorem predecessors_ofFunction (f : Function) (b : BlockKey) :
    (ofFunction f).predecessors b =
      (f.layout.filter (fun a => b ∈ f.resolve (f.targets a))).eraseDups := by
  have hfold : ∀ (bs : List BlockKey) (g : FlowGraph),
      (bs.foldl (addBlock f) g).predecessors b =
        enterAll (g.predecessors b) (bs.filter (fun a => b ∈ f.resolve (f.targets a))) := by
    intro bs
    induction bs with
    | nil => exact fun _ => rfl
    | cons s bs ih =>
      intro g
      rw [List.foldl_cons, ih, predecessors_addBlock]
      by_cases hs : b ∈ f.resolve (f.targets s)
      · simp only [hs, if_true, List.filter_cons, decide_true]
        rfl
      · simp only [hs, if_false, List.filter_cons, decide_false, Bool.false_eq_true]
  rw [ofFunction, hfold, ← enterAll_nil]
  rfl

/-- **The successors of a block of the layout are the blocks it branches to**, in operand order. -/
theorem successors_ofFunction (f : Function) (a : BlockKey) :
    (ofFunction f).successors a =
      if a ∈ f.layout then (f.resolve (f.targets a)).eraseDups else [] := by
  have hfold : ∀ (bs : List BlockKey) (g : FlowGraph),
      (bs.foldl (addBlock f) g).successors a =
        if a ∈ bs then enterAll (g.successors a) (f.resolve (f.targets a)) else g.successors a := by
    intro bs
    induction bs with
    | nil => simp
    | cons s bs ih =>
      intro g
      rw [List.foldl_cons, ih, successors_addBlock]
      by_cases has : a = s
      · subst has
        -- the second time there is nothing new to enter
        have hagain : enterAll (enterAll (g.successors a) (f.resolve (f.targets a)))
            (f.resolve (f.targets a)) = enterAll (g.successors a) (f.resolve (f.targets a)) :=
          enterAll_of_forall_mem (fun b hb => mem_enterAll.mpr (.inr hb))
        by_cases hbs : a ∈ bs <;> simp [hbs, hagain]
      · simp [has]
  rw [ofFunction, hfold, ← enterAll_nil]
  rfl

theorem mem_predecessors_iff :
    a ∈ (ofFunction f).predecessors b ↔ a ∈ f.layout ∧ b ∈ f.resolve (f.targets a) := by
  rw [predecessors_ofFunction, List.mem_eraseDups, List.mem_filter, decide_eq_true_eq]

theorem isPredecessor_iff :
    (ofFunction f).isPredecessor a b = true ↔ a ∈ f.layout ∧ b ∈ f.resolve (f.targets a) := by
  rw [isPredecessor, List.contains_iff_mem, mem_predecessors_iff]

theorem mem_successors_iff :
    b ∈ (ofFunction f).successors a ↔ a ∈ f.layout ∧ b ∈ f.resolve (f.targets a) := by
  rw [successors_ofFunction]
  split <;> simp [*]

end FlowGraph
end ShaderIR
