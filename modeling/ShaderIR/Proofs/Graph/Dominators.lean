import ShaderIR.Proofs.Graph.Parents
import ShaderIR.Proofs.Graph.Traversal

/-!
# Dominators of a graph

The dominator tree numbers the nodes by their place in the reverse post-order.  The numbers fit the
edges, since every node but the root stands behind a predecessor, so what `Parents` proves about
numbered graphs carries over: the tree answers exactly for path dominance and for reachability.

* `DominatorTree.dominates_ofGraph_iff`, `DominatorTree.isReachable_ofGraph_iff`;
* `DominatorTree.idom?_ofGraph_eq_some_iff`: the parent of a node is its nearest strict dominator;
* `DominatorTree.ofPredecessors?_eq`: the lists of predecessors may come in any order.
-/

namespace ShaderIR.Graph

variable {α : Type} [DecidableEq α]

/-! ## 1. Places in a list without repetitions -/

theorem idxOf?_eq_some_iff_getElem? {l : List α} (hl : l.Nodup) {a : α} {i : Nat} :
    l.idxOf? a = some i ↔ l[i]? = some a := by
  rw [List.idxOf?_eq_some_iff, List.getElem?_eq_some_iff]
  refine exists_congr (fun hi => and_iff_left_of_imp ?_)
  rintro rfl j hji he
  have := (List.Nodup.getElem_inj_iff hl).mp he
  omega

theorem getElem?_inj_of_nodup {l : List α} (hl : l.Nodup) {i j : Nat} {a : α}
    (hi : l[i]? = some a) (hj : l[j]? = some a) : i = j :=
  Option.some.inj (((idxOf?_eq_some_iff_getElem? hl).mpr hi).symm.trans
    ((idxOf?_eq_some_iff_getElem? hl).mpr hj))

variable {next : α → List α} {order : List α}

/-- The predecessors of a place are the places of nodes that lead to its node. -/
theorem mem_predecessorTable (horder : order.Nodup) {i p : Nat} :
    p ∈ (predecessorTable next order)[i]?.getD [] ↔
      ∃ a b, order[p]? = some a ∧ order[i]? = some b ∧ b ∈ next a := by
  by_cases hi : i < order.length
  · have hrow : (predecessorTable next order)[i]?.getD [] =
        (List.range order.length).filter (fun p =>
          ((order[p]?.map (fun a => (next a).filterMap (fun b => order.idxOf? b))).getD
            []).contains i) := by
      simp [predecessorTable, hi]
    rw [hrow, List.mem_filter, List.mem_range, List.contains_iff_mem]
    constructor
    · rintro ⟨hp, hmem⟩
      rw [List.getElem?_eq_getElem hp, Option.map_some, Option.getD_some, List.mem_filterMap] at hmem
      obtain ⟨b, hb, hbi⟩ := hmem
      exact ⟨order[p], b, List.getElem?_eq_getElem hp, (idxOf?_eq_some_iff_getElem? horder).mp hbi,
        hb⟩
    · rintro ⟨a, b, ha, hb, hab⟩
      refine ⟨(List.getElem?_eq_some_iff.mp ha).1, ?_⟩
      rw [ha, Option.map_some, Option.getD_some, List.mem_filterMap]
      exact ⟨b, hab, (idxOf?_eq_some_iff_getElem? horder).mpr hb⟩
  · refine iff_of_false ?_ ?_
    · simp [predecessorTable, hi]
    · rintro ⟨a, b, -, hb, -⟩
      exact hi (List.getElem?_eq_some_iff.mp hb).1

/-! ## 2. The order as a numbering -/

section Order

variable {nodes : List α} {root : α}

/-- The predecessors of a place in the order from the root. -/
def placePredecessors (next : α → List α) (nodes : List α) (root : α) (i : Nat) : List Nat :=
  (predecessorTable next (reversePostorder next nodes root))[i]?.getD []

/-- The edges between places. -/
def PlaceFlow (next : α → List α) (nodes : List α) (root : α) : Nat → Nat → Prop :=
  Parents.Flow (placePredecessors next nodes root) (reversePostorder next nodes root).length

variable (hc : Closed next nodes) (hnodes : nodes.Nodup) (hroot : root ∈ nodes)

theorem getElem?_zero_reversePostorder : (reversePostorder next nodes root)[0]? = some root := by
  rw [← List.head?_eq_getElem?]
  exact head?_reversePostorder

include hnodes in
theorem numbered_placePredecessors :
    Parents.Numbered (placePredecessors next nodes root)
      (reversePostorder next nodes root).length where
  lt := by
    intro i q hq
    obtain ⟨a, b, ha, -⟩ := (mem_predecessorTable (nodup_reversePostorder hnodes)).mp hq
    exact (List.getElem?_eq_some_iff.mp ha).1
  earlier := by
    intro i hi hlt
    have hnd : (reversePostorder next nodes root).Nodup := nodup_reversePostorder hnodes
    have hsplit := (List.take_append_drop i (reversePostorder next nodes root)).symm
    rw [List.drop_eq_getElem_cons hlt] at hsplit
    have hne : (reversePostorder next nodes root)[i] ≠ root := by
      intro he
      have hroot : (reversePostorder next nodes root)[i]? = some root := by
        rw [List.getElem?_eq_getElem hlt, he]
      have := getElem?_inj_of_nodup hnd hroot getElem?_zero_reversePostorder
      omega
    obtain ⟨a, ha, hba⟩ := exists_earlier_predecessor hsplit hne
    obtain ⟨q, hq, haq⟩ := List.mem_take_iff_getElem.mp ha
    refine ⟨q, (mem_predecessorTable hnd).mpr ⟨a, _, ?_, List.getElem?_eq_getElem hlt, hba⟩, ?_⟩
    · rw [← haq]
      exact List.getElem?_eq_getElem (by omega)
    · omega

include hc hnodes hroot in
/-- A trail through the graph is a trail through the places. -/
theorem placeTrail_of_trail {a : α} {p : List α} (h : Trail (fun x y => y ∈ next x) root a p)
    {i : Nat} (hi : (reversePostorder next nodes root)[i]? = some a) :
    ∃ t, Trail (PlaceFlow next nodes root) 0 i t ∧
      ∀ j ∈ t, ∃ x ∈ p, (reversePostorder next nodes root)[j]? = some x := by
  have hnd : (reversePostorder next nodes root).Nodup := nodup_reversePostorder hnodes
  induction h generalizing i with
  | start =>
    obtain rfl := getElem?_inj_of_nodup hnd hi getElem?_zero_reversePostorder
    exact ⟨[0], .start, by simpa using hi⟩
  | @step a b p hp hab ih =>
    have ha := (mem_reversePostorder_iff hc hnodes hroot).mpr ⟨p, hp⟩
    obtain ⟨q, hq⟩ := List.mem_iff_getElem?.mp ha
    obtain ⟨t, ht, hmem⟩ := ih hq
    refine ⟨i :: t, .step ht ⟨(List.getElem?_eq_some_iff.mp hi).1,
      (mem_predecessorTable hnd).mpr ⟨a, b, hq, hi, hab⟩⟩, ?_⟩
    intro j hj
    rcases List.mem_cons.mp hj with rfl | hj
    · exact ⟨b, by simp, hi⟩
    · obtain ⟨x, hx, hjx⟩ := hmem j hj
      exact ⟨x, List.mem_cons_of_mem _ hx, hjx⟩

include hnodes in
/-- A trail through the places is a trail through the graph. -/
theorem trail_of_placeTrail {i : Nat} {t : List Nat} (h : Trail (PlaceFlow next nodes root) 0 i t)
    {a : α} (hi : (reversePostorder next nodes root)[i]? = some a) :
    ∃ p, Trail (fun x y => y ∈ next x) root a p ∧
      ∀ x ∈ p, ∃ j ∈ t, (reversePostorder next nodes root)[j]? = some x := by
  have hnd : (reversePostorder next nodes root).Nodup := nodup_reversePostorder hnodes
  induction h generalizing a with
  | start =>
    rw [getElem?_zero_reversePostorder] at hi
    obtain rfl := Option.some.inj hi
    exact ⟨[root], .start, by simpa using getElem?_zero_reversePostorder⟩
  | @step q i t ht hqi ih =>
    obtain ⟨c, b, hqc, hib, hcb⟩ := (mem_predecessorTable hnd).mp hqi.2
    rw [hib] at hi
    obtain rfl := Option.some.inj hi
    obtain ⟨p, hp, hmem⟩ := ih hqc
    refine ⟨b :: p, .step hp hcb, ?_⟩
    intro x hx
    rcases List.mem_cons.mp hx with rfl | hx
    · exact ⟨i, by simp, hib⟩
    · obtain ⟨j, hj, hjx⟩ := hmem x hx
      exact ⟨j, List.mem_cons_of_mem _ hj, hjx⟩

include hc hnodes hroot in
theorem dominates_place_iff {i j : Nat} {a d : α}
    (hi : (reversePostorder next nodes root)[i]? = some a)
    (hj : (reversePostorder next nodes root)[j]? = some d) :
    Dominates (PlaceFlow next nodes root) 0 j i ↔
      Dominates (fun x y => y ∈ next x) root d a := by
  have hnd : (reversePostorder next nodes root).Nodup := nodup_reversePostorder hnodes
  constructor
  · rintro ⟨⟨t, ht⟩, hdom⟩
    obtain ⟨p, hp, -⟩ := trail_of_placeTrail hnodes ht hi
    refine ⟨⟨p, hp⟩, fun p' hp' => ?_⟩
    obtain ⟨t', ht', hmem⟩ := placeTrail_of_trail hc hnodes hroot hp' hi
    obtain ⟨x, hx, hjx⟩ := hmem j (hdom t' ht')
    rw [hj] at hjx
    exact Option.some.inj hjx ▸ hx
  · rintro ⟨⟨p, hp⟩, hdom⟩
    obtain ⟨t, ht, -⟩ := placeTrail_of_trail hc hnodes hroot hp hi
    refine ⟨⟨t, ht⟩, fun t' ht' => ?_⟩
    obtain ⟨p', hp', hmem⟩ := trail_of_placeTrail hnodes ht' hi
    obtain ⟨k, hk, hkd⟩ := hmem d (hdom p' hp')
    exact getElem?_inj_of_nodup hnd hkd hj ▸ hk

/-! ## 3. The dominator tree -/

namespace DominatorTree

theorem ofGraph_eq {up : Parents} (hup : immediate? (placePredecessors next nodes root)
    (reversePostorder next nodes root).length = some up) :
    ofGraph next nodes root = ⟨reversePostorder next nodes root, up⟩ := by
  have htable : immediate?
      (fun i => (predecessorTable next (reversePostorder next nodes root))[i]?.getD [])
      (reversePostorder next nodes root).length = some up := hup
  simp [ofGraph, htable]

include hnodes in
/-- The tree of a graph: its order is the reverse post-order, all places are placed, and the
ancestors of a place are its dominators. -/
theorem ofGraph_spec (next : α → List α) (root : α) :
    (ofGraph next nodes root).order = reversePostorder next nodes root ∧
      Parents.IsTree (ofGraph next nodes root).parents (reversePostorder next nodes root).length ∧
      ∀ i, i < (reversePostorder next nodes root).length →
        Parents.Placed (ofGraph next nodes root).parents i ∧
        ∀ j, Parents.Anc (ofGraph next nodes root).parents j i ↔
          Dominates (PlaceFlow next nodes root) 0 j i := by
  have hnum : Parents.Numbered (placePredecessors next nodes root)
      (reversePostorder next nodes root).length := numbered_placePredecessors hnodes
  obtain ⟨up, hup, htree, hplaced, hanc⟩ := Parents.immediate?_spec hnum
  rw [ofGraph_eq hup]
  exact ⟨rfl, htree, fun i hi => ⟨hplaced i hi, fun j => hanc i j hi⟩⟩

/-- A node has an immediate dominator if its place hangs under an earlier one. -/
theorem idom?_eq_some_iff {t : DominatorTree α} (ht : t.order.Nodup) {a d : α} :
    t.idom? a = some d ↔
      ∃ i p, t.order[i]? = some a ∧ t.order[p]? = some d ∧ t.parents.parent? i = some p ∧ p < i := by
  simp only [idom?, Option.bind_eq_bind, Option.bind_eq_some_iff, Option.ite_none_right_eq_some,
    idxOf?_eq_some_iff_getElem? ht]
  constructor
  · rintro ⟨i, hi, p, hp, hpi, hd⟩
    exact ⟨i, p, hi, hd, hp, hpi⟩
  · rintro ⟨i, p, hi, hd, hp, hpi⟩
    exact ⟨i, hi, p, hp, hpi, hd⟩

include hnodes in
theorem nodup_order_ofGraph : (ofGraph next nodes root).order.Nodup := nodup_reversePostorder hnodes

include hnodes in
theorem exists_idom? {a : α} (ha : a ∈ reversePostorder next nodes root) (hne : a ≠ root) :
    ∃ d, (ofGraph next nodes root).idom? a = some d := by
  obtain ⟨horder, htree, hspec⟩ := ofGraph_spec hnodes next root
  obtain ⟨i, hi⟩ := List.mem_iff_getElem?.mp ha
  have hlt := (List.getElem?_eq_some_iff.mp hi).1
  have hpos : i ≠ 0 := by
    rintro rfl
    rw [getElem?_zero_reversePostorder] at hi
    exact hne (Option.some.inj hi).symm
  obtain ⟨p, hp⟩ := Option.isSome_iff_exists.mp (hspec i hlt).1
  have hpi := (htree.parent hp (by omega)).1
  have hd := List.getElem?_eq_getElem (l := reversePostorder next nodes root) (i := p) (by omega)
  exact ⟨_, (idom?_eq_some_iff (nodup_order_ofGraph hnodes)).mpr ⟨i, p, hi, hd, hp, hpi⟩⟩

include hnodes in
theorem mem_of_idom? {a d : α} (h : (ofGraph next nodes root).idom? a = some d) :
    a ∈ reversePostorder next nodes root ∧ a ≠ root := by
  obtain ⟨i, p, hi, -, -, hpi⟩ := (idom?_eq_some_iff (nodup_order_ofGraph hnodes)).mp h
  refine ⟨List.mem_of_getElem? hi, ?_⟩
  rintro rfl
  have := getElem?_inj_of_nodup (nodup_reversePostorder hnodes) hi getElem?_zero_reversePostorder
  omega

include hc hnodes hroot in
theorem isReachable_ofGraph_iff {a : α} :
    (ofGraph next nodes root).isReachable a = true ↔ Reaches (fun x y => y ∈ next x) root a := by
  have hhead : (ofGraph next nodes root).order.head? = some root := head?_reversePostorder
  rw [← mem_reversePostorder_iff hc hnodes hroot, isReachable, hhead]
  simp only [Option.some.injEq, Bool.or_eq_true, decide_eq_true_eq, Option.isSome_iff_exists]
  constructor
  · rintro (rfl | ⟨d, hd⟩)
    · exact root_mem_reversePostorder
    · exact (mem_of_idom? hnodes hd).1
  · intro ha
    by_cases he : root = a
    · exact .inl he
    · exact .inr (exists_idom? hnodes ha (fun h => he h.symm))

include hc hnodes hroot in
/-- The places of two nodes are related in the tree as the nodes are in the graph. -/
theorem anc_ofGraph_iff {i j : Nat} {a d : α}
    (hi : (reversePostorder next nodes root)[i]? = some a)
    (hj : (reversePostorder next nodes root)[j]? = some d) :
    Parents.Anc (ofGraph next nodes root).parents j i ↔
      Dominates (fun x y => y ∈ next x) root d a := by
  rw [((ofGraph_spec hnodes next root).2.2 i (List.getElem?_eq_some_iff.mp hi).1).2 j]
  exact dominates_place_iff hc hnodes hroot hi hj

include hc hnodes hroot in
theorem exists_place {a : α} (ha : Reaches (fun x y => y ∈ next x) root a) :
    ∃ i : Nat, (reversePostorder next nodes root)[i]? = some a :=
  List.mem_iff_getElem?.mp ((mem_reversePostorder_iff hc hnodes hroot).mpr ha)

include hc hnodes hroot in
theorem strictlyDominates_ofGraph_iff {d a : α} :
    (ofGraph next nodes root).strictlyDominates d a = true ↔
      Dominates (fun x y => y ∈ next x) root d a ∧ d ≠ a := by
  have hnd : (reversePostorder next nodes root).Nodup := nodup_reversePostorder hnodes
  have horder : (ofGraph next nodes root).order = reversePostorder next nodes root := rfl
  unfold strictlyDominates
  rw [horder]
  constructor
  · intro h
    split at h
    · rename_i i j hi hj
      rw [idxOf?_eq_some_iff_getElem? hnd] at hi hj
      rw [List.contains_iff_mem, Parents.mem_ancestors] at h
      refine ⟨(anc_ofGraph_iff hc hnodes hroot hi hj).mp h.1, ?_⟩
      rintro rfl
      exact h.2 (getElem?_inj_of_nodup hnd hj hi)
    · cases h
  · rintro ⟨hdom, hne⟩
    obtain ⟨i, hi⟩ := exists_place hc hnodes hroot hdom.1
    obtain ⟨j, hj⟩ := exists_place hc hnodes hroot hdom.reaches_left
    rw [(idxOf?_eq_some_iff_getElem? hnd).mpr hi, (idxOf?_eq_some_iff_getElem? hnd).mpr hj]
    simp only [List.contains_iff_mem]
    rw [Parents.mem_ancestors]
    refine ⟨(anc_ofGraph_iff hc hnodes hroot hi hj).mpr hdom, ?_⟩
    rintro rfl
    rw [hi] at hj
    exact hne (Option.some.inj hj).symm

include hc hnodes hroot in
/-- **The tree answers for path dominance.** -/
theorem dominates_ofGraph_iff {d a : α} :
    (ofGraph next nodes root).dominates d a = true ↔
      Dominates (fun x y => y ∈ next x) root d a := by
  rw [dominates, Bool.or_eq_true, strictlyDominates_ofGraph_iff hc hnodes hroot, Bool.and_eq_true,
    decide_eq_true_eq, isReachable_ofGraph_iff hc hnodes hroot]
  constructor
  · rintro (⟨rfl, ha⟩ | ⟨h, -⟩)
    · exact .refl ha
    · exact h
  · intro h
    by_cases he : a = d
    · exact .inl ⟨he, h.1⟩
    · exact .inr ⟨h, fun hd => he hd.symm⟩

include hc hnodes hroot in
theorem idom?_ofGraph_eq_none_iff {a : α} :
    (ofGraph next nodes root).idom? a = none ↔
      a = root ∨ ¬ Reaches (fun x y => y ∈ next x) root a := by
  rw [← mem_reversePostorder_iff hc hnodes hroot]
  constructor
  · intro h
    by_contra hcon
    rw [not_or, not_not] at hcon
    obtain ⟨d, hd⟩ := exists_idom? hnodes hcon.2 hcon.1
    rw [h] at hd
    cases hd
  · intro h
    cases hd : (ofGraph next nodes root).idom? a with
    | none => rfl
    | some d => exact absurd h (not_or.mpr ⟨(mem_of_idom? hnodes hd).2,
        not_not.mpr (mem_of_idom? hnodes hd).1⟩)

include hc hnodes hroot in
/-- An immediate dominator is a strict dominator, and all others dominate it. -/
theorem dominates_of_idom? {a d : α} (h : (ofGraph next nodes root).idom? a = some d) :
    Dominates (fun x y => y ∈ next x) root d a ∧ d ≠ a ∧
      ∀ c, Dominates (fun x y => y ∈ next x) root c a → c ≠ a →
        Dominates (fun x y => y ∈ next x) root c d := by
  have hnd : (reversePostorder next nodes root).Nodup := nodup_reversePostorder hnodes
  obtain ⟨i, p, hi, hd, hp, hpi⟩ := (idom?_eq_some_iff (nodup_order_ofGraph hnodes)).mp h
  refine ⟨(anc_ofGraph_iff hc hnodes hroot hi hd).mp (.above hp hpi .refl), ?_, ?_⟩
  · rintro rfl
    have := getElem?_inj_of_nodup hnd hi hd
    omega
  · intro c hca hne
    obtain ⟨j, hj⟩ := exists_place hc hnodes hroot hca.reaches_left
    have hji := (anc_ofGraph_iff hc hnodes hroot hi hj).mpr hca
    have hlt : j < i := by
      refine Nat.lt_of_le_of_ne hji.le (fun he => ?_)
      subst he
      exact hne (Option.some.inj (hj.symm.trans hi))
    exact (anc_ofGraph_iff hc hnodes hroot hd hj).mp (hji.of_lt hp hlt)

include hc hnodes hroot in
/-- **The parent of a node is its nearest strict dominator.** -/
theorem idom?_ofGraph_eq_some_iff {a d : α} :
    (ofGraph next nodes root).idom? a = some d ↔
      Dominates (fun x y => y ∈ next x) root d a ∧ d ≠ a ∧
        ∀ c, Dominates (fun x y => y ∈ next x) root c a → c ≠ a →
          Dominates (fun x y => y ∈ next x) root c d := by
  refine ⟨dominates_of_idom? hc hnodes hroot, ?_⟩
  rintro ⟨hda, hne, hnearest⟩
  have hra : a ≠ root := by
    rintro rfl
    exact hne hda.eq_root
  obtain ⟨d', hd'⟩ := exists_idom? hnodes
    ((mem_reversePostorder_iff hc hnodes hroot).mpr hda.reaches) hra
  obtain ⟨hda', hne', hnearest'⟩ := dominates_of_idom? hc hnodes hroot hd'
  rw [hd', (hnearest' d hda hne).antisymm (hnearest d' hda' hne')]

/-! ## 4. Predecessors in any order -/

/-- The tree over an order of the nodes when the predecessors of each node are given as a list;
`none` if a sweep fails or the rounds run out. -/
def ofPredecessors? (order : List α) (preds : α → List α) : Option (DominatorTree α) :=
  (immediate? (fun i => ((order[i]?.map preds).getD []).filterMap (fun a => order.idxOf? a))
    order.length).map (DominatorTree.mk order)

/-- The places of the listed predecessors of each place. -/
def listedPlaces (order : List α) (preds : α → List α) (i : Nat) : List Nat :=
  ((order[i]?.map preds).getD []).filterMap (fun a => order.idxOf? a)

theorem ofPredecessors?_eq_map (order : List α) (preds : α → List α) :
    ofPredecessors? order preds =
      (immediate? (listedPlaces order preds) order.length).map (DominatorTree.mk order) := rfl

section Listed

variable {preds : α → List α}
  (hpreds : ∀ a b, a ∈ preds b ↔ a ∈ reversePostorder next nodes root ∧ b ∈ next a)

include hnodes hpreds

theorem mem_listedPlaces (i q : Nat) :
    q ∈ listedPlaces (reversePostorder next nodes root) preds i ↔
      q ∈ placePredecessors next nodes root i := by
  have hnd : (reversePostorder next nodes root).Nodup := nodup_reversePostorder hnodes
  rw [placePredecessors, mem_predecessorTable hnd, listedPlaces, List.mem_filterMap]
  simp only [idxOf?_eq_some_iff_getElem? hnd]
  cases hi : (reversePostorder next nodes root)[i]? with
  | none => simp
  | some b =>
    simp only [Option.map_some, Option.getD_some, hpreds]
    constructor
    · rintro ⟨a, ⟨-, hab⟩, hq⟩
      exact ⟨a, b, hq, rfl, hab⟩
    · rintro ⟨a, b', hq, hb', hab⟩
      obtain rfl := Option.some.inj hb'
      exact ⟨a, ⟨List.mem_of_getElem? hq, hab⟩, hq⟩

theorem numbered_listedPlaces :
    Parents.Numbered (listedPlaces (reversePostorder next nodes root) preds)
      (reversePostorder next nodes root).length :=
  (numbered_placePredecessors hnodes).congr (mem_listedPlaces hnodes hpreds)

/-- **In which order the predecessors are listed, and how often, makes no difference,** and the
sweeps come to an end in any case. -/
theorem ofPredecessors?_eq :
    ofPredecessors? (reversePostorder next nodes root) preds = some (ofGraph next nodes root) := by
  have hnum : Parents.Numbered (placePredecessors next nodes root)
      (reversePostorder next nodes root).length := numbered_placePredecessors hnodes
  obtain ⟨up, hup, -⟩ := Parents.immediate?_spec hnum
  rw [ofGraph_eq hup, ofPredecessors?_eq_map,
    Parents.immediate?_congr hnum (mem_listedPlaces hnodes hpreds), hup]
  rfl

end Listed

end DominatorTree

end Order

end ShaderIR.Graph
