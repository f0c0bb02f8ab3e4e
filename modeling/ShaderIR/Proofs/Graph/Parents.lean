import Mathlib.Algebra.Order.BigOperators.Group.Finset
import ShaderIR.Graph.Dominators
import ShaderIR.Proofs.Graph.Paths

/-!
# Dominators of a numbered graph

The nodes are the numbers below `n`, the root is 0, and every other node has a predecessor with a
smaller number.  A sweep moves the nodes, one after the other, under the nearest common ancestor of
their placed predecessors.  This file proves that the sweeps come to an end, and that the tree they
end with has the dominators of a node as its ancestors.

The argument rests on what is known at every moment of a sweep (`Progress`):

* a placed node has not more common ancestors of its predecessors than it has ancestors, so that a
  move only ever goes up (`upper`);
* the parent of a node is an ancestor of one of its smaller predecessors, as long as the sweep has
  not touched the nodes in between (`supported`);
* no dominator is lost (`dominators`).

The second point is what the first and the third need when a node moves and takes its subtree with
it.
-/

namespace ShaderIR.Graph

namespace Parents

/-! ## 1. Ancestors -/

/-- `d` is `i` itself or an ancestor of it. -/
inductive Anc (up : Parents) (d : Nat) : Nat → Prop
  | refl : Anc up d d
  | above {i p : Nat} : up.parent? i = some p → p < i → Anc up d p → Anc up d i

/-- A node has a place in the tree. -/
def Placed (up : Parents) (i : Nat) : Prop := (up.parent? i).isSome

/-- A tree on some of the numbers below `n`: parents are smaller and placed. -/
structure IsTree (up : Parents) (n : Nat) : Prop where
  size : up.size = n
  root : 0 < n → up.parent? 0 = some 0
  parent : ∀ {i p : Nat}, up.parent? i = some p → 0 < i → p < i ∧ Placed up p

variable {up up' : Parents} {n c d e i p q : Nat}

theorem getElem?_of_parent? (hp : up.parent? i = some p) : up[i]? = some (some p) := by
  rw [Parents.parent?] at hp
  cases hup : up[i]? with
  | none => simp [hup] at hp
  | some entry => simpa [hup] using hp

theorem placed_of_parent? (hp : up.parent? i = some p) : Placed up i := by simp [Placed, hp]

theorem Anc.le (h : Anc up d i) : d ≤ i := by
  induction h with
  | refl => exact Nat.le_refl _
  | above _ hlt _ ih => omega

theorem Anc.trans (h₁ : Anc up d e) (h₂ : Anc up e i) : Anc up d i := by
  induction h₂ with
  | refl => exact h₁
  | above hp hlt _ ih => exact .above hp hlt ih

/-- A smaller ancestor of a node is an ancestor of its parent. -/
theorem Anc.of_lt (h : Anc up d i) (hp : up.parent? i = some p) (hlt : d < i) : Anc up d p := by
  cases h with
  | refl => omega
  | above hp' _ h =>
    rw [hp] at hp'
    obtain rfl : p = _ := Option.some.inj hp'
    exact h

/-- The ancestors of a node form a chain. -/
theorem Anc.comparable (hd : Anc up d i) (he : Anc up e i) (hle : d ≤ e) : Anc up d e := by
  induction he with
  | refl => exact hd
  | above hp hlt he ih =>
    have := he.le
    exact ih (hd.of_lt hp (by omega))

/-- The way from a node up to an ancestor can be read in any tree that agrees on it. -/
theorem Anc.congr (h : Anc up d i)
    (hsame : ∀ z, Anc up z i → d < z → up'.parent? z = up.parent? z) : Anc up' d i := by
  induction h with
  | refl => exact .refl
  | @above i p hp hlt hd ih =>
    have hdi : d < i := by have := hd.le; omega
    refine .above ((hsame i .refl hdi).trans hp) hlt (ih ?_)
    exact fun z hz hdz => hsame z (.above hp hlt hz) hdz

theorem mem_ancestors : d ∈ up.ancestors i ↔ Anc up d i ∧ d ≠ i := by
  fun_induction Parents.ancestors up i with
  | case1 i p hp hlt ih =>
    rw [List.mem_cons, ih]
    constructor
    · rintro (rfl | ⟨h, -⟩)
      · exact ⟨.above hp hlt .refl, by omega⟩
      · have := h.le
        exact ⟨.above hp hlt h, by omega⟩
    · rintro ⟨h, hne⟩
      have := h.le
      have hdp := h.of_lt hp (by omega)
      by_cases he : d = p
      · exact .inl he
      · exact .inr ⟨hdp, he⟩
  | case2 i p hp hlt =>
    refine iff_of_false (by simp) ?_
    rintro ⟨h, hne⟩
    cases h with
    | refl => exact hne rfl
    | above hp' hlt' _ => exact hlt (by rw [hp] at hp'; cases hp'; exact hlt')
  | case3 i hp =>
    refine iff_of_false (by simp) ?_
    rintro ⟨h, hne⟩
    cases h with
    | refl => exact hne rfl
    | above hp' _ _ => rw [hp] at hp'; cases hp'

/-! ## 2. Nearest common ancestors -/

/-- **The meet of two placed nodes exists, and its ancestors are the common ones.** -/
theorem meet?_spec (ht : IsTree up n) {a b : Nat} (ha : Placed up a) (hb : Placed up b) :
    ∃ c, up.meet? a b = some c ∧ Placed up c ∧ ∀ d, Anc up d c ↔ Anc up d a ∧ Anc up d b := by
  fun_induction Parents.meet? up a b with
  | case1 a => exact ⟨a, rfl, ha, fun d => (and_self_iff).symm⟩
  | case2 a b hne hlt p hp hpb ih =>
    obtain ⟨c, hc, hcp, hanc⟩ := ih ha (ht.parent hp (by omega)).2
    refine ⟨c, hc, hcp, fun d => (hanc d).trans ?_⟩
    refine and_congr_right (fun hda => ⟨fun h => .above hp hpb h, fun h => ?_⟩)
    exact h.of_lt hp (by have := hda.le; omega)
  | case3 a b hne hlt p hp hpb => exact absurd (ht.parent hp (by omega)).1 hpb
  | case4 a b hne hlt hp => simp [Placed, hp] at hb
  | case5 a b hne hlt p hp hpa ih =>
    obtain ⟨c, hc, hcp, hanc⟩ := ih (ht.parent hp (by omega)).2 hb
    refine ⟨c, hc, hcp, fun d => (hanc d).trans ?_⟩
    refine and_congr_left (fun hdb => ⟨fun h => .above hp hpa h, fun h => ?_⟩)
    exact h.of_lt hp (by have := hdb.le; omega)
  | case6 a b hne hlt p hp hpa => exact absurd (ht.parent hp (by omega)).1 hpa
  | case7 a b hne hlt hp => simp [Placed, hp] at ha

theorem foldlM_meet?_spec (ht : IsTree up n) {qs : List Nat} {a : Nat} (ha : Placed up a)
    (hqs : ∀ q ∈ qs, Placed up q) :
    ∃ c, qs.foldlM (fun d q => up.meet? q d) a = some c ∧ Placed up c ∧
      ∀ d, Anc up d c ↔ Anc up d a ∧ ∀ q ∈ qs, Anc up d q := by
  induction qs generalizing a with
  | nil => exact ⟨a, rfl, ha, by simp⟩
  | cons q qs ih =>
    obtain ⟨b, hb, hbp, hanc⟩ := meet?_spec ht (hqs q (by simp)) ha
    obtain ⟨c, hc, hcp, hanc'⟩ := ih hbp (fun r hr => hqs r (by simp [hr]))
    refine ⟨c, ?_, hcp, fun d => ?_⟩
    · simpa [List.foldlM_cons, hb] using hc
    · rw [hanc', hanc, List.forall_mem_cons]
      tauto

/-- **A node with a placed predecessor is moved under a node whose ancestors are those that the
placed predecessors have in common.** -/
theorem place?_spec (ht : IsTree up n) {preds : List Nat} (hq : q ∈ preds) (hqp : Placed up q) :
    ∃ p, up.place? preds = some (some p) ∧ Placed up p ∧
      ∀ d, Anc up d p ↔ ∀ r ∈ preds, Placed up r → Anc up d r := by
  unfold Parents.place?
  have hmem : ∀ r, r ∈ preds.filter (fun r => (up.parent? r).isSome) ↔ r ∈ preds ∧ Placed up r :=
    fun r => by simp [Placed]
  cases hf : preds.filter (fun r => (up.parent? r).isSome) with
  | nil =>
    have := (hmem q).mpr ⟨hq, hqp⟩
    simp [hf] at this
  | cons a qs =>
    simp only [hf, List.mem_cons] at hmem
    obtain ⟨p, hp, hpp, hanc⟩ := foldlM_meet?_spec ht ((hmem a).mp (.inl rfl)).2
      (fun r hr => ((hmem r).mp (.inr hr)).2)
    refine ⟨p, by simp [hp], hpp, fun d => (hanc d).trans ⟨?_, fun h => ⟨?_, ?_⟩⟩⟩
    · rintro ⟨ha, hqs⟩ r hr hrp
      rcases (hmem r).mpr ⟨hr, hrp⟩ with rfl | hr'
      · exact ha
      · exact hqs r hr'
    · have := (hmem a).mp (.inl rfl)
      exact h a this.1 this.2
    · intro r hr
      have := (hmem r).mp (.inr hr)
      exact h r this.1 this.2

/-! ## 3. Moving one node -/

theorem parent?_set (hc : c < up.size) (i : Nat) :
    parent? (up.setIfInBounds c (some p)) i = if i = c then some p else up.parent? i := by
  by_cases h : i = c
  · subst h
    simp [parent?, hc]
  · simp [parent?, h, Array.getElem?_setIfInBounds_ne (Ne.symm h)]

/-- The edges of the numbered graph. -/
def Flow (preds : Nat → List Nat) (n : Nat) (q i : Nat) : Prop := i < n ∧ q ∈ preds i

/-- The numbers fit the edges: every node but the root has a predecessor with a smaller number. -/
structure Numbered (preds : Nat → List Nat) (n : Nat) : Prop where
  lt : ∀ {i q : Nat}, q ∈ preds i → q < n
  earlier : ∀ {i : Nat}, 0 < i → i < n → ∃ q ∈ preds i, q < i

/-- What is known in the course of a sweep when the next node to be moved is `c`. -/
structure Progress (preds : Nat → List Nat) (n c : Nat) (up : Parents) : Prop where
  tree : IsTree up n
  placed : ∀ {i : Nat}, i < c → i < n → Placed up i
  upper : ∀ {j p : Nat}, 0 < j → up.parent? j = some p →
    ∀ x, (∀ q ∈ preds j, Placed up q → Anc up x q) → Anc up x p
  supported : ∀ {j p : Nat}, 0 < j → up.parent? j = some p → j < c ∨ c ≤ p →
    ∃ q ∈ preds j, q < j ∧ Placed up q ∧ Anc up p q
  dominators : ∀ {i d : Nat}, Placed up i → Dominates (Flow preds n) 0 d i → Anc up d i

variable {preds : Nat → List Nat}

theorem Numbered.reaches (hn : Numbered preds n) (hi : i < n) : Reaches (Flow preds n) 0 i := by
  induction i using Nat.strong_induction_on with
  | _ i ih =>
    by_cases h0 : i = 0
    · rw [h0]
      exact .start
    · obtain ⟨q, hq, hqi⟩ := hn.earlier (Nat.pos_of_ne_zero h0) hi
      exact (ih q hqi (by omega)).step ⟨hi, hq⟩

theorem IsTree.lt (ht : IsTree up n) (hi : Placed up i) : i < n := by
  have hsome : (up[i]?.getD none).isSome := hi
  rw [← ht.size]
  by_contra hge
  rw [Array.getElem?_eq_none (Nat.le_of_not_lt hge)] at hsome
  cases hsome

/-- From the node that is to be moved next, every node of its subtree can be reached over nodes
that are not smaller. -/
theorem Progress.exists_trail (h : Progress preds n c up) (hi : Placed up i) (hc : Anc up c i)
    {t : List Nat} (htr : Trail (Flow preds n) 0 c t) :
    ∃ s, Trail (Flow preds n) 0 i (s ++ t) ∧ ∀ x ∈ s, c ≤ x := by
  induction i using Nat.strong_induction_on with
  | _ i ih =>
    cases hc with
    | refl => exact ⟨[], htr, by simp⟩
    | @above _ p hp hlt hcp =>
      obtain ⟨q, hq, hqi, hqp, hpq⟩ := h.supported (by omega) hp (.inr hcp.le)
      obtain ⟨s, hs, hge⟩ := ih q hqi hqp (hcp.trans hpq)
      refine ⟨i :: s, .step hs ⟨h.tree.lt hi, hq⟩, ?_⟩
      intro x hx
      rcases List.mem_cons.mp hx with rfl | hx
      · have := hcp.le
        omega
      · exact hge x hx

/-- A smaller dominator of a node in the subtree of `c` dominates `c`. -/
theorem Progress.dominates_of_anc (hn : Numbered preds n) (h : Progress preds n c up) (hcn : c < n)
    (hi : Placed up i) (hc : Anc up c i) (hd : Dominates (Flow preds n) 0 d i) (hdc : d < c) :
    Dominates (Flow preds n) 0 d c := by
  refine ⟨hn.reaches hcn, fun t ht => ?_⟩
  obtain ⟨s, hs, hge⟩ := h.exists_trail hi hc ht
  rcases List.mem_append.mp (hd.2 _ hs) with hmem | hmem
  · have := hge d hmem
    omega
  · exact hmem

section Move

variable (hn : Numbered preds n) (h : Progress preds n c up) (hc : 0 < c) (hcn : c < n)
  (hpp : Placed up p) (hp : ∀ d, Anc up d p ↔ ∀ r ∈ preds c, Placed up r → Anc up d r)

include hn h hc hcn hp in
theorem Progress.place_lt : p < c := by
  obtain ⟨q, hq, hqc⟩ := hn.earlier hc hcn
  have := ((hp p).mp .refl q hq (h.placed hqc (by omega))).le
  omega

include h hc hp in
theorem Progress.place_anc {p₀ : Nat} (hp₀ : up.parent? c = some p₀) : Anc up p p₀ :=
  h.upper hc hp₀ p ((hp p).mp .refl)

include h hcn in
theorem Progress.parent?_move (i : Nat) :
    parent? (up.setIfInBounds c (some p)) i = if i = c then some p else up.parent? i :=
  parent?_set (by rw [h.tree.size]; exact hcn) i

include h hcn in
theorem Progress.placed_move :
    Placed (up.setIfInBounds c (some p)) i ↔ i = c ∨ Placed up i := by
  unfold Placed
  rw [h.parent?_move hcn]
  by_cases hi : i = c <;> simp [hi]

include h hcn in
/-- Below the moved node nothing changes. -/
theorem Progress.anc_move_of_lt (hi : i < c) :
    Anc (up.setIfInBounds c (some p)) d i ↔ Anc up d i := by
  constructor
  · intro hd
    refine hd.congr (fun z hz _ => ?_)
    rw [h.parent?_move hcn, if_neg (by have := hz.le; omega)]
  · intro hd
    refine hd.congr (fun z hz _ => ?_)
    rw [h.parent?_move hcn, if_neg (by have := hz.le; omega)]

include h hcn in
/-- Ancestors that are not smaller than the moved node stay. -/
theorem Progress.anc_move_of_le (hd : Anc up d i) (hcd : c ≤ d) :
    Anc (up.setIfInBounds c (some p)) d i := by
  refine hd.congr (fun z _ hz => ?_)
  rw [h.parent?_move hcn, if_neg (by omega)]

include h hcn in
/-- Outside the subtree of the moved node all ancestors stay. -/
theorem Progress.anc_move_of_not (hd : Anc up d i) (hci : ¬ Anc up c i) :
    Anc (up.setIfInBounds c (some p)) d i := by
  refine hd.congr (fun z hz _ => ?_)
  have hzc : z ≠ c := fun he => hci (he ▸ hz)
  rw [h.parent?_move hcn, if_neg hzc]

include h hc hcn hp in
/-- **A move adds no ancestors,** except to a node that had no place. -/
theorem Progress.anc_of_move (hd : Anc (up.setIfInBounds c (some p)) d i)
    (hi : i = c → Placed up c) : Anc up d i := by
  induction hd with
  | refl => exact .refl
  | @above i p₁ hp₁ hlt hd ih =>
    rw [h.parent?_move hcn] at hp₁
    by_cases hic : i = c
    · subst hic
      rw [if_pos rfl] at hp₁
      obtain rfl : p = p₁ := Option.some.inj hp₁
      obtain ⟨p₀, hp₀⟩ := Option.isSome_iff_exists.mp (hi rfl)
      have hdp := ih (fun he => absurd he (by omega))
      exact .above hp₀ (h.tree.parent hp₀ hc).1 (hdp.trans (h.place_anc hc hp hp₀))
    · rw [if_neg hic] at hp₁
      exact .above hp₁ hlt (ih (fun he => he ▸ (h.tree.parent hp₁ (by omega)).2))

include h hcn in
theorem Progress.placed_move_of_placed (hi : Placed up i) :
    Placed (up.setIfInBounds c (some p)) i := (h.placed_move hcn).mpr (.inr hi)

include h hcn in
theorem Progress.anc_move_self (hi : Anc up c i) : Anc (up.setIfInBounds c (some p)) c i :=
  h.anc_move_of_le hcn hi (Nat.le_refl c)

include hn h hc hcn hpp hp in
theorem Progress.isTree_move : IsTree (up.setIfInBounds c (some p)) n := by
  refine ⟨by simp [h.tree.size], ?_, ?_⟩
  · intro h0
    rw [h.parent?_move hcn, if_neg (by omega)]
    exact h.tree.root h0
  · intro i p₁ hp₁ hi
    rw [h.parent?_move hcn] at hp₁
    by_cases hic : i = c
    · rw [if_pos hic] at hp₁
      obtain rfl : p = p₁ := Option.some.inj hp₁
      exact ⟨hic ▸ h.place_lt hn hc hcn hp, h.placed_move_of_placed hcn hpp⟩
    · rw [if_neg hic] at hp₁
      obtain ⟨hlt, hplaced⟩ := h.tree.parent hp₁ hi
      exact ⟨hlt, h.placed_move_of_placed hcn hplaced⟩

include hn h hc hcn hp in
/-- A common ancestor of the predecessors of a node stays an ancestor of its parent. -/
theorem Progress.upper_move {j p₁ x : Nat} (hj : 0 < j)
    (hp₁ : parent? (up.setIfInBounds c (some p)) j = some p₁)
    (hx : ∀ q ∈ preds j, Placed (up.setIfInBounds c (some p)) q →
      Anc (up.setIfInBounds c (some p)) x q) : Anc (up.setIfInBounds c (some p)) x p₁ := by
  have hold : ∀ q ∈ preds j, Placed up q → Anc up x q := by
    intro q hq hqp
    exact h.anc_of_move hc hcn hp (hx q hq (h.placed_move_of_placed hcn hqp)) (fun he => he ▸ hqp)
  rw [h.parent?_move hcn] at hp₁
  by_cases hjc : j = c
  · subst hjc
    rw [if_pos rfl] at hp₁
    obtain rfl : p = p₁ := Option.some.inj hp₁
    exact (h.anc_move_of_lt hcn (h.place_lt hn hc hcn hp)).mpr ((hp x).mpr hold)
  · rw [if_neg hjc] at hp₁
    have hxp : Anc up x p₁ := h.upper hj hp₁ x hold
    by_cases hcp : Anc up c p₁
    · by_cases hcx : c ≤ x
      · exact h.anc_move_of_le hcn hxp hcx
      · -- the smaller predecessor below `p₁` moves along with `c`
        obtain ⟨q, hq, -, hqp, hpq⟩ := h.supported hj hp₁ (.inr hcp.le)
        have hxq := hx q hq (h.placed_move_of_placed hcn hqp)
        have hxc := hxq.comparable (h.anc_move_self hcn (hcp.trans hpq)) (by omega)
        exact hxc.trans (h.anc_move_self hcn hcp)
    · exact h.anc_move_of_not hcn hxp hcp

include hn h hc hcn hp in
/-- The parent of a node stays an ancestor of a smaller predecessor. -/
theorem Progress.supported_move {j p₁ : Nat} (hj : 0 < j)
    (hp₁ : parent? (up.setIfInBounds c (some p)) j = some p₁) (hside : j < c + 1 ∨ c + 1 ≤ p₁) :
    ∃ q ∈ preds j, q < j ∧ Placed (up.setIfInBounds c (some p)) q ∧
      Anc (up.setIfInBounds c (some p)) p₁ q := by
  rw [h.parent?_move hcn] at hp₁
  by_cases hjc : j = c
  · subst hjc
    rw [if_pos rfl] at hp₁
    obtain rfl : p = p₁ := Option.some.inj hp₁
    obtain ⟨q, hq, hqj⟩ := hn.earlier hc hcn
    have hqp := h.placed hqj (by omega)
    exact ⟨q, hq, hqj, h.placed_move_of_placed hcn hqp,
      (h.anc_move_of_lt hcn hqj).mpr ((hp p).mp .refl q hq hqp)⟩
  · rw [if_neg hjc] at hp₁
    obtain ⟨q, hq, hqj, hqp, hpq⟩ := h.supported hj hp₁ (by omega)
    refine ⟨q, hq, hqj, h.placed_move_of_placed hcn hqp, ?_⟩
    rcases hside with hlt | hge
    · exact (h.anc_move_of_lt hcn (by omega)).mpr hpq
    · exact h.anc_move_of_le hcn hpq (by omega)

include hn h hc hcn hp in
/-- The moved node keeps its dominators: they dominate all its predecessors. -/
theorem Progress.anc_move_of_dominates (hd : Dominates (Flow preds n) 0 d c) :
    Anc (up.setIfInBounds c (some p)) d c := by
  by_cases hdc : d = c
  · rw [hdc]
    exact .refl
  · have hdp : Anc up d p := by
      refine (hp d).mpr ?_
      intro r hr hrp
      exact h.dominators hrp (hd.of_edge hdc (hn.reaches (hn.lt hr)) ⟨hcn, hr⟩)
    have hpc := h.place_lt hn hc hcn hp
    exact .above (by rw [h.parent?_move hcn, if_pos rfl]) hpc ((h.anc_move_of_lt hcn hpc).mpr hdp)

include hn h hc hcn hp in
/-- No dominator is lost. -/
theorem Progress.dominators_move (hi : Placed (up.setIfInBounds c (some p)) i)
    (hd : Dominates (Flow preds n) 0 d i) : Anc (up.setIfInBounds c (some p)) d i := by
  by_cases hic : i = c
  · subst hic
    exact h.anc_move_of_dominates hn hc hcn hp hd
  · have hip := ((h.placed_move hcn).mp hi).resolve_left hic
    have hdi := h.dominators hip hd
    by_cases hci : Anc up c i
    · by_cases hcd : c ≤ d
      · exact h.anc_move_of_le hcn hdi hcd
      · have hdc := h.dominates_of_anc hn hcn hip hci hd (by omega)
        exact (h.anc_move_of_dominates hn hc hcn hp hdc).trans (h.anc_move_self hcn hci)
    · exact h.anc_move_of_not hcn hdi hci

include hn h hc hcn hpp hp in
/-- **The invariant of a sweep survives the move of a node.** -/
theorem Progress.move : Progress preds n (c + 1) (up.setIfInBounds c (some p)) where
  tree := h.isTree_move hn hc hcn hpp hp
  placed {i} hi hin := by
    refine (h.placed_move hcn).mpr ?_
    by_cases hic : i = c
    · exact .inl hic
    · exact .inr (h.placed (by omega) hin)
  upper hj hp₁ _ hx := h.upper_move hn hc hcn hp hj hp₁ hx
  supported hj hp₁ hside := h.supported_move hn hc hcn hp hj hp₁ hside
  dominators hi hd := h.dominators_move hn hc hcn hp hi hd

end Move

/-! ## 4. Sweeps and rounds -/

/-- A node sits where it belongs. -/
def Settled (preds : Nat → List Nat) (up : Parents) (i : Nat) : Prop :=
  ∃ p, up.parent? i = some p ∧ ∀ d, Anc up d p ↔ ∀ r ∈ preds i, Placed up r → Anc up d r

/-- How far the nodes are from the root; a node without a place counts as farthest. -/
def cost (n : Nat) (up : Parents) : Nat := ∑ i ∈ Finset.range n, (up.parent? i).getD n

/-- What a part of a sweep does: either nothing moves because all is settled from `c` on, or the
nodes come nearer to the root. -/
def Swept (preds : Nat → List Nat) (n c : Nat) (before after : Parents × Bool) : Prop :=
  (after = before ∧ ∀ i, c ≤ i → i < n → Settled preds before.1 i) ∨
    (after.2 = true ∧ cost n after.1 < cost n before.1)

theorem setIfInBounds_eq_self (hp : up.parent? c = some p) : up.setIfInBounds c (some p) = up := by
  refine Array.ext_getElem? (fun i => ?_)
  by_cases hic : c = i
  · subst hic
    have hsome : up[c]? = some (some p) := getElem?_of_parent? hp
    obtain ⟨hlt, -⟩ := Array.getElem?_eq_some_iff.mp hsome
    rw [Array.getElem?_setIfInBounds_self_of_lt hlt, hsome]
  · exact Array.getElem?_setIfInBounds_ne hic

/-- **In the course of a sweep the next node can be placed.**  One of its predecessors has a smaller
number, so the sweep has already passed it. -/
theorem Progress.exists_place (hn : Numbered preds n) (h : Progress preds n c up) (hc : 0 < c)
    (hcn : c < n) :
    ∃ p, up.place? (preds c) = some (some p) ∧ Placed up p ∧
      ∀ d, Anc up d p ↔ ∀ r ∈ preds c, Placed up r → Anc up d r := by
  obtain ⟨q, hq, hqc⟩ := hn.earlier hc hcn
  exact place?_spec h.tree hq (h.placed hqc (by omega))

/-- Moving one node. -/
theorem move?_spec (hn : Numbered preds n) (h : Progress preds n c up) (hc : 0 < c) (hcn : c < n)
    (moved : Bool) :
    ∃ after, move? preds (up, moved) c = some after ∧ Progress preds n (c + 1) after.1 ∧
      ((after = (up, moved) ∧ Settled preds up c) ∨
        (after.2 = true ∧ cost n after.1 < cost n up)) := by
  obtain ⟨p, hpl, hpp, hp⟩ := h.exists_place hn hc hcn
  have hmove := h.move hn hc hcn hpp hp
  by_cases hsame : up.parent? c = some p
  · rw [setIfInBounds_eq_self hsame] at hmove
    exact ⟨(up, moved), by simp [move?, hpl, hsame], hmove, .inl ⟨rfl, p, hsame, hp⟩⟩
  · refine ⟨(up.setIfInBounds c (some p), true), by simp [move?, hpl, hsame], hmove,
      .inr ⟨rfl, ?_⟩⟩
    have hless : p < (up.parent? c).getD n := by
      cases hp₀ : up.parent? c with
      | none =>
        have := h.place_lt hn hc hcn hp
        simp only [Option.getD_none]
        omega
      | some p₀ =>
        have := (h.place_anc hc hp hp₀).le
        have : p ≠ p₀ := fun he => hsame (he ▸ hp₀)
        simp only [Option.getD_some]
        omega
    refine Finset.sum_lt_sum (fun i _ => ?_) ⟨c, Finset.mem_range.mpr hcn, ?_⟩
    · rw [h.parent?_move hcn]
      by_cases hic : i = c
      · rw [if_pos hic, hic]
        exact Nat.le_of_lt hless
      · rw [if_neg hic]
    · rw [h.parent?_move hcn, if_pos rfl]
      exact hless

/-- The rest of a sweep from `c` on, by induction on the number of nodes left. -/
theorem foldlM_move?_spec (hn : Numbered preds n) (k : Nat) :
    ∀ {c : Nat} {up : Parents} (moved : Bool), Progress preds n c up → 0 < c → c + k = n →
      ∃ after, (List.range' c k).foldlM (move? preds) (up, moved) = some after ∧
        Progress preds n n after.1 ∧ Swept preds n c (up, moved) after := by
  induction k with
  | zero =>
    intro c up moved h _ hk
    obtain rfl : c = n := by omega
    exact ⟨(up, moved), rfl, h, .inl ⟨rfl, fun i hi hin => by omega⟩⟩
  | succ k ih =>
    intro c up moved h hc hk
    obtain ⟨⟨up₁, moved₁⟩, hmove, h₁, hcase⟩ := move?_spec hn h hc (by omega) moved
    obtain ⟨after, hrest, h₂, hswept⟩ := ih moved₁ h₁ (by omega) (by omega)
    refine ⟨after, ?_, h₂, ?_⟩
    · rw [List.range'_succ, List.foldlM_cons, hmove]
      exact hrest
    · rcases hcase with ⟨heq, hset⟩ | ⟨htrue, hlt⟩
      · cases heq
        rcases hswept with ⟨heq, hall⟩ | hless
        · refine .inl ⟨heq, fun i hi hin => ?_⟩
          by_cases hic : i = c
          · rw [hic]
            exact hset
          · exact hall i (by omega) hin
        · exact .inr hless
      · rcases hswept with ⟨rfl, -⟩ | ⟨htrue', hlt'⟩
        · exact .inr ⟨htrue, hlt⟩
        · exact .inr ⟨htrue', Nat.lt_trans hlt' hlt⟩

/-- At the end of a sweep the next one can begin. -/
theorem Progress.restart (h : Progress preds n n up) : Progress preds n 1 up where
  tree := h.tree
  placed _ hin := h.placed hin hin
  upper := h.upper
  supported hj hp _ := h.supported hj hp (.inl (h.tree.lt (placed_of_parent? hp)))
  dominators := h.dominators

theorem sweep?_spec (hn : Numbered preds n) (h : Progress preds n 1 up) :
    ∃ after, sweep? preds n up = some after ∧ Progress preds n n after.1 ∧
      Swept preds n 1 (up, false) after := by
  have hrange : (List.range n).drop 1 = List.range' 1 (n - 1) := by
    rw [List.range_eq_range', List.drop_range']
  unfold sweep?
  rw [hrange]
  by_cases h0 : n = 0
  · subst h0
    have hempty : Progress preds 0 0 up :=
      { tree := h.tree
        placed := fun hi _ => absurd hi (Nat.not_lt_zero _)
        upper := h.upper
        supported := fun _ hp => absurd (h.tree.lt (placed_of_parent? hp)) (Nat.not_lt_zero _)
        dominators := h.dominators }
    exact ⟨(up, false), rfl, hempty, .inl ⟨rfl, fun i _ hin => by omega⟩⟩
  · exact foldlM_move?_spec hn (n - 1) false h (by omega) (by omega)

/-- **The rounds come to an end with everything settled.**  Each round but the last lowers the
cost. -/
theorem settle?_spec (hn : Numbered preds n) (rounds : Nat) :
    ∀ {up : Parents}, Progress preds n 1 up → cost n up < rounds →
      ∃ up', settle? preds n rounds up = some up' ∧ Progress preds n n up' ∧
        ∀ i, 0 < i → i < n → Settled preds up' i := by
  induction rounds with
  | zero => intro up _ hlt; omega
  | succ rounds ih =>
    intro up h hlt
    obtain ⟨⟨up₁, moved₁⟩, hsweep, h₁, hswept⟩ := sweep?_spec hn h
    rcases hswept with ⟨heq, hall⟩ | ⟨htrue, hless⟩
    · cases heq
      exact ⟨up, by simp [settle?, hsweep], h₁, hall⟩
    · simp only at htrue hless
      obtain ⟨up', hs, h', hall⟩ := ih h₁.restart (show cost n up₁ < rounds by omega)
      refine ⟨up', ?_, h', hall⟩
      simp [settle?, hsweep, htrue, hs]

theorem parent?_rooted (i : Nat) :
    (rooted n).parent? i = if i = 0 ∧ 0 < n then some 0 else none := by
  unfold rooted
  by_cases h0 : 0 < n
  · rw [parent?_set (by simpa using h0)]
    by_cases hi : i = 0
    · simp [hi, h0]
    · simp only [hi, if_false, parent?, false_and, Array.getElem?_replicate]
      split <;> rfl
  · obtain rfl : n = 0 := by omega
    simp [parent?]

theorem progress_rooted : Progress preds n 1 (rooted n) := by
  have hroot : ∀ {i p : Nat}, (rooted n).parent? i = some p → i = 0 ∧ 0 < n := by
    intro i p hp
    rw [parent?_rooted] at hp
    by_contra hne
    rw [if_neg hne] at hp
    cases hp
  refine ⟨⟨by simp [rooted], fun h0 => by rw [parent?_rooted, if_pos ⟨rfl, h0⟩], ?_⟩, ?_, ?_, ?_, ?_⟩
  · intro i p hp hi
    have := (hroot hp).1
    omega
  · intro i hi hin
    unfold Placed
    rw [parent?_rooted, if_pos ⟨by omega, by omega⟩]
    rfl
  · intro j p hj hp
    have := (hroot hp).1
    omega
  · intro j p hj hp
    have := (hroot hp).1
    omega
  · intro i d hi hd
    obtain ⟨p, hp⟩ := Option.isSome_iff_exists.mp hi
    obtain ⟨rfl, -⟩ := hroot hp
    obtain rfl : d = 0 := by simpa using hd.2 [0] .start
    exact .refl

theorem cost_rooted_le : cost n (rooted n) ≤ n * n := by
  calc cost n (rooted n) ≤ ∑ _i ∈ Finset.range n, n := by
        refine Finset.sum_le_sum (fun i _ => ?_)
        rw [parent?_rooted]
        split <;> simp
    _ = n * n := by simp

/-! ## 5. Ancestors and dominators -/

/-- Where all is settled, a trail passes through every ancestor of its end. -/
theorem mem_of_anc (hplaced : ∀ i, i < n → Placed up i)
    (hset : ∀ i, 0 < i → i < n → Settled preds up i) (hn : Numbered preds n) {t : List Nat}
    (htr : Trail (Flow preds n) 0 i t) (hd : Anc up d i) : d ∈ t := by
  induction htr with
  | start =>
    have := hd.le
    obtain rfl : d = 0 := by omega
    simp
  | @step q i t _ he ih =>
    by_cases hdi : d = i
    · simp [hdi]
    · have hi : 0 < i := by have := hd.le; omega
      obtain ⟨p, hp, hanc⟩ := hset i hi he.1
      have hdp := hd.of_lt hp (by have := hd.le; omega)
      exact List.mem_cons_of_mem _ (ih ((hanc d).mp hdp q he.2 (hplaced q (hn.lt he.2))))

/-- **The tree of immediate dominators exists, and its ancestors are the dominators.** -/
theorem immediate?_spec (hn : Numbered preds n) :
    ∃ up, immediate? preds n = some up ∧ IsTree up n ∧ (∀ i, i < n → Placed up i) ∧
      ∀ i d, i < n → (Anc up d i ↔ Dominates (Flow preds n) 0 d i) := by
  have hcost : cost n (rooted n) < n * n + 2 := by have := cost_rooted_le (n := n); omega
  obtain ⟨up, hup, h, hset⟩ := settle?_spec hn (n * n + 2) progress_rooted hcost
  have hplaced : ∀ i, i < n → Placed up i := fun i hi => h.placed hi hi
  refine ⟨up, hup, h.tree, hplaced, fun i d hi => ⟨fun hd => ?_, h.dominators (hplaced i hi)⟩⟩
  exact ⟨hn.reaches hi, fun t ht => mem_of_anc hplaced hset hn ht hd⟩

/-! ## 6. Other lists of the same predecessors -/

/-- A parent that is an ancestor in another tree stands below the parent there. -/
theorem le_of_anc {p' : Nat} (hp : up.parent? i = some p) (hlt : p < i)
    (hp' : up'.parent? i = some p') (hanc : ∀ d, Anc up d i ↔ Anc up' d i) : p ≤ p' :=
  (((hanc p).mp (.above hp hlt .refl)).of_lt hp' hlt).le

/-- Trees with the same ancestors are the same. -/
theorem IsTree.ext (ht : IsTree up n) (ht' : IsTree up' n) (hp : ∀ i, i < n → Placed up i)
    (hp' : ∀ i, i < n → Placed up' i) (hanc : ∀ i d, i < n → (Anc up d i ↔ Anc up' d i)) :
    up = up' := by
  have hparent : ∀ i, i < n → up.parent? i = up'.parent? i := by
    intro i hi
    by_cases h0 : i = 0
    · rw [h0, ht.root (by omega), ht'.root (by omega)]
    · obtain ⟨p, hup⟩ := Option.isSome_iff_exists.mp (hp i hi)
      obtain ⟨p', hup'⟩ := Option.isSome_iff_exists.mp (hp' i hi)
      have hle := le_of_anc hup (ht.parent hup (by omega)).1 hup' (fun d => hanc i d hi)
      have hge := le_of_anc hup' (ht'.parent hup' (by omega)).1 hup (fun d => (hanc i d hi).symm)
      rw [hup, hup', Nat.le_antisymm hle hge]
  refine Array.ext_getElem? (fun i => ?_)
  by_cases hi : i < n
  · obtain ⟨p, hup⟩ := Option.isSome_iff_exists.mp (hp i hi)
    have hup' : up'.parent? i = some p := (hparent i hi).symm.trans hup
    exact (getElem?_of_parent? hup).trans (getElem?_of_parent? hup').symm
  · rw [Array.getElem?_eq_none (by rw [ht.size]; omega),
      Array.getElem?_eq_none (by rw [ht'.size]; omega)]

theorem Numbered.congr {preds' : Nat → List Nat} (hn : Numbered preds n)
    (hsame : ∀ i q, q ∈ preds' i ↔ q ∈ preds i) : Numbered preds' n := by
  refine ⟨fun hq => hn.lt ((hsame _ _).mp hq), fun hi hin => ?_⟩
  obtain ⟨q, hq, hqi⟩ := hn.earlier hi hin
  exact ⟨q, (hsame _ q).mpr hq, hqi⟩

/-- **In which order the predecessors are listed, and how often, makes no difference.** -/
theorem immediate?_congr {preds' : Nat → List Nat} (hn : Numbered preds n)
    (hsame : ∀ i q, q ∈ preds' i ↔ q ∈ preds i) : immediate? preds' n = immediate? preds n := by
  have hn' : Numbered preds' n := hn.congr hsame
  have hflow : Flow preds' n = Flow preds n := by
    funext q i
    exact propext (and_congr_right (fun _ => hsame i q))
  obtain ⟨up, hup, ht, hp, hanc⟩ := immediate?_spec hn
  obtain ⟨up', hup', ht', hp', hanc'⟩ := immediate?_spec hn'
  rw [hup, hup', ht'.ext ht hp' hp (fun i d hi => ?_)]
  rw [hanc' i d hi, hanc i d hi, hflow]

end Parents
end ShaderIR.Graph
