import Mathlib.Order.Lattice.Nat

/-!
# Trails and dominance

A *trail* is a walk from a fixed root along the edges of a graph, written with the latest node
first.  Reachability and dominance are read off the trails alone: a node can be reached if a trail
ends in it, and `d` dominates `a` if moreover every trail to `a` passes through `d`.

* `Dominates.of_edge`: what dominates the end of an edge and is not that end dominates its start;
* `Dominates.depth_lt`: a strict dominator is nearer to the root, so dominance has no cycles;
* `Dominates.mono`: taking edges away loses no dominator of a node that stays reachable;
* `Dominates.lt_of_earlier`: in an order that follows the edges, dominators come first.
-/

namespace ShaderIR.Graph

variable {α : Type} {E F : α → α → Prop} {root : α}

/-- A walk from the root, the latest node first. -/
inductive Trail (E : α → α → Prop) (root : α) : α → List α → Prop
  | start : Trail E root root [root]
  | step {a b : α} {p : List α} : Trail E root a p → E a b → Trail E root b (b :: p)

/-- Some trail ends in the node. -/
def Reaches (E : α → α → Prop) (root a : α) : Prop := ∃ p, Trail E root a p

/-- The node can be reached, and only through `d`. -/
def Dominates (E : α → α → Prop) (root d a : α) : Prop :=
  Reaches E root a ∧ ∀ p, Trail E root a p → d ∈ p

/-! ## 1. Trails -/

theorem Trail.mem_self {a : α} {p : List α} (h : Trail E root a p) : a ∈ p := by
  cases h with
  | start => simp
  | step _ _ => simp

/-- A trail can be begun one edge earlier. -/
theorem Trail.cons {a b c : α} {p : List α} (h : Trail E b c p) (he : E a b) :
    Trail E a c (p ++ [a]) := by
  induction h with
  | start => exact .step .start he
  | step _ hxy ih => exact .step ih hxy

/-- A trail can be cut at any of its nodes; the part up to another node than the last is
shorter. -/
theorem Trail.upTo {a d : α} {p : List α} (h : Trail E root a p) (hd : d ∈ p) :
    ∃ q, Trail E root d q ∧ (∀ x ∈ q, x ∈ p) ∧ q.length ≤ p.length ∧
      (d ≠ a → q.length < p.length) := by
  induction h with
  | start =>
    obtain rfl : d = root := by simpa using hd
    exact ⟨[d], .start, fun x hx => hx, Nat.le_refl _, fun hne => absurd rfl hne⟩
  | @step a b p ht he ih =>
    rcases List.mem_cons.mp hd with rfl | hd
    · exact ⟨d :: p, .step ht he, fun x hx => hx, Nat.le_refl _, fun hne => absurd rfl hne⟩
    · obtain ⟨q, hq, hsub, hle, -⟩ := ih hd
      have hlt : q.length < (b :: p).length := by simp only [List.length_cons]; omega
      exact ⟨q, hq, fun x hx => List.mem_cons_of_mem _ (hsub x hx), Nat.le_of_lt hlt, fun _ => hlt⟩

theorem Trail.mono {a : α} {p : List α} (h : Trail E root a p)
    (hEF : ∀ x y, Reaches E root x → E x y → F x y) : Trail F root a p := by
  induction h with
  | start => exact .start
  | step ht he ih => exact .step ih (hEF _ _ ⟨_, ht⟩ he)

/-! ## 2. Reachability -/

theorem Reaches.start : Reaches E root root := ⟨_, .start⟩

theorem Reaches.step {a b : α} (h : Reaches E root a) (he : E a b) : Reaches E root b := by
  obtain ⟨p, hp⟩ := h
  exact ⟨_, .step hp he⟩

/-- What holds of the root and is handed on along edges holds of everything that can be reached. -/
theorem Reaches.induct {P : α → Prop} (hroot : P root)
    (hstep : ∀ a b, Reaches E root a → P a → E a b → P b) {a : α} (h : Reaches E root a) : P a := by
  obtain ⟨p, hp⟩ := h
  induction hp with
  | start => exact hroot
  | step ht he ih => exact hstep _ _ ⟨_, ht⟩ ih he

theorem Reaches.mono (hEF : ∀ x y, Reaches E root x → E x y → F x y) {a : α}
    (h : Reaches E root a) : Reaches F root a := by
  obtain ⟨p, hp⟩ := h
  exact ⟨p, hp.mono hEF⟩

theorem Trail.reaches_of_mem {a x : α} {p : List α} (h : Trail E root a p) (hx : x ∈ p) :
    Reaches E root x := by
  obtain ⟨q, hq, -⟩ := h.upTo hx
  exact ⟨q, hq⟩

/-- Along two graphs with the same edges out of reachable nodes the same nodes are reached. -/
theorem reaches_congr (h : ∀ x y, Reaches E root x → (E x y ↔ F x y)) (a : α) :
    Reaches E root a ↔ Reaches F root a := by
  refine ⟨Reaches.mono (fun x y hx => (h x y hx).mp), fun ha => ?_⟩
  refine Reaches.induct .start (fun x y _ hx hxy => ?_) ha
  exact hx.step ((h x y hx).mpr hxy)

/-! ## 3. Dominance -/

theorem Dominates.reaches {d a : α} (h : Dominates E root d a) : Reaches E root a := h.1

theorem Dominates.refl {a : α} (h : Reaches E root a) : Dominates E root a a :=
  ⟨h, fun _ hp => hp.mem_self⟩

theorem Dominates.reaches_left {d a : α} (h : Dominates E root d a) : Reaches E root d := by
  obtain ⟨p, hp⟩ := h.1
  exact hp.reaches_of_mem (h.2 p hp)

theorem Dominates.eq_root {d : α} (h : Dominates E root d root) : d = root := by
  simpa using h.2 _ .start

theorem Dominates.trans {c d a : α} (hcd : Dominates E root c d) (hda : Dominates E root d a) :
    Dominates E root c a := by
  refine ⟨hda.1, fun p hp => ?_⟩
  obtain ⟨q, hq, hsub, -⟩ := hp.upTo (hda.2 p hp)
  exact hsub c (hcd.2 q hq)

/-- **Dominance goes back along edges.**  A node that dominates the end of an edge, and is not that
end itself, lies on every way to the start of the edge. -/
theorem Dominates.of_edge {d a b : α} (h : Dominates E root d b) (hne : d ≠ b)
    (ha : Reaches E root a) (he : E a b) : Dominates E root d a := by
  refine ⟨ha, fun p hp => ?_⟩
  rcases List.mem_cons.mp (h.2 _ (hp.step he)) with hd | hd
  · exact absurd hd hne
  · exact hd

/-- Conversely, what dominates every start of an edge into `b` dominates `b`. -/
theorem Dominates.of_forall_edge {d b : α} (hb : Reaches E root b) (hroot : b = root → d = root)
    (h : ∀ a, Reaches E root a → E a b → Dominates E root d a) : Dominates E root d b := by
  refine ⟨hb, fun p hp => ?_⟩
  cases hp with
  | start => simp [hroot rfl]
  | step ht he => exact List.mem_cons_of_mem _ ((h _ ⟨_, ht⟩ he).2 _ ht)

/-- Fewer edges keep every dominator of what they still reach. -/
theorem Dominates.mono (hEF : ∀ x y, Reaches E root x → E x y → F x y) {d a : α}
    (h : Dominates F root d a) (ha : Reaches E root a) : Dominates E root d a :=
  ⟨ha, fun p hp => h.2 p (hp.mono hEF)⟩

/-! ## 4. The distance from the root -/

/-- The length of a shortest trail to a node. -/
noncomputable def depth (E : α → α → Prop) (root a : α) : Nat :=
  sInf {n | ∃ p, Trail E root a p ∧ p.length = n}

theorem depth_le {a : α} {p : List α} (h : Trail E root a p) : depth E root a ≤ p.length :=
  Nat.sInf_le ⟨p, h, rfl⟩

theorem exists_trail_depth {a : α} (h : Reaches E root a) :
    ∃ p, Trail E root a p ∧ p.length = depth E root a := by
  obtain ⟨p, hp⟩ := h
  have hne : {n | ∃ p, Trail E root a p ∧ p.length = n}.Nonempty := ⟨p.length, p, hp, rfl⟩
  exact Nat.sInf_mem hne

/-- **A strict dominator is nearer to the root.** -/
theorem Dominates.depth_lt {d a : α} (h : Dominates E root d a) (hne : d ≠ a) :
    depth E root d < depth E root a := by
  obtain ⟨p, hp, hlen⟩ := exists_trail_depth h.1
  obtain ⟨q, hq, -, -, hlt⟩ := hp.upTo (h.2 p hp)
  have := depth_le hq
  have := hlt hne
  omega

theorem Dominates.antisymm {d a : α} (h : Dominates E root d a) (h' : Dominates E root a d) :
    d = a := by
  by_contra hne
  have := h.depth_lt hne
  have := h'.depth_lt (fun he => hne he.symm)
  omega

/-- A node other than the root can be entered from nearer to the root. -/
theorem exists_nearer_edge {b : α} (hb : Reaches E root b) (hne : b ≠ root) :
    ∃ a, Reaches E root a ∧ E a b ∧ depth E root a < depth E root b := by
  obtain ⟨p, hp, hlen⟩ := exists_trail_depth hb
  cases hp with
  | start => exact absurd rfl hne
  | @step a _ q hq he =>
    have := depth_le hq
    simp only [List.length_cons] at hlen
    exact ⟨a, ⟨q, hq⟩, he, by omega⟩

/-- **The only way into a node comes from nearer to the root.** -/
theorem depth_lt_of_only {a b : α} (hb : Reaches E root b) (hne : b ≠ root)
    (honly : ∀ c, Reaches E root c → E c b → c = a) : depth E root a < depth E root b := by
  obtain ⟨c, hc, he, hlt⟩ := exists_nearer_edge hb hne
  rwa [honly c hc he] at hlt

/-! ## 5. Orders that follow the edges -/

/-- **Dominators come first.**  In an order in which every node but the root has a predecessor that
stands earlier, strict dominators stand earlier too. -/
theorem Dominates.lt_of_earlier (pos : α → Nat)
    (hpos : ∀ b, Reaches E root b → b ≠ root → ∃ a, Reaches E root a ∧ E a b ∧ pos a < pos b)
    {d b : α} (h : Dominates E root d b) (hne : d ≠ b) : pos d < pos b := by
  induction hn : pos b using Nat.strongRecOn generalizing b with
  | ind n ih =>
    have hroot : b ≠ root := by
      rintro rfl
      exact hne h.eq_root
    obtain ⟨a, ha, hab, hlt⟩ := hpos b h.reaches hroot
    by_cases hda : d = a
    · subst hda
      omega
    · have := ih (pos a) (by omega) (h.of_edge hne ha hab) hda rfl
      omega

/-- Where every edge that leads backwards leads to a dominator, a shortest trail ends in an edge that
leads forwards: otherwise it would already have passed through its last node. -/
theorem exists_earlier_edge (pos : α → Nat)
    (hback : ∀ a b, Reaches E root a → E a b → pos b ≤ pos a → Dominates E root b a)
    {b : α} (hb : Reaches E root b) (hne : b ≠ root) :
    ∃ a, Reaches E root a ∧ E a b ∧ pos a < pos b := by
  obtain ⟨a, ha, hab, hlt⟩ := exists_nearer_edge hb hne
  refine ⟨a, ha, hab, Nat.lt_of_not_le (fun hle => ?_)⟩
  have hba : b ≠ a := by
    rintro rfl
    omega
  have := (hback a b ha hab hle).depth_lt hba
  omega

end ShaderIR.Graph
