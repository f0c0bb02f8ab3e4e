import ShaderIR.Proofs.Graph.Traversal

/-!
# Distance and breadth-first order

The distance of a node is the least number of edges on a way to it from a node to start with.  A
search that takes the pending nodes in the order in which they came visits nearer nodes first.

The argument goes level by level.  At any time the pending nodes fall into two parts, those at the
current distance and those one edge further (`Frontier`).  A visit takes a node from the first part
and adds to the second; when the first part is used up, the second takes its place.

* `mem_search_iff_reachedIn`: the search lists what can be reached from the roots;
* `Frontier.visit`, `Frontier.skip`, `Frontier.advance`: what a step keeps;
* `search_nearest_first`: the distances in the order of the search never decrease.
-/

namespace ShaderIR.Graph

/-! ## 1. Distance -/

section Distance

variable {α : Type} {start : α → Prop} {E : α → α → Prop} {a b : α} {n : Nat}

/-- A way of this many edges leads to the node from one to start with. -/
inductive ReachedIn (start : α → Prop) (E : α → α → Prop) : Nat → α → Prop
  | start {a : α} : start a → ReachedIn start E 0 a
  | step {n : Nat} {a b : α} : ReachedIn start E n a → E a b → ReachedIn start E (n + 1) b

/-- The length of a shortest way. -/
noncomputable def distance (start : α → Prop) (E : α → α → Prop) (a : α) : Nat :=
  sInf {n | ReachedIn start E n a}

theorem distance_le (h : ReachedIn start E n a) : distance start E a ≤ n := Nat.sInf_le h

theorem reachedIn_distance (h : ∃ n, ReachedIn start E n a) :
    ReachedIn start E (distance start E a) a := Nat.sInf_mem h

/-- An edge leads at most one further. -/
theorem distance_le_succ (ha : ∃ n, ReachedIn start E n a) (hab : E a b) :
    distance start E b ≤ distance start E a + 1 :=
  distance_le ((reachedIn_distance ha).step hab)

/-- A node that is not to start with is entered from one that is nearer by one. -/
theorem exists_nearer (hb : ∃ n, ReachedIn start E n b) (hn : distance start E b = n + 1) :
    ∃ a, (∃ k, ReachedIn start E k a) ∧ E a b ∧ distance start E a = n := by
  have hway := reachedIn_distance hb
  rw [hn] at hway
  cases hway with
  | @step _ a _ ha hab =>
    have hle := distance_le ha
    have hstep := distance_le_succ ⟨n, ha⟩ hab
    exact ⟨a, ⟨n, ha⟩, hab, by omega⟩

end Distance

/-! ## 2. The search -/

variable {α : Type} [DecidableEq α] {next : α → List α} {nodes roots : List α}

/-- From the roots, a way of this many edges leads to the node. -/
abbrev FoundIn (next : α → List α) (roots : List α) : Nat → α → Prop :=
  ReachedIn (fun r => r ∈ roots) (fun a b => b ∈ next a)

/-- Some way leads to the node. -/
abbrev Found (next : α → List α) (roots : List α) (a : α) : Prop := ∃ n, FoundIn next roots n a

omit [DecidableEq α] in
theorem Found.step {a b : α} (h : Found next roots a) (hab : b ∈ next a) : Found next roots b := by
  obtain ⟨n, hn⟩ := h
  exact ⟨n + 1, hn.step hab⟩

/-- The distance from the roots. -/
noncomputable abbrev distanceFrom (next : α → List α) (roots : List α) : α → Nat :=
  distance (fun r => r ∈ roots) (fun a b => b ∈ next a)

/-- Over a closed list of nodes the search from some roots finds what can be reached from them. -/
theorem mem_search_iff_reachedIn (hc : Closed next nodes) (hroots : ∀ r ∈ roots, r ∈ nodes)
    {a : α} : a ∈ search next nodes roots ↔ Found next roots a := by
  constructor
  · intro ha
    exact (search_induct (P := Found next roots) (fun r hr _ => ⟨0, .start hr⟩)
      (fun a hfound b hb _ => hfound.step hb) ha).2
  · rintro ⟨n, hn⟩
    have hboth : a ∈ nodes ∧ a ∈ search next nodes roots := by
      induction hn with
      | start hr => exact ⟨hroots _ hr, mem_search_of_root hr (hroots _ hr)⟩
      | step _ hab ih =>
        have hb := hc _ ih.1 _ hab
        exact ⟨hb, mem_search_of_edge ih.2 hab hb⟩
    exact hboth.2

/-- A search that has come to distance `n`: of what it has not visited, all that is as near as that
is pending in `now`, and what the nodes visited at that distance lead to is pending in `later`. -/
structure Frontier (next : α → List α) (roots : List α) (n : Nat) (fresh now later : List α) :
    Prop where
  nodup : fresh.Nodup
  visited : ∀ a, Found next roots a → a ∉ fresh → distanceFrom next roots a ≤ n
  ahead : ∀ a ∈ fresh, Found next roots a → n ≤ distanceFrom next roots a
  now_near : ∀ a ∈ now, Found next roots a ∧ distanceFrom next roots a ≤ n
  later_near : ∀ a ∈ later, Found next roots a ∧ distanceFrom next roots a ≤ n + 1
  pending : ∀ a ∈ fresh, Found next roots a → distanceFrom next roots a = n → a ∈ now
  owed : ∀ a, Found next roots a → a ∉ fresh → distanceFrom next roots a = n →
    ∀ b ∈ next a, b ∈ fresh → b ∈ later

namespace Frontier

variable {n : Nat} {fresh now later rest : List α} {a : α}

/-- A search begins with its roots, at distance 0. -/
theorem start (hnodes : nodes.Nodup) (hc : Closed next nodes) (hroots : ∀ r ∈ roots, r ∈ nodes) :
    Frontier next roots 0 nodes roots [] := by
  have hin : ∀ a, Found next roots a → a ∈ nodes := fun a ha =>
    (search_induct (P := fun _ => True) (fun _ _ _ => trivial) (fun _ _ _ _ _ => trivial)
      ((mem_search_iff_reachedIn hc hroots).mpr ha)).1
  refine ⟨hnodes, fun a ha hnot => absurd (hin a ha) hnot, fun _ _ _ => Nat.zero_le _,
    fun a ha => ⟨⟨0, .start ha⟩, distance_le (.start ha)⟩, by simp, fun a _ ha hzero => ?_,
    fun a ha hnot => absurd (hin a ha) hnot⟩
  have hway := reachedIn_distance ha
  rw [show distance _ _ a = 0 from hzero] at hway
  cases hway with
  | start hr => exact hr

/-- Every node of a search that has come to distance `n` is at least as far. -/
theorem le_of_mem_visit (h : Frontier next roots n fresh now later)
    (ha : a ∈ visit next fresh (now ++ later)) : n ≤ distanceFrom next roots a := by
  have hpending : ∀ r ∈ now ++ later, r ∈ fresh → Found next roots r := by
    intro r hr _
    rcases List.mem_append.mp hr with hr | hr
    · exact (h.now_near r hr).1
    · exact (h.later_near r hr).1
  obtain ⟨hfresh, hfound⟩ := visit_induct (P := Found next roots) fresh (now ++ later) hpending
    (fun c hc b hb _ => hc.step hb) a ha
  exact h.ahead a hfresh hfound

omit [DecidableEq α] in
theorem distance_eq (h : Frontier next roots n fresh (a :: now) later) (ha : a ∈ fresh) :
    distanceFrom next roots a = n := by
  obtain ⟨hfound, hle⟩ := h.now_near a (by simp)
  exact Nat.le_antisymm hle (h.ahead a ha hfound)

/-- **A visit** takes a node from those at the current distance. -/
theorem visit (h : Frontier next roots n fresh (a :: now) later) (ha : a ∈ fresh) :
    Frontier next roots n (fresh.erase a) now (later ++ next a) := by
  have hfound := (h.now_near a (by simp)).1
  have hdist := h.distance_eq ha
  have hgone : ∀ c, c ∉ fresh.erase a → c = a ∨ c ∉ fresh := fun c hc => by
    by_cases hca : c = a
    · exact .inl hca
    · exact .inr (fun hc' => hc ((List.mem_erase_of_ne hca).mpr hc'))
  refine ⟨h.nodup.erase a, fun c hc hnot => ?_,
    fun c hc => h.ahead c (List.mem_of_mem_erase hc),
    fun c hc => h.now_near c (List.mem_cons_of_mem _ hc), fun c hc => ?_, fun c hc hcf hcn => ?_,
    fun c hc hnot hcn b hb hbf => ?_⟩
  · rcases hgone c hnot with rfl | hnot
    · exact Nat.le_of_eq hdist
    · exact h.visited c hc hnot
  · rcases List.mem_append.mp hc with hc | hc
    · exact h.later_near c hc
    · exact ⟨hfound.step hc, hdist ▸ distance_le_succ hfound hc⟩
  · refine (List.mem_cons.mp (h.pending c (List.mem_of_mem_erase hc) hcf hcn)).resolve_left ?_
    rintro rfl
    exact h.nodup.not_mem_erase hc
  · rcases hgone c hnot with rfl | hnot
    · exact List.mem_append_right _ hb
    · exact List.mem_append_left _ (h.owed c hc hnot hcn b hb (List.mem_of_mem_erase hbf))

omit [DecidableEq α] in
/-- A node that was visited before is passed over. -/
theorem skip (h : Frontier next roots n fresh (a :: now) later) (ha : a ∉ fresh) :
    Frontier next roots n fresh now later where
  nodup := h.nodup
  visited := h.visited
  ahead := h.ahead
  now_near c hc := h.now_near c (List.mem_cons_of_mem _ hc)
  later_near := h.later_near
  pending c hc hcf hcn := (List.mem_cons.mp (h.pending c hc hcf hcn)).resolve_left
    (fun hca => ha (hca ▸ hc))
  owed := h.owed

omit [DecidableEq α] in
/-- **The next distance**: nothing is left at the current one, so what is one edge further has been
found. -/
theorem advance (h : Frontier next roots n fresh [] later) :
    Frontier next roots (n + 1) fresh later [] := by
  have hnone : ∀ a ∈ fresh, Found next roots a → distanceFrom next roots a ≠ n :=
    fun a ha hfound hdist => by simpa using h.pending a ha hfound hdist
  refine ⟨h.nodup, fun a ha hnot => Nat.le_succ_of_le (h.visited a ha hnot), fun a ha hfound => ?_,
    h.later_near, by simp, fun a ha hfound hdist => ?_, fun a ha hnot hdist => ?_⟩
  · exact Nat.lt_of_le_of_ne (h.ahead a ha hfound) (fun hdist => hnone a ha hfound hdist.symm)
  · obtain ⟨p, hp, hpa, hpn⟩ := exists_nearer hfound hdist
    exact h.owed p hp (fun hpf => hnone p hpf hp hpn) hpn a hpa ha
  · have := h.visited a ha hnot
    omega

omit [DecidableEq α] in
/-- The first of the pending nodes is one of those at the current distance, or nothing is left there
and it is one at the next. -/
theorem exists_current (h : Frontier next roots n fresh now later)
    (hsplit : now ++ later = a :: rest) :
    ∃ n' now' later', rest = now' ++ later' ∧ Frontier next roots n' fresh (a :: now') later' := by
  cases now with
  | nil =>
    obtain rfl : later = a :: rest := hsplit
    exact ⟨n + 1, rest, [], by simp, h.advance⟩
  | cons c now =>
    obtain ⟨rfl, rfl⟩ := List.cons.inj hsplit
    exact ⟨n, now, later, rfl, h⟩

/-- **From then on the distances never decrease.** -/
theorem pairwise (h : Frontier next roots n fresh now later) {pending : List α}
    (hpending : pending = now ++ later) :
    (Graph.visit next fresh pending).Pairwise
      (fun a b => distanceFrom next roots a ≤ distanceFrom next roots b) := by
  fun_induction Graph.visit next fresh pending generalizing n now later with
  | case1 => exact .nil
  | case2 fresh a rest ha ih =>
    obtain ⟨n', now', later', rfl, h'⟩ := h.exists_current hpending.symm
    have hrest : now' ++ later' ++ next a = now' ++ (later' ++ next a) := List.append_assoc _ _ _
    refine List.pairwise_cons.mpr ⟨fun b hb => ?_, ih (h'.visit ha) hrest⟩
    rw [hrest] at hb
    rw [h'.distance_eq ha]
    exact (h'.visit ha).le_of_mem_visit hb
  | case3 fresh a rest ha ih =>
    obtain ⟨n', now', later', rfl, h'⟩ := h.exists_current hpending.symm
    exact ih (h'.skip ha) rfl

end Frontier

/-- **A search visits nearer nodes first.** -/
theorem search_nearest_first (hnodes : nodes.Nodup) (hc : Closed next nodes)
    (hroots : ∀ r ∈ roots, r ∈ nodes) :
    (search next nodes roots).Pairwise
      (fun a b => distanceFrom next roots a ≤ distanceFrom next roots b) :=
  (Frontier.start hnodes hc hroots).pairwise (List.append_nil _).symm

end ShaderIR.Graph
