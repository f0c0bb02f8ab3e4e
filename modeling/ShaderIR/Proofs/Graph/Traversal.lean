import ShaderIR.Graph.Traversal
import ShaderIR.Proofs.Graph.Paths

/-!
# What the graph traversals list

`search` and `reversePostorder` are given a finite list of nodes and walk inside it.  Both list what
can be reached inside the list, each node once.  Of the depth-first order three more facts are
used: it begins with the root, and every other node stands behind one of its predecessors.

* `search_induct`, `mem_search_of_root`, `mem_search_of_edge`: the search finds the least set that
  has the roots and is closed under edges;
* `mem_search_iff`: with a closed list of nodes this is reachability;
* `mem_reversePostorder_iff`, `nodup_reversePostorder`: the same for the depth-first order;
* `exists_earlier_predecessor`: each node but the root has a predecessor further to the front.
-/

namespace ShaderIR.Graph

open scoped List

variable {α : Type} [DecidableEq α] {next : α → List α}

/-! ## 1. Breadth-first search -/

/-- What holds of the roots and is handed on along edges holds of everything visited. -/
theorem visit_induct {P : α → Prop} (fresh pending : List α)
    (hroots : ∀ r ∈ pending, r ∈ fresh → P r)
    (hstep : ∀ a, P a → ∀ b ∈ next a, b ∈ fresh → P b) :
    ∀ a ∈ visit next fresh pending, a ∈ fresh ∧ P a := by
  fun_induction visit next fresh pending with
  | case1 => simp
  | case2 fresh a rest ha ih =>
    have hPa : P a := hroots a (by simp) ha
    have ih' := ih ?_ ?_
    · intro b hb
      rcases List.mem_cons.mp hb with rfl | hb
      · exact ⟨ha, hPa⟩
      · exact ⟨List.mem_of_mem_erase (ih' b hb).1, (ih' b hb).2⟩
    · intro r hr hf
      have hf := List.mem_of_mem_erase hf
      rcases List.mem_append.mp hr with hr | hr
      · exact hroots r (List.mem_cons_of_mem _ hr) hf
      · exact hstep a hPa r hr hf
    · exact fun c hc b hb hf => hstep c hc b hb (List.mem_of_mem_erase hf)
  | case3 fresh a rest _ ih =>
    exact ih (fun r hr hf => hroots r (List.mem_cons_of_mem _ hr) hf) hstep

theorem mem_visit_of_pending (fresh pending : List α) :
    ∀ r ∈ pending, r ∈ fresh → r ∈ visit next fresh pending := by
  fun_induction visit next fresh pending with
  | case1 => simp
  | case2 fresh a rest ha ih =>
    intro r hr hf
    by_cases hra : r = a
    · simp [hra]
    · have hr : r ∈ rest := (List.mem_cons.mp hr).resolve_left hra
      exact List.mem_cons_of_mem _
        (ih r (List.mem_append_left _ hr) ((List.mem_erase_of_ne hra).mpr hf))
  | case3 fresh a rest ha ih =>
    intro r hr hf
    rcases List.mem_cons.mp hr with rfl | hr
    · exact absurd hf ha
    · exact ih r hr hf

theorem mem_visit_of_edge (fresh pending : List α) :
    ∀ a ∈ visit next fresh pending, ∀ b ∈ next a, b ∈ fresh → b ∈ visit next fresh pending := by
  fun_induction visit next fresh pending with
  | case1 => simp
  | case2 fresh a rest ha ih =>
    intro c hc b hb hf
    by_cases hba : b = a
    · simp [hba]
    · have hf : b ∈ fresh.erase a := (List.mem_erase_of_ne hba).mpr hf
      rcases List.mem_cons.mp hc with rfl | hc
      · exact List.mem_cons_of_mem _ (mem_visit_of_pending _ _ b (List.mem_append_right _ hb) hf)
      · exact List.mem_cons_of_mem _ (ih c hc b hb hf)
  | case3 fresh a rest _ ih => exact ih

theorem nodup_visit (fresh pending : List α) (h : fresh.Nodup) :
    (visit next fresh pending).Nodup := by
  fun_induction visit next fresh pending with
  | case1 => simp
  | case2 fresh a rest ha ih =>
    refine List.nodup_cons.mpr ⟨fun hmem => ?_, ih (h.erase a)⟩
    have := (visit_induct (P := fun _ => True) _ _ (by simp) (by simp) a hmem).1
    exact (List.Nodup.not_mem_erase h) this
  | case3 fresh a rest _ ih => exact ih h

variable {nodes roots : List α}

theorem mem_search_of_root {r : α} (hr : r ∈ roots) (hn : r ∈ nodes) :
    r ∈ search next nodes roots := mem_visit_of_pending nodes roots r hr hn

theorem mem_search_of_edge {a b : α} (ha : a ∈ search next nodes roots) (hb : b ∈ next a)
    (hn : b ∈ nodes) : b ∈ search next nodes roots := mem_visit_of_edge nodes roots a ha b hb hn

/-- **The search finds nothing but what the roots lead to.** -/
theorem search_induct {P : α → Prop} (hroots : ∀ r ∈ roots, r ∈ nodes → P r)
    (hstep : ∀ a, P a → ∀ b ∈ next a, b ∈ nodes → P b) {a : α}
    (ha : a ∈ search next nodes roots) : a ∈ nodes ∧ P a :=
  visit_induct nodes roots hroots hstep a ha

theorem nodup_search (h : nodes.Nodup) : (search next nodes roots).Nodup := nodup_visit _ _ h

/-- The nodes lead to nodes only. -/
def Closed (next : α → List α) (nodes : List α) : Prop := ∀ a ∈ nodes, ∀ b ∈ next a, b ∈ nodes

/-- Over a closed list of nodes the search from one root finds what can be reached from it. -/
theorem mem_search_iff {root : α} (hc : Closed next nodes) (hroot : root ∈ nodes) {a : α} :
    a ∈ search next nodes [root] ↔ Reaches (fun x y => y ∈ next x) root a := by
  constructor
  · intro ha
    refine (search_induct (fun r hr _ => ?_) (fun a hP b hb _ => hP.step hb) ha).2
    obtain rfl : r = root := by simpa using hr
    exact .start
  · intro ha
    refine (Reaches.induct (P := fun x => x ∈ search next nodes [root] ∧ x ∈ nodes)
      ⟨mem_search_of_root (by simp) hroot, hroot⟩ ?_ ha).1
    intro x y _ hx hxy
    exact ⟨mem_search_of_edge hx.1 hxy (hc x hx.2 y hxy), hc x hx.2 y hxy⟩

/-! ## 2. Depth-first order

The walk is described by what its arguments satisfy.  A frame of the stack owes the successors it
has not looked at; a node that was left owes nothing. -/

/-- The nodes on a stack, the innermost first. -/
def onStack (stack : List (α × List α)) : List α := stack.map Prod.fst

omit [DecidableEq α] in
@[simp] theorem onStack_nil : onStack ([] : List (α × List α)) = [] := rfl

omit [DecidableEq α] in
@[simp] theorem onStack_cons (a : α) (bs : List α) (stack : List (α × List α)) :
    onStack ((a, bs) :: stack) = a :: onStack stack := rfl

/-- The walk puts nodes in front of those already left. -/
theorem mem_walk_of_done (fresh : List α) (stack : List (α × List α)) (done : List α) :
    ∀ a, a ∈ done ∨ a ∈ onStack stack → a ∈ walk next fresh stack done := by
  fun_induction walk next fresh stack done with
  | case1 => simp
  | case2 fresh done a rest ih =>
    intro b hb
    refine ih b ?_
    simp only [onStack_cons, List.mem_cons] at hb ⊢
    tauto
  | case3 fresh done a b bs rest hb ih =>
    intro c hc
    refine ih c ?_
    simp only [onStack_cons, List.mem_cons] at hc ⊢
    tauto
  | case4 fresh done a b bs rest hb ih =>
    intro c hc
    refine ih c ?_
    simpa only [onStack_cons, List.mem_cons] using hc

theorem nodup_walk (fresh : List α) (stack : List (α × List α)) (done : List α)
    (h : (fresh ++ (onStack stack ++ done)).Nodup) : (walk next fresh stack done).Nodup := by
  fun_induction walk next fresh stack done with
  | case1 fresh done =>
    simp only [onStack_nil, List.nil_append] at h
    exact (List.nodup_append.mp h).2.1
  | case2 fresh done a rest ih =>
    refine ih ((List.Perm.nodup_iff ?_).mp h)
    simp only [onStack_cons, List.cons_append]
    exact List.Perm.append_left _ List.perm_middle.symm
  | case3 fresh done a b bs rest hb ih =>
    refine ih ((List.Perm.nodup_iff ?_).mp h)
    simp only [onStack_cons, List.cons_append]
    calc fresh ++ (a :: (onStack rest ++ done))
        ~ (b :: fresh.erase b) ++ (a :: (onStack rest ++ done)) :=
          (List.perm_cons_erase hb).append_right _
      _ ~ fresh.erase b ++ (b :: a :: (onStack rest ++ done)) := List.perm_middle.symm
  | case4 fresh done a b bs rest hb ih => exact ih h

/-- Nothing fresh is overlooked: every edge out of a listed node into a fresh one is followed. -/
theorem mem_walk_of_edge (fresh : List α) (stack : List (α × List α)) (done : List α)
    (hfresh : fresh.Nodup)
    (hdone : ∀ a ∈ done, ∀ b ∈ next a, b ∉ fresh)
    (hstack : ∀ frame ∈ stack, ∀ b ∈ next frame.1, b ∈ frame.2 ∨ b ∉ fresh) :
    ∀ a ∈ walk next fresh stack done, ∀ b ∈ next a, b ∈ fresh → b ∈ walk next fresh stack done := by
  fun_induction walk next fresh stack done with
  | case1 fresh done => exact fun a ha b hb hf => absurd hf (hdone a ha b hb)
  | case2 fresh done a rest ih =>
    refine ih hfresh ?_ (fun frame hframe => hstack frame (List.mem_cons_of_mem _ hframe))
    intro c hc b hb
    rcases List.mem_cons.mp hc with rfl | hc
    · simpa using hstack (c, []) (by simp) b hb
    · exact hdone c hc b hb
  | case3 fresh done a b bs rest hb ih =>
    have hsub : ∀ x, x ∉ fresh → x ∉ fresh.erase b := fun x hx h => hx (List.mem_of_mem_erase h)
    have ih' := ih (hfresh.erase b) (fun c hc x hx => hsub x (hdone c hc x hx)) ?_
    · intro c hc x hx hf
      by_cases hxb : x = b
      · rw [hxb]
        exact mem_walk_of_done _ _ _ b (by simp)
      · exact ih' c hc x hx ((List.mem_erase_of_ne hxb).mpr hf)
    · intro frame hframe x hx
      simp only [List.mem_cons] at hframe
      rcases hframe with rfl | rfl | hframe
      · exact .inl hx
      · rcases hstack (a, b :: bs) (by simp) x hx with h | h
        · rcases List.mem_cons.mp h with rfl | h
          · exact .inr hfresh.not_mem_erase
          · exact .inl h
        · exact .inr (hsub x h)
      · rcases hstack frame (by simp [hframe]) x hx with h | h
        · exact .inl h
        · exact .inr (hsub x h)
  | case4 fresh done a b bs rest hb ih =>
    refine ih hfresh hdone ?_
    intro frame hframe x hx
    rcases List.mem_cons.mp hframe with rfl | hframe
    · rcases hstack (a, b :: bs) (by simp) x hx with h | h
      · rcases List.mem_cons.mp h with rfl | h
        · exact .inr hb
        · exact .inl h
      · exact .inr h
    · exact hstack frame (by simp [hframe]) x hx

/-- The node left last is the outermost one. -/
theorem head?_walk (fresh : List α) (stack : List (α × List α)) (done : List α) :
    (walk next fresh stack done).head? = (onStack stack).getLast?.or done.head? := by
  fun_induction walk next fresh stack done with
  | case1 => simp
  | case2 fresh done a rest ih =>
    rw [ih, onStack_cons, List.getLast?_cons]
    cases (onStack rest).getLast? <;> simp
  | case3 fresh done a b bs rest hb ih => simpa [List.getLast?_cons] using ih
  | case4 fresh done a b bs rest hb ih => simpa [List.getLast?_cons] using ih

/-- Each node of a list but the root has a predecessor in front of it, `above` being what stands in
front of the list. -/
def Founded (next : α → List α) (root : α) (above : List α) : List α → Prop
  | [] => True
  | b :: l => (b = root ∨ ∃ a ∈ above, b ∈ next a) ∧ Founded next root (b :: above) l

/-- Each node of a stack but the root has a predecessor further out. -/
def Nested (next : α → List α) (root : α) : List α → Prop
  | [] => True
  | b :: l => (b = root ∨ ∃ a ∈ l, b ∈ next a) ∧ Nested next root l

omit [DecidableEq α] in
theorem Founded.mono {root : α} {above above' l : List α} (h : Founded next root above l)
    (hsub : ∀ a ∈ above, a ∈ above') : Founded next root above' l := by
  induction l generalizing above above' with
  | nil => trivial
  | cons b l ih =>
    refine ⟨h.1.imp_right ?_, ih h.2 ?_⟩
    · rintro ⟨a, ha, hb⟩
      exact ⟨a, hsub a ha, hb⟩
    · intro a ha
      rcases List.mem_cons.mp ha with rfl | ha
      · simp
      · exact List.mem_cons_of_mem _ (hsub a ha)

/-- **Every node is left after the nodes it leads to on the stack,** so that in the finished order
it stands behind the node it was entered from. -/
theorem founded_walk {root : α} (fresh : List α) (stack : List (α × List α)) (done : List α)
    (hnested : Nested next root (onStack stack))
    (howed : ∀ frame ∈ stack, ∀ b ∈ frame.2, b ∈ next frame.1)
    (hdone : Founded next root (onStack stack) done) :
    Founded next root [] (walk next fresh stack done) := by
  fun_induction walk next fresh stack done with
  | case1 => exact hdone
  | case2 fresh done a rest ih =>
    exact ih hnested.2 (fun frame hframe => howed frame (List.mem_cons_of_mem _ hframe))
      ⟨hnested.1, hdone⟩
  | case3 fresh done a b bs rest hb ih =>
    have hba : b ∈ next a := howed (a, b :: bs) (by simp) b (by simp)
    refine ih ⟨.inr ⟨a, by simp, hba⟩, hnested⟩ ?_ (hdone.mono (by simp +contextual))
    intro frame hframe x hx
    simp only [List.mem_cons] at hframe
    rcases hframe with rfl | rfl | hframe
    · exact hx
    · exact howed (a, b :: bs) (by simp) x (by simp [hx])
    · exact howed frame (by simp [hframe]) x hx
  | case4 fresh done a b bs rest hb ih =>
    refine ih hnested ?_ hdone
    intro frame hframe x hx
    rcases List.mem_cons.mp hframe with rfl | hframe
    · exact howed (a, b :: bs) (by simp) x (by simp [hx])
    · exact howed frame (by simp [hframe]) x hx

omit [DecidableEq α] in
theorem Founded.exists_of_append {root b : α} {above l₁ l₂ : List α}
    (h : Founded next root above (l₁ ++ b :: l₂)) :
    b = root ∨ ∃ a, (a ∈ above ∨ a ∈ l₁) ∧ b ∈ next a := by
  induction l₁ generalizing above with
  | nil =>
    refine h.1.imp_right ?_
    rintro ⟨a, ha, hb⟩
    exact ⟨a, .inl ha, hb⟩
  | cons c l₁ ih =>
    refine (ih h.2).imp_right ?_
    rintro ⟨a, ha, hb⟩
    refine ⟨a, ?_, hb⟩
    simp only [List.mem_cons] at ha ⊢
    tauto

/-! ## 3. The order from a root -/

variable {root : α}

theorem nodup_reversePostorder (hnodes : nodes.Nodup) :
    (reversePostorder next nodes root).Nodup := by
  refine nodup_walk _ _ _ ?_
  simp only [onStack_cons, onStack_nil, List.append_nil]
  refine List.nodup_append.mpr ⟨hnodes.erase root, by simp, ?_⟩
  intro a ha b hb
  obtain rfl : b = root := by simpa using hb
  rintro rfl
  exact hnodes.not_mem_erase ha

theorem head?_reversePostorder : (reversePostorder next nodes root).head? = some root := by
  simp [reversePostorder, head?_walk]

theorem root_mem_reversePostorder : root ∈ reversePostorder next nodes root :=
  List.mem_of_mem_head? head?_reversePostorder

/-- **Every node but the root has a predecessor further to the front.** -/
theorem exists_earlier_predecessor {b : α} {l₁ l₂ : List α}
    (h : reversePostorder next nodes root = l₁ ++ b :: l₂) (hb : b ≠ root) :
    ∃ a ∈ l₁, b ∈ next a := by
  have hf : Founded next root [] (reversePostorder next nodes root) :=
    founded_walk _ _ _ ⟨.inl rfl, trivial⟩ (by simp) trivial
  rw [h] at hf
  obtain ⟨a, ha, hba⟩ := hf.exists_of_append.resolve_left hb
  exact ⟨a, by simpa using ha, hba⟩

/-- Over a closed list of nodes the order lists what can be reached from the root. -/
theorem mem_reversePostorder_iff (hc : Closed next nodes) (hnodes : nodes.Nodup)
    (hroot : root ∈ nodes) {a : α} :
    a ∈ reversePostorder next nodes root ↔ Reaches (fun x y => y ∈ next x) root a := by
  constructor
  · -- by induction on the position: the predecessor in front of `a` can be reached
    intro ha
    obtain ⟨l₁, l₂, hl⟩ := List.append_of_mem ha
    induction hn : l₁.length using Nat.strong_induction_on generalizing a l₁ l₂ with
    | _ n ih =>
      by_cases har : a = root
      · rw [har]
        exact .start
      · obtain ⟨c, hc', hac⟩ := exists_earlier_predecessor hl har
        obtain ⟨m₁, m₂, hm⟩ := List.append_of_mem hc'
        have hlen : m₁.length < n := by rw [← hn, hm]; simp
        have hl' : reversePostorder next nodes root = m₁ ++ c :: (m₂ ++ a :: l₂) := by
          rw [hl, hm]; simp
        exact (ih m₁.length hlen (by rw [hl']; simp) m₁ _ hl' rfl).step hac
  · intro ha
    have hclosed : ∀ x ∈ reversePostorder next nodes root, ∀ y ∈ next x, y ∈ nodes →
        y ∈ reversePostorder next nodes root := by
      intro x hx y hy hyn
      by_cases hyr : y = root
      · rw [hyr]
        exact root_mem_reversePostorder
      · refine mem_walk_of_edge _ _ _ (hnodes.erase root) (by simp) ?_ x hx y hy
          ((List.mem_erase_of_ne hyr).mpr hyn)
        intro frame hframe z hz
        obtain rfl : frame = (root, next root) := by simpa using hframe
        exact .inl hz
    refine (Reaches.induct (P := fun x => x ∈ reversePostorder next nodes root ∧ x ∈ nodes)
      ⟨root_mem_reversePostorder, hroot⟩ ?_ ha).1
    intro x y _ hx hxy
    exact ⟨hclosed x hx.1 y hxy (hc x hx.2 y hxy), hc x hx.2 y hxy⟩

end ShaderIR.Graph
