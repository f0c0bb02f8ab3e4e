import ShaderIR.Proofs.Graph.Traversal

/-!
# Recursive depth-first search

`walk` keeps a stack of its own.  The search that it stands for is a recursion: to visit an unmarked
node is to mark it, to visit its successors in order and then to list it, and a marked node is passed
over (`explore`).  This file shows that the two list the same nodes in the same order, and reads off
the recursion where in the list a node may stand.

* `walk_eq_explore`, `reversePostorder_eq`: the walk is the recursion;
* `exists_trail_of_mem_post`: a node is entered along a trail of nodes that are entered;
* `exists_entry`: the search at the moment in which it enters a given node;
* `idxOf_lt_of_successor`: a node that `h` dominates, and that the first successors of `h` do not
  lead to, stands in front of them in the reverse order.
-/

namespace ShaderIR.Graph

variable {α : Type} [DecidableEq α] {next : α → List α}

/-! ## 1. The recursion -/

theorem length_erase_lt {l : List α} {a : α} (h : a ∈ l) : (l.erase a).length < l.length := by
  have := List.length_pos_of_mem h
  rw [List.length_erase_of_mem h]
  omega

/-- What a search makes of the unmarked nodes. -/
structure Explored (unmarked : List α) where
  /-- The nodes that are still unmarked. -/
  left : List α
  /-- The nodes that were entered, in the order in which they were left. -/
  post : List α
  /-- No mark is taken away. -/
  sublist : left.Sublist unmarked

/-- Visits the nodes of a list one after the other.  An unmarked node is marked, its successors are
visited, and then it is listed; a marked one is passed over. -/
def explore (next : α → List α) (unmarked : List α) (bs : List α) : Explored unmarked :=
  match bs with
  | [] => ⟨unmarked, [], .refl _⟩
  | b :: bs =>
    if b ∈ unmarked then
      let inner := explore next (unmarked.erase b) (next b)
      let rest := explore next inner.left bs
      ⟨rest.left, inner.post ++ b :: rest.post,
        rest.sublist.trans (inner.sublist.trans List.erase_sublist)⟩
    else explore next unmarked bs
termination_by (unmarked.length, bs.length)
decreasing_by
  · rename_i hb
    exact Prod.Lex.left _ _ (length_erase_lt hb)
  · rename_i hb
    exact Prod.Lex.left _ _ (Nat.lt_of_le_of_lt (Explored.sublist _).length_le (length_erase_lt hb))
  · exact Prod.Lex.right _ (by simp)

/-- The nodes in the order in which a search from a root leaves them. -/
def postorder (next : α → List α) (nodes : List α) (root : α) : List α :=
  (explore next nodes [root]).post

/-! ## 2. The walk is the recursion -/

/-- **A frame is finished when its successors have been visited.** -/
theorem walk_eq_explore (fresh bs : List α) (a : α) (stack : List (α × List α)) (done : List α) :
    walk next fresh ((a, bs) :: stack) done =
      walk next (explore next fresh bs).left stack
        (a :: ((explore next fresh bs).post.reverse ++ done)) := by
  fun_induction explore next fresh bs generalizing a stack done with
  | case1 fresh => rw [walk, List.reverse_nil, List.nil_append]
  | case2 fresh b bs hb inner rest ihInner ihRest =>
    -- the frame of `b` is pushed, finished and popped; then the rest of `a` is gone on with
    rw [walk, if_pos hb, ihInner, ihRest]
    simp [inner, rest]
  | case3 fresh b bs hb ih => rw [walk, if_neg hb, ih]

variable {nodes unmarked bs cs : List α} {root a b x h t : α}

theorem reversePostorder_eq (hroot : root ∈ nodes) :
    reversePostorder next nodes root = (postorder next nodes root).reverse := by
  have hnil : ∀ unmarked : List α, (explore next unmarked []).post = [] := fun unmarked => by
    rw [explore]
  rw [reversePostorder, walk_eq_explore, walk, postorder, explore, if_pos hroot]
  simp [hnil]

theorem mem_postorder_iff (hc : Closed next nodes) (hnodes : nodes.Nodup) (hroot : root ∈ nodes) :
    x ∈ postorder next nodes root ↔ Reaches (fun y z => z ∈ next y) root x := by
  rw [← mem_reversePostorder_iff hc hnodes hroot, reversePostorder_eq hroot, List.mem_reverse]

theorem nodup_postorder (hnodes : nodes.Nodup) (hroot : root ∈ nodes) :
    (postorder next nodes root).Nodup := by
  rw [← List.nodup_reverse, ← reversePostorder_eq hroot]
  exact nodup_reversePostorder hnodes

/-! ## 3. What a search enters -/

theorem post_append : (explore next unmarked (bs ++ cs)).post =
    (explore next unmarked bs).post ++
      (explore next (explore next unmarked bs).left cs).post := by
  fun_induction explore next unmarked bs with
  | case1 unmarked => rfl
  | case2 unmarked b bs hb inner rest ihInner ihRest =>
    rw [List.cons_append, explore, if_pos hb]
    simp only [List.append_assoc, List.cons_append]
    rw [← ihRest]
  | case3 unmarked b bs hb ih => rw [List.cons_append, explore, if_neg hb, ih]

theorem mem_unmarked_of_mem_post (hx : x ∈ (explore next unmarked bs).post) : x ∈ unmarked := by
  fun_induction explore next unmarked bs with
  | case1 unmarked => cases hx
  | case2 unmarked b bs hb inner rest ihInner ihRest =>
    rcases List.mem_append.mp hx with hx | hx
    · exact List.mem_of_mem_erase (ihInner hx)
    · rcases List.mem_cons.mp hx with rfl | hx
      · exact hb
      · exact List.mem_of_mem_erase (inner.sublist.subset (ihRest hx))
  | case3 unmarked b bs hb ih => exact ih hx

/-- Exactly the nodes that were entered are marked. -/
theorem mem_left_iff (hn : unmarked.Nodup) : x ∈ (explore next unmarked bs).left ↔
    x ∈ unmarked ∧ x ∉ (explore next unmarked bs).post := by
  fun_induction explore next unmarked bs with
  | case1 unmarked => simp
  | case2 unmarked b bs hb inner rest ihInner ihRest =>
    have hinner := ihInner (hn.erase b)
    rw [hn.mem_erase_iff] at hinner
    have hrest := ihRest ((hn.erase b).sublist inner.sublist)
    rw [hrest, hinner, List.mem_append, List.mem_cons, not_or, not_or]
    constructor
    · rintro ⟨⟨⟨hxb, hx⟩, hi⟩, hr⟩
      exact ⟨hx, hi, hxb, hr⟩
    · rintro ⟨hx, hi, hxb, hr⟩
      exact ⟨⟨⟨hxb, hx⟩, hi⟩, hr⟩
  | case3 unmarked b bs hb ih => exact ih hn

theorem mem_post_of_mem (hn : unmarked.Nodup) (hb : b ∈ bs) (hu : b ∈ unmarked) :
    b ∈ (explore next unmarked bs).post := by
  fun_induction explore next unmarked bs with
  | case1 unmarked => cases hb
  | case2 unmarked c bs hc inner rest ihInner ihRest =>
    rw [List.mem_append, List.mem_cons]
    by_cases hinner : b ∈ inner.post
    · exact .inl hinner
    · by_cases hbc : b = c
      · exact .inr (.inl hbc)
      · have hleft : b ∈ inner.left :=
          (mem_left_iff (hn.erase c)).mpr ⟨hn.mem_erase_iff.mpr ⟨hbc, hu⟩, hinner⟩
        exact .inr (.inr (ihRest ((hn.erase c).sublist inner.sublist)
          ((List.mem_cons.mp hb).resolve_left hbc) hleft))
  | case3 unmarked c bs hc ih =>
    have hbc : b ≠ c := by
      rintro rfl
      exact hc hu
    exact ih hn ((List.mem_cons.mp hb).resolve_left hbc) hu

/-- A node is entered along a trail, all of whose nodes are entered. -/
theorem exists_trail_of_mem_post (hx : x ∈ (explore next unmarked bs).post) :
    ∃ b ∈ bs, ∃ p, Trail (fun y z => z ∈ next y) b x p ∧
      ∀ y ∈ p, y ∈ (explore next unmarked bs).post := by
  fun_induction explore next unmarked bs with
  | case1 unmarked => cases hx
  | case2 unmarked b bs hb inner rest ihInner ihRest =>
    rcases List.mem_append.mp hx with hx | hx
    · obtain ⟨c, hc, p, hp, hmem⟩ := ihInner hx
      refine ⟨b, by simp, p ++ [b], hp.cons hc, fun y hy => ?_⟩
      rcases List.mem_append.mp hy with hy | hy
      · exact List.mem_append_left _ (hmem y hy)
      · simp [List.mem_singleton.mp hy]
    · rcases List.mem_cons.mp hx with rfl | hx
      · exact ⟨x, by simp, [x], .start, by simp⟩
      · obtain ⟨c, hc, p, hp, hmem⟩ := ihRest hx
        exact ⟨c, List.mem_cons_of_mem _ hc, p, hp,
          fun y hy => List.mem_append_right _ (List.mem_cons_of_mem _ (hmem y hy))⟩
  | case3 unmarked b bs hb ih =>
    obtain ⟨c, hc, p, hp, hmem⟩ := ih hx
    exact ⟨c, List.mem_cons_of_mem _ hc, p, hp, hmem⟩

/-! ## 4. The moment in which a node is entered -/

/-- Some trail leads from `a` to `b` past `h`. -/
def LeadsPast (E : α → α → Prop) (h a b : α) : Prop := ∃ p, Trail E a b p ∧ h ∉ p

omit [DecidableEq α] in
theorem LeadsPast.refl {E : α → α → Prop} (ha : a ≠ h) : LeadsPast E h a a :=
  ⟨[a], .start, by simpa using ha.symm⟩

omit [DecidableEq α] in
theorem LeadsPast.cons {E : α → α → Prop} (hbx : LeadsPast E h b x) (hab : E a b) (ha : a ≠ h) :
    LeadsPast E h a x := by
  obtain ⟨p, hp, havoid⟩ := hbx
  exact ⟨p ++ [a], hp.cons hab, by simp [havoid, ha.symm]⟩

/-- The search that lists `post` enters `h` when `fresh` are the unmarked nodes other than `h`:
`before` has been listed until then, `after` follows `h`, and to what was marked until then there is
a way past `h`. -/
structure Entry (next : α → List α) (unmarked bs post : List α) (h : α)
    (before fresh after : List α) : Prop where
  split : post = before ++ (explore next fresh (next h)).post ++ h :: after
  sublist : fresh.Sublist unmarked
  marked : h ∉ fresh
  before : ∀ x ∈ before, x ∉ fresh
  past : ∀ x ∈ unmarked, x ∉ fresh → x ≠ h → ∃ b ∈ bs, LeadsPast (fun y z => z ∈ next y) h b x

variable {before fresh after post : List α}

/-- A node that is entered below `b`: all is reached through `b`, which is another node. -/
theorem Entry.below (hn : unmarked.Nodup) (hbh : b ≠ h)
    (he : Entry next (unmarked.erase b) (next b) post h before fresh after) (rest : List α) :
    Entry next unmarked (b :: bs) (post ++ b :: rest) h before fresh (after ++ b :: rest) := by
  refine ⟨?_, he.sublist.trans List.erase_sublist, he.marked, he.before, fun x hx hfresh hxh => ?_⟩
  · rw [he.split]
    simp
  · by_cases hxb : x = b
    · subst hxb
      exact ⟨x, by simp, .refl hbh⟩
    · obtain ⟨c, hc, hpast⟩ := he.past x (hn.mem_erase_iff.mpr ⟨hxb, hx⟩) hfresh hxh
      exact ⟨b, by simp, hpast.cons hc hbh⟩

/-- A node that is entered after `b`: what was entered with `b` was entered without it. -/
theorem Entry.behind (hn : unmarked.Nodup) (hbh : b ≠ h)
    (hh : h ∉ (explore next (unmarked.erase b) (next b)).post)
    (he : Entry next (explore next (unmarked.erase b) (next b)).left bs post h before fresh after) :
    Entry next unmarked (b :: bs) ((explore next (unmarked.erase b) (next b)).post ++ b :: post) h
      ((explore next (unmarked.erase b) (next b)).post ++ b :: before) fresh after := by
  have hleft : ∀ x, x ∈ (explore next (unmarked.erase b) (next b)).left ↔
      x ∈ unmarked.erase b ∧ x ∉ (explore next (unmarked.erase b) (next b)).post :=
    fun x => mem_left_iff (hn.erase b)
  refine ⟨?_, he.sublist.trans ((Explored.sublist _).trans List.erase_sublist), he.marked,
    fun x hx hfresh => ?_, fun x hx hfresh hxh => ?_⟩
  · rw [he.split]
    simp
  · have hx' := (hleft x).mp (he.sublist.subset hfresh)
    rcases List.mem_append.mp hx with hx | hx
    · exact hx'.2 hx
    · rcases List.mem_cons.mp hx with rfl | hx
      · exact hn.not_mem_erase hx'.1
      · exact he.before x hx hfresh
  · by_cases hxb : x = b
    · subst hxb
      exact ⟨x, by simp, .refl hbh⟩
    · by_cases hxi : x ∈ (explore next (unmarked.erase b) (next b)).post
      · obtain ⟨c, hc, p, hp, hmem⟩ := exists_trail_of_mem_post hxi
        have hpast : LeadsPast _ h c x := ⟨p, hp, fun hhp => hh (hmem h hhp)⟩
        exact ⟨b, by simp, hpast.cons hc hbh⟩
      · have hx' := (hleft x).mpr ⟨hn.mem_erase_iff.mpr ⟨hxb, hx⟩, hxi⟩
        obtain ⟨c, hc, hpast⟩ := he.past x hx' hfresh hxh
        exact ⟨c, List.mem_cons_of_mem _ hc, hpast⟩

/-- **Every node that is listed was entered at some moment.** -/
theorem exists_entry (hn : unmarked.Nodup) (hh : h ∈ (explore next unmarked bs).post) :
    ∃ before fresh after,
      Entry next unmarked bs (explore next unmarked bs).post h before fresh after := by
  fun_induction explore next unmarked bs with
  | case1 unmarked => cases hh
  | case2 unmarked b bs hb inner rest ihInner ihRest =>
    have hne := hn.erase b
    by_cases hinner : h ∈ inner.post
    · have hbh : b ≠ h := by
        rintro rfl
        exact hn.not_mem_erase (mem_unmarked_of_mem_post hinner)
      obtain ⟨before, fresh, after, he⟩ := ihInner hne hinner
      exact ⟨before, fresh, after ++ b :: rest.post, he.below hn hbh rest.post⟩
    · by_cases hbh : b = h
      · subst hbh
        refine ⟨[], unmarked.erase b, rest.post, by simp [inner], List.erase_sublist,
          hn.not_mem_erase, by simp, fun x hx hfresh hxh => ?_⟩
        exact absurd (hn.mem_erase_iff.mpr ⟨hxh, hx⟩) hfresh
      · have hrest : h ∈ rest.post := by simpa [hinner, Ne.symm hbh] using hh
        obtain ⟨before, fresh, after, he⟩ := ihRest (hne.sublist inner.sublist) hrest
        exact ⟨inner.post ++ b :: before, fresh, after, he.behind hn hbh hinner⟩
  | case3 unmarked b bs hb ih =>
    obtain ⟨before, fresh, after, he⟩ := ih hn hh
    refine ⟨before, fresh, after, he.split, he.sublist, he.marked, he.before, fun x hx hf hxh => ?_⟩
    obtain ⟨c, hc, hpast⟩ := he.past x hx hf hxh
    exact ⟨c, List.mem_cons_of_mem _ hc, hpast⟩

/-- What `h` dominates is unmarked when `h` is entered. -/
theorem Entry.mem_fresh (he : Entry next unmarked [root] post h before fresh after)
    (hx : Dominates (fun y z => z ∈ next y) root h x) (hu : x ∈ unmarked) (hxh : x ≠ h) :
    x ∈ fresh := by
  by_contra hnot
  obtain ⟨b, hb, p, hp, havoid⟩ := he.past x hu hnot hxh
  obtain rfl := List.mem_singleton.mp hb
  exact havoid (hx.2 p hp)

/-! ## 5. The first successors of a node -/

theorem idxOf_reverse_lt {l₁ l₂ : List α} (hn : (l₁ ++ l₂).Nodup) (ht : t ∈ l₁) (hx : x ∈ l₂) :
    (l₁ ++ l₂).reverse.idxOf x < (l₁ ++ l₂).reverse.idxOf t := by
  have htl : t ∉ l₂.reverse := fun h => (List.disjoint_of_nodup_append hn) ht (List.mem_reverse.mp h)
  rw [List.reverse_append, List.idxOf_append_of_mem (List.mem_reverse.mpr hx),
    List.idxOf_append_of_notMem htl]
  have := List.idxOf_lt_length_of_mem (List.mem_reverse.mpr hx)
  omega

/-- **What the first successors do not lead to is listed after them,** so that in the reverse order
it stands in front of them.  When `h` is entered, all that it dominates is unmarked; the first
successors are finished before anything is entered that they do not lead to past `h`. -/
theorem idxOf_lt_of_successor (hc : Closed next nodes) (hnodes : nodes.Nodup)
    (hroot : root ∈ nodes) {first last : List α} (hnext : next h = first ++ t :: last)
    (ht : Dominates (fun y z => z ∈ next y) root h t) (hth : t ≠ h)
    (hx : Dominates (fun y z => z ∈ next y) root h x)
    (hfar : ∀ b ∈ first ++ [t], ¬ LeadsPast (fun y z => z ∈ next y) h b x) :
    (reversePostorder next nodes root).idxOf x < (reversePostorder next nodes root).idxOf t := by
  have hmem : ∀ y, Reaches (fun y z => z ∈ next y) root y → y ∈ postorder next nodes root :=
    fun y hy => (mem_postorder_iff hc hnodes hroot).mpr hy
  have hnodup : (postorder next nodes root).Nodup := nodup_postorder hnodes hroot
  obtain ⟨before, fresh, after, he⟩ := exists_entry hnodes (hmem h hx.reaches_left)
  have hfresh : ∀ y, Dominates (fun y z => z ∈ next y) root h y → y ≠ h → y ∈ fresh :=
    fun y hy => he.mem_fresh hy (mem_unmarked_of_mem_post (hmem y hy.reaches))
  -- the list is cut right behind `t`, or right behind what `t` was entered from
  have hcut : postorder next nodes root =
      (before ++ (explore next fresh (first ++ [t])).post) ++
        ((explore next (explore next fresh (first ++ [t])).left last).post ++ h :: after) := by
    have hnext' : next h = (first ++ [t]) ++ last := by simp [hnext]
    rw [postorder, he.split, hnext', post_append]
    simp only [List.append_assoc]
  have htfirst : t ∈ before ++ (explore next fresh (first ++ [t])).post :=
    List.mem_append_right _ (mem_post_of_mem (hnodes.sublist he.sublist) (by simp) (hfresh t ht hth))
  have hxlast : x ∉ before ++ (explore next fresh (first ++ [t])).post := by
    intro hmem'
    rcases List.mem_append.mp hmem' with hb | hpost
    · by_cases hxh : x = h
      · subst hxh
        rw [hcut] at hnodup
        exact List.disjoint_of_nodup_append hnodup (List.mem_append_left _ hb) (by simp)
      · exact he.before x hb (hfresh x hx hxh)
    · obtain ⟨b, hb, p, hp, hin⟩ := exists_trail_of_mem_post hpost
      exact hfar b hb ⟨p, hp, fun hhp => he.marked (mem_unmarked_of_mem_post (hin h hhp))⟩
  have hxmem := hmem x hx.reaches
  rw [hcut] at hnodup hxmem
  rw [reversePostorder_eq hroot, hcut]
  exact idxOf_reverse_lt hnodup htfirst ((List.mem_append.mp hxmem).resolve_left hxlast)

end ShaderIR.Graph
