import ShaderIR.Proofs.Graph.Parents

/-!
# The course of the sweeps

The functions that build a dominator tree take precautions: `meet?` gives up at a parent that is not
smaller, and `settle?` counts its rounds.  Here the same loops are written down without them, as
relations that only hold if the loop comes to its end by itself:

* `Climbs`: two nodes go up until they meet;
* `Moment`: the states that the sweeps pass through;
* `Settles`: sweeps are repeated until one changes nothing.

On a numbered graph the precautions are never needed, and every node finds a placed predecessor.
-/

namespace ShaderIR.Graph.Parents

variable {up up' : Parents} {preds : Nat → List Nat} {n a b c i p : Nat} {moved : Bool}

/-! ## 1. Two nodes going up -/

/-- Of two different nodes the greater one goes to its parent, until both are `c`. -/
inductive Climbs (up : Parents) : Nat → Nat → Nat → Prop
  | meet (c : Nat) : Climbs up c c c
  | right {a b p c : Nat} : a < b → up.parent? b = some p → Climbs up a p c → Climbs up a b c
  | left {a b p c : Nat} : b < a → up.parent? a = some p → Climbs up p b c → Climbs up a b c

/-- In a tree the precautions of `meet?` make no difference. -/
theorem climbs_iff_meet? (ht : IsTree up n) : Climbs up a b c ↔ up.meet? a b = some c := by
  constructor
  · intro h
    induction h with
    | meet c => rw [meet?, if_pos rfl]
    | right hlt hp _ ih =>
      rw [meet?, if_neg (by omega), if_pos hlt]
      simp only [hp, if_pos (ht.parent hp (by omega)).1, ih]
    | left hlt hp _ ih =>
      rw [meet?, if_neg (by omega), if_neg (by omega)]
      simp only [hp, if_pos (ht.parent hp (by omega)).1, ih]
  · intro h
    fun_induction Parents.meet? up a b with
    | case1 a =>
      cases h
      exact .meet c
    | case2 a b hne hlt p hp hpb ih => exact .right hlt hp (ih h)
    | case5 a b hne hlt p hp hpa ih => exact .left (by omega) hp (ih h)
    | case3 | case4 | case6 | case7 => cases h

/-- **Two placed nodes meet at a placed node.** -/
theorem exists_climbs (ht : IsTree up n) (ha : Placed up a) (hb : Placed up b) :
    ∃ c, Climbs up a b c ∧ Placed up c := by
  obtain ⟨c, hc, hplaced, -⟩ := meet?_spec ht ha hb
  exact ⟨c, (climbs_iff_meet? ht).mpr hc, hplaced⟩

/-! ## 2. The states of the sweeps -/

/-- In the tree `up` it is the turn of node `c`; `moved` tells whether this sweep has moved a node.
At `n` a sweep is over, and if it has moved a node, the next one begins. -/
inductive Moment (preds : Nat → List Nat) (n : Nat) : Nat → Parents → Bool → Prop
  | start : Moment preds n 1 (rooted n) false
  | move {c : Nat} {up up' : Parents} {moved moved' : Bool} : Moment preds n c up moved → c < n →
      move? preds (up, moved) c = some (up', moved') → Moment preds n (c + 1) up' moved'
  | again {up : Parents} : Moment preds n n up true → Moment preds n 1 up false

/-- What is known in the course of a sweep is known at every moment of all of them. -/
theorem Moment.progress (hn : Numbered preds n) (h : Moment preds n c up moved) :
    Progress preds n c up ∧ 0 < c := by
  induction h with
  | start => exact ⟨progress_rooted, Nat.one_pos⟩
  | @move c up up' moved moved' _ hcn hmove ih =>
    obtain ⟨after, hafter, hprogress, -⟩ := move?_spec hn ih.1 ih.2 hcn moved
    obtain rfl : (up', moved') = after := Option.some.inj (hmove.symm.trans hafter)
    exact ⟨hprogress, by omega⟩
  | again _ ih => exact ⟨ih.1.restart, Nat.one_pos⟩

/-- **At every moment the next node finds a placed predecessor, and the move succeeds.** -/
theorem Moment.exists_move (hn : Numbered preds n) (h : Moment preds n c up moved) (hcn : c < n) :
    (∃ q ∈ preds c, Placed up q) ∧
      ∃ p after, up.place? (preds c) = some (some p) ∧ move? preds (up, moved) c = some after := by
  obtain ⟨hprogress, hc⟩ := h.progress hn
  obtain ⟨q, hq, hqc⟩ := hn.earlier hc hcn
  obtain ⟨p, hp, -⟩ := hprogress.exists_place hn hc hcn
  obtain ⟨after, hafter, -⟩ := move?_spec hn hprogress hc hcn moved
  exact ⟨⟨q, hq, hprogress.placed hqc (by omega)⟩, p, after, hp, hafter⟩

/-! ## 3. All sweeps -/

/-- Sweeps that end with a tree in which none of them moves a node any more. -/
inductive Settles (preds : Nat → List Nat) (n : Nat) : Parents → Parents → Prop
  | stop {up up' : Parents} : sweep? preds n up = some (up', false) → Settles preds n up up'
  | again {up up' last : Parents} : sweep? preds n up = some (up', true) →
      Settles preds n up' last → Settles preds n up last

theorem settles_of_settle? {rounds : Nat} (h : settle? preds n rounds up = some up') :
    Settles preds n up up' := by
  induction rounds generalizing up with
  | zero => cases h
  | succ rounds ih =>
    rw [settle?] at h
    cases hsweep : sweep? preds n up with
    | none => simp [hsweep] at h
    | some after =>
      obtain ⟨up₁, moved⟩ := after
      simp only [hsweep] at h
      cases moved with
      | true => exact .again hsweep (ih h)
      | false =>
        cases h
        exact .stop hsweep

/-- **The sweeps come to an end,** and it is the tree that `immediate?` finds. -/
theorem exists_settles (hn : Numbered preds n) :
    ∃ last, immediate? preds n = some last ∧ Settles preds n (rooted n) last := by
  obtain ⟨last, hlast, -⟩ := immediate?_spec hn
  exact ⟨last, hlast, settles_of_settle? hlast⟩

/-- **After the first sweep every node is placed.** -/
theorem exists_first_sweep (hn : Numbered preds n) :
    ∃ first moved, sweep? preds n (rooted n) = some (first, moved) ∧
      ∀ i, i < n → Placed first i := by
  obtain ⟨⟨first, moved⟩, hsweep, hprogress, -⟩ := sweep?_spec hn progress_rooted
  exact ⟨first, moved, hsweep, fun i hi => hprogress.placed hi hi⟩

end ShaderIR.Graph.Parents
