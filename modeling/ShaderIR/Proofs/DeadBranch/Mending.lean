import ShaderIR.DeadBranch.PhiRepair
import ShaderIR.Proofs.Constants
import ShaderIR.Proofs.Instruction.Operands

/-!
# What mending does to phis

A mended phi has the pairs of the old one whose parents branch to the block, and behind them pairs
of undefined values for the reachable predecessors that had none.  `PhiRepair.Mends` says this of
one phi; the rest of the file shows that `mendPhi` and `mendPhis` do it, and what they change on the
side.

* `phiIncoming_mended`: the pairs of a mended phi;
* `loses_iff`: when pairs are dropped;
* `mendPhi_spec`, `mendPhis_spec`: one phi and several;
* `mendPhis_of_matching`: phis that match the predecessors are left alone;
* `mendPhis_quiet`: so are those that are not marked as changed.
-/

namespace ShaderIR

namespace PhiRepair

variable {parents : PhiParents} {phi phi' : Instruction} {supplied : List (Id × Id)}
  {s s' : PhiRepair} {T T' : ConstantTable} {P : Id → Prop}

/-! ## 1. Mended phis -/

/-- Whether a pair of operands stays: its parent branches to the block, or it is no pair of ids. -/
def keepsPair (parents : PhiParents) (p : Operand × Operand) : Bool :=
  match Instruction.incomingPair? p with
  | some (_, parent) => parents.all.contains parent
  | none => true

/-- A phi without the pairs that do not stay and with the given pairs behind the others. -/
def mended (parents : PhiParents) (phi : Instruction) (supplied : List (Id × Id)) : Instruction :=
  { phi with
    operands := unpair ((pairs phi.operands).filter (keepsPair parents)
      ++ supplied.map (fun p => (.ref p.1, .ref p.2))) }

theorem retainIncoming_eq (parents : PhiParents) (phi : Instruction) :
    phi.retainIncoming (fun _ parent => parents.all.contains parent) = mended parents phi [] := by
  simp only [mended, List.map_nil, List.append_nil, Instruction.retainIncoming]
  rfl

theorem pushIncoming_mended (value parent : Id) :
    (mended parents phi supplied).pushIncoming value parent =
      mended parents phi (supplied ++ [(value, parent)]) := by
  simp only [mended, Instruction.pushIncoming, List.map_append, ← List.append_assoc, unpair_append,
    List.map_cons, List.map_nil]
  rfl

/-- **The pairs of a mended phi** are those of the phi whose parents branch to the block, and the
given ones. -/
@[simp] theorem phiIncoming_mended (parents : PhiParents) (phi : Instruction)
    (supplied : List (Id × Id)) :
    (mended parents phi supplied).phiIncoming =
      phi.phiIncoming.filter (fun p => parents.all.contains p.2) ++ supplied := by
  have hkept : ((pairs phi.operands).filter (keepsPair parents)).filterMap Instruction.incomingPair? =
      phi.phiIncoming.filter (fun p => parents.all.contains p.2) := by
    rw [Instruction.phiIncoming, List.filter_filterMap, List.filterMap_filter]
    refine List.filterMap_congr (fun p _ => ?_)
    unfold keepsPair
    cases Instruction.incomingPair? p with
    | none => rfl
    | some q =>
      simp only [Option.filter_some]
  have hsupplied : (supplied.map (fun p => (Operand.ref p.1, Operand.ref p.2))).filterMap
      Instruction.incomingPair? = supplied := by
    rw [List.filterMap_map]
    exact List.filterMap_some
  rw [Instruction.phiIncoming, mended, pairs_unpair, List.filterMap_append, hkept, hsupplied]

/-- A phi loses pairs if a parent it names does not branch to the block. -/
def Loses (parents : PhiParents) (phi : Instruction) : Prop :=
  ∃ p ∈ phi.phiIncoming, p.2 ∉ parents.all

theorem loses_iff : 0 < phi.droppedIncoming (fun _ parent => parents.all.contains parent) ↔
    Loses parents phi := by
  have hlen : phi.droppedIncoming (fun _ parent => parents.all.contains parent) =
      (pairs phi.operands).length - ((pairs phi.operands).filter (keepsPair parents)).length := by
    rw [Instruction.droppedIncoming, retainIncoming_eq, mended, length_pairs]
    simp [length_unpair]
  have hle := List.length_filter_le (keepsPair parents) (pairs phi.operands)
  rw [hlen]
  constructor
  · intro hlt
    have hne : ¬ ∀ p ∈ pairs phi.operands, keepsPair parents p = true := by
      intro hall
      rw [List.filter_eq_self.mpr hall] at hlt
      omega
    obtain ⟨p, hp, hkeep⟩ : ∃ p ∈ pairs phi.operands, ¬ keepsPair parents p = true := by
      simpa using hne
    unfold keepsPair at hkeep
    split at hkeep
    · rename_i v parent hpair
      exact ⟨(v, parent), List.mem_filterMap.mpr ⟨p, hp, hpair⟩, by simpa using hkeep⟩
    · exact absurd rfl hkeep
  · rintro ⟨q, hq, hnot⟩
    obtain ⟨p, hp, hpair⟩ := List.mem_filterMap.mp hq
    have hkeep : keepsPair parents p = false := by
      unfold keepsPair
      rw [hpair]
      simpa using hnot
    have hne : ((pairs phi.operands).filter (keepsPair parents)).length ≠
        (pairs phi.operands).length := by
      intro he
      have := List.length_filter_eq_length_iff.mp he p hp
      rw [hkeep] at this
      cases this
    omega

theorem prune_eq (parents : PhiParents) (s : PhiRepair) (phi : Instruction) :
    prune parents s phi =
      (if 0 < phi.droppedIncoming (fun _ parent => parents.all.contains parent) then
        { s with pruned := s.pruned ++ phi.result?.toList, changed := true } else s,
        mended parents phi []) := by
  unfold prune
  simp only [retainIncoming_eq]
  split <;> rfl

/-- One phi is another one mended: of the pairs put behind, each is the undefined value of the type
for a reachable predecessor without a pair, and with a type every such predecessor gets one. -/
def Mends (T : ConstantTable) (parents : PhiParents) (phi phi' : Instruction) : Prop :=
  ∃ supplied, phi' = mended parents phi supplied ∧
    (∀ p ∈ supplied, p.2 ∈ parents.live ∧
      (∀ q ∈ phi.phiIncoming, q.2 ∈ parents.all → q.2 ≠ p.2) ∧
      ∃ type, phi.type? = some type ∧ T.undefs.get? type = some p.1) ∧
    (phi.type?.isSome → ∀ l ∈ parents.live, ∃ p ∈ phi'.phiIncoming, p.2 = l)

theorem Mends.mono (h : Mends T parents phi phi')
    (hT : ∀ type u, T.undefs.get? type = some u → T'.undefs.get? type = some u) :
    Mends T' parents phi phi' := by
  obtain ⟨supplied, rfl, hsup, hcover⟩ := h
  refine ⟨supplied, rfl, fun p hp => ?_, hcover⟩
  obtain ⟨hlive, hnew, type, htype, hu⟩ := hsup p hp
  exact ⟨hlive, hnew, type, htype, hT type _ hu⟩

theorem Mends.same (h : Mends T parents phi phi') :
    phi'.opcode = phi.opcode ∧ phi'.type? = phi.type? ∧ phi'.result? = phi.result? := by
  obtain ⟨supplied, rfl, -⟩ := h
  exact ⟨rfl, rfl, rfl⟩

/-! ## 2. What mending changes on the side -/

/-- Mending leaves function and replacements alone and takes no mark of a change back; the table
grows. -/
structure Mending (P : Id → Prop) (s s' : PhiRepair) : Prop where
  function : s'.function = s.function
  replacements : s'.replacements = s.replacements
  grows : ConstantTable.Grows P s.constants s.ids s'.constants s'.ids
  quiet : s'.changed = false → s.changed = false

theorem Mending.refl (P : Id → Prop) (s : PhiRepair) : Mending P s s :=
  ⟨rfl, rfl, .refl, id⟩

theorem Mending.trans {s₁ s₂ s₃ : PhiRepair} (h : Mending P s₁ s₂) (h' : Mending P s₂ s₃) :
    Mending P s₁ s₃ := by
  exact ⟨h'.function.trans h.function, h'.replacements.trans h.replacements,
    h.grows.trans h'.grows, fun hq => h.quiet (h'.quiet hq)⟩

/-- The results of the phis that lose pairs. -/
def lost (parents : PhiParents) (phis : List Instruction) : List Id :=
  phis.flatMap (fun phi =>
    if 0 < phi.droppedIncoming (fun _ parent => parents.all.contains parent) then
      phi.result?.toList else [])

theorem mem_lost {phis : List Instruction} {x : Id} :
    x ∈ lost parents phis ↔ ∃ phi ∈ phis, Loses parents phi ∧ phi.result? = some x := by
  simp only [lost, List.mem_flatMap]
  refine exists_congr (fun phi => and_congr_right (fun _ => ?_))
  rw [← loses_iff]
  split
  · rename_i hpos
    simp only [Option.mem_toList, hpos, true_and]
  · rename_i hpos
    simp only [List.not_mem_nil, hpos, false_and]

theorem prune_spec (P : Id → Prop) (parents : PhiParents) (s : PhiRepair) (phi : Instruction) :
    Mending P s (prune parents s phi).1 ∧
      (prune parents s phi).1.pruned = s.pruned ++ lost parents [phi] ∧
      (prune parents s phi).2 = mended parents phi [] := by
  rw [prune_eq]
  simp only [lost, List.flatMap_cons, List.flatMap_nil, List.append_nil]
  split
  · exact ⟨⟨rfl, rfl, .refl, fun h => by simp at h⟩, rfl, trivial⟩
  · exact ⟨.refl P s, by simp, trivial⟩

/-- Undefined values are being supplied to a phi: the parents in `done` have been looked at, and the
pairs in `supplied` have been put behind the others. -/
structure Supplying (P : Id → Prop) (parents : PhiParents) (phi : Instruction) (s : PhiRepair)
    (done : List Id) (state : PhiRepair × Instruction) (supplied : List (Id × Id)) : Prop where
  mending : Mending P s state.1
  pruned : state.1.pruned = s.pruned
  eq : state.2 = mended parents phi supplied
  new : ∀ p ∈ supplied, p.2 ∈ done ∧
    (∀ q ∈ phi.phiIncoming, q.2 ∈ parents.all → q.2 ≠ p.2) ∧
    ∃ type, phi.type? = some type ∧ state.1.constants.undefs.get? type = some p.1
  cover : ∀ l ∈ done, ∃ p ∈ state.2.phiIncoming, p.2 = l

/-- One more parent. -/
theorem Supplying.step {type l : Id} (htype : phi.type? = some type) (hP : P type)
    {done : List Id} {state state' : PhiRepair × Instruction}
    (hs : Supplying P parents phi s done state supplied)
    (h : supplyParent type state l = .ok state') :
    ∃ supplied', Supplying P parents phi s (done ++ [l]) state' supplied' := by
  obtain ⟨s₁, phi₁⟩ := state
  obtain rfl : phi₁ = mended parents phi supplied := hs.eq
  simp only [supplyParent] at h
  split at h
  · rename_i hhas
    cases h
    refine ⟨supplied, hs.mending, hs.pruned, rfl, ?_,
      List.forall_mem_append.mpr ⟨hs.cover, List.forall_mem_singleton.mpr ?_⟩⟩
    · intro p hp
      obtain ⟨hdone, hrest⟩ := hs.new p hp
      exact ⟨List.mem_append_left _ hdone, hrest⟩
    · obtain ⟨p, hp, hpl⟩ := List.any_eq_true.mp hhas
      exact ⟨p, hp, by simpa using hpl⟩
  · rename_i hhas
    obtain ⟨⟨u, T, ids⟩, hundef, h⟩ := bind_eq_ok.mp h
    cases h
    have hgrow : ConstantTable.Grows P s₁.constants s₁.ids T ids := .undef .refl hP hundef
    refine ⟨supplied ++ [(u, l)], hs.mending.trans ⟨rfl, rfl, hgrow, fun h => by simp at h⟩,
      hs.pruned, pushIncoming_mended u l,
      List.forall_mem_append.mpr ⟨?_, List.forall_mem_singleton.mpr ?_⟩,
      List.forall_mem_append.mpr ⟨?_, List.forall_mem_singleton.mpr ?_⟩⟩
    · intro p hp
      obtain ⟨hdone, hnew, t, ht, hu⟩ := hs.new p hp
      exact ⟨List.mem_append_left _ hdone, hnew, t, ht, hgrow.undefs_mono hu⟩
    · refine ⟨by simp, ?_, type, htype, (ConstantTable.undef_cases hundef).1⟩
      intro q hq hall he
      refine hhas (List.any_eq_true.mpr ⟨q, ?_, by simpa using he⟩)
      rw [phiIncoming_mended]
      exact List.mem_append_left _ (List.mem_filter.mpr ⟨hq, by simpa using hall⟩)
    · intro l' hl'
      obtain ⟨p, hp, hpl⟩ := hs.cover l' hl'
      refine ⟨p, ?_, hpl⟩
      rw [phiIncoming_mended] at hp
      rw [pushIncoming_mended, phiIncoming_mended, ← List.append_assoc]
      exact List.mem_append_left _ hp
    · exact ⟨(u, l), by simp [pushIncoming_mended], rfl⟩

/-- **Supplying undefined values** to the parents of a list. -/
theorem supply_spec {type : Id} (htype : phi.type? = some type) (hP : P type) {ls : List Id}
    (h : ls.foldlM (supplyParent type) (s, mended parents phi []) = .ok (s', phi')) :
    ∃ supplied, Supplying P parents phi s ls (s', phi') supplied := by
  refine foldlM_induct_done
    (P := fun done state => ∃ supplied, Supplying P parents phi s done state supplied) h
    ⟨[], .refl P s, rfl, rfl, by simp, by simp⟩ ?_
  rintro done l after state state' - ⟨supplied, hs⟩ hstep
  exact hs.step htype hP hstep

/-! ## 3. Mending phis -/

/-- **One phi is mended.** -/
theorem mendPhi_spec (hP : ∀ t, phi.type? = some t → P t)
    (h : mendPhi parents s phi = .ok (s', phi')) :
    Mending P s s' ∧ s'.pruned = s.pruned ++ lost parents [phi] ∧
      Mends s'.constants parents phi phi' := by
  obtain ⟨hm, hpr, hphi⟩ := prune_spec P parents s phi
  unfold mendPhi at h
  split at h
  · rename_i type htype
    have hpair : prune parents s phi = ((prune parents s phi).1, mended parents phi []) :=
      Prod.ext rfl hphi
    rw [hpair] at h
    obtain ⟨supplied, hs⟩ := supply_spec htype (hP type htype) h
    exact ⟨hm.trans hs.mending, hs.pruned.trans hpr, supplied, hs.eq, hs.new, fun _ => hs.cover⟩
  · rename_i htype
    have hpair : (s', phi') = prune parents s phi := (Except.ok.inj h).symm
    obtain ⟨rfl, rfl⟩ := Prod.mk.inj hpair
    exact ⟨hm, hpr, [], hphi, by simp, fun hsome => by simp [htype] at hsome⟩

/-- **Phis are mended one after the other.** -/
theorem mendPhis_spec {phis phis' : List Instruction}
    (hP : ∀ phi ∈ phis, ∀ t, phi.type? = some t → P t)
    (h : mendPhis parents s phis = .ok (s', phis')) :
    Mending P s s' ∧ s'.pruned = s.pruned ++ lost parents phis ∧
      List.Forall₂ (Mends s'.constants parents) phis phis' := by
  induction phis generalizing s phis' with
  | nil =>
    cases h
    exact ⟨.refl P _, by simp [lost], .nil⟩
  | cons phi phis ih =>
    unfold mendPhis at h
    obtain ⟨⟨s₁, phi₁⟩, hphi, h⟩ := bind_eq_ok.mp h
    obtain ⟨⟨s₂, phis₂⟩, hphis, h⟩ := bind_eq_ok.mp h
    cases h
    obtain ⟨hm₁, hpr₁, hmend₁⟩ := mendPhi_spec (hP phi (by simp)) hphi
    obtain ⟨hm₂, hpr₂, hmend₂⟩ := ih (fun phi' hphi' => hP phi' (by simp [hphi'])) hphis
    refine ⟨hm₁.trans hm₂, ?_, .cons (hmend₁.mono fun _ _ hu => hm₂.grows.undefs_mono hu) hmend₂⟩
    rw [hpr₂, hpr₁]
    simp [lost]

/-! ## 4. Phis that match the predecessors -/

/-- A phi that loses no pair is not pruned.  An odd last operand would go. -/
theorem prune_of_not_loses (heven : phi.operands.length % 2 = 0) (hnot : ¬ Loses parents phi) :
    prune parents s phi = (s, phi) := by
  have hkeep : (pairs phi.operands).filter (keepsPair parents) = pairs phi.operands := by
    refine List.filter_eq_self.mpr (fun p hp => ?_)
    unfold keepsPair
    split
    · rename_i v parent hpair
      by_contra hgone
      exact hnot ⟨(v, parent), List.mem_filterMap.mpr ⟨p, hp, hpair⟩, by simpa using hgone⟩
    · rfl
  have hsame : mended parents phi [] = phi := by
    simp [mended, hkeep, unpair_pairs heven]
  rw [prune_eq, if_neg (fun h => hnot (loses_iff.mp h)), hsame]

/-- A phi whose pairs are those of the predecessors is not changed. -/
theorem mendPhi_of_matching (heven : phi.operands.length % 2 = 0)
    (hpairs : ∀ p ∈ phi.phiIncoming, p.2 ∈ parents.all)
    (hcover : phi.type?.isSome → ∀ l ∈ parents.live, ∃ p ∈ phi.phiIncoming, p.2 = l) :
    mendPhi parents s phi = .ok (s, phi) := by
  have hprune : prune parents s phi = (s, phi) := by
    refine prune_of_not_loses heven ?_
    rintro ⟨p, hp, hn⟩
    exact hn (hpairs p hp)
  unfold mendPhi
  split
  · rename_i type htype
    rw [hprune]
    refine foldlM_fixed (fun l hl => ?_)
    have hhas : phi.phiIncoming.any (fun p => p.2 = l) = true := by
      simpa using hcover (by simp [htype]) l hl
    simp only [supplyParent, hhas, if_true]
  · rw [hprune]

theorem mendPhis_of_matching {phis : List Instruction}
    (h : ∀ phi ∈ phis, phi.operands.length % 2 = 0 ∧ (∀ p ∈ phi.phiIncoming, p.2 ∈ parents.all) ∧
      (phi.type?.isSome → ∀ l ∈ parents.live, ∃ p ∈ phi.phiIncoming, p.2 = l)) :
    mendPhis parents s phis = .ok (s, phis) := by
  induction phis with
  | nil => rfl
  | cons phi phis ih =>
    obtain ⟨heven, hpairs, hcover⟩ := h phi (by simp)
    rw [mendPhis, mendPhi_of_matching heven hpairs hcover]
    simp only [bind, Except.bind]
    rw [ih (fun phi' hphi' => h phi' (by simp [hphi']))]

/-! ## 5. Mending that is not marked as a change -/

theorem supplyParent_quiet {type l : Id} {t t' : PhiRepair × Instruction}
    (h : supplyParent type t l = .ok t') (hquiet : t'.1.changed = false) : t' = t := by
  unfold supplyParent at h
  dsimp only at h
  split at h
  · exact (Except.ok.inj h).symm
  · obtain ⟨undef, -, hpush⟩ := bind_eq_ok.mp h
    cases hpush
    cases hquiet

/-- A phi that is not marked as changed has lost no pair and got none. -/
theorem mendPhi_unmarked (h : mendPhi parents s phi = .ok (s', phi'))
    (hquiet : s'.changed = false) : ¬ Loses parents phi ∧ (s', phi') = prune parents s phi := by
  have hprune : (s', phi') = prune parents s phi := by
    unfold mendPhi at h
    split at h
    · exact (foldlM_quiet (Q := fun t => t.1.changed = false) h hquiet
        (fun t l t' ht hq => supplyParent_quiet ht hq ▸ hq)
        (fun l _ t' ht hq => supplyParent_quiet ht hq)).1
    · exact (Except.ok.inj h).symm
  refine ⟨fun hloses => ?_, hprune⟩
  rw [prune_eq, if_pos (loses_iff.mpr hloses)] at hprune
  rw [(Prod.mk.inj hprune).1] at hquiet
  cases hquiet

theorem mendPhi_quiet (heven : phi.operands.length % 2 = 0)
    (h : mendPhi parents s phi = .ok (s', phi')) (hquiet : s'.changed = false) :
    s' = s ∧ phi' = phi := by
  obtain ⟨hnot, hprune⟩ := mendPhi_unmarked h hquiet
  rw [prune_of_not_loses heven hnot] at hprune
  exact Prod.mk.inj hprune

theorem mendPhis_quiet {phis phis' : List Instruction}
    (heven : ∀ phi ∈ phis, phi.operands.length % 2 = 0)
    (h : mendPhis parents s phis = .ok (s', phis')) (hquiet : s'.changed = false) :
    s' = s ∧ phis' = phis := by
  induction phis generalizing s phis' with
  | nil =>
    cases h
    exact ⟨rfl, rfl⟩
  | cons phi phis ih =>
    unfold mendPhis at h
    obtain ⟨⟨s₁, phi₁⟩, hphi, h⟩ := bind_eq_ok.mp h
    obtain ⟨⟨s₂, phis₂⟩, hphis, h⟩ := bind_eq_ok.mp h
    cases h
    obtain ⟨rfl, rfl⟩ := ih (fun phi' hphi' => heven phi' (by simp [hphi'])) hphis
    obtain ⟨rfl, rfl⟩ := mendPhi_quiet (heven phi (by simp)) hphi hquiet
    exact ⟨rfl, rfl⟩

end PhiRepair
end ShaderIR
