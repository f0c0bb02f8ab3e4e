import Mathlib.Data.List.TakeWhile
import ShaderIR.Selection
import ShaderIR.Proofs.Runs

/-!
# The parts of a block

A finished block is a body, perhaps a merge declaration, and a terminator (`Block.Parts`).  Every
reader of the end of a block is determined by these parts, and so is what the edits of a selection
header do to it:

* `Parts.terminator?_eq`, `Parts.mergeInstruction?_eq`, `Parts.targets_eq`: reading the end;
* `Parts.phis_eq`, `Parts.afterPhis_eq`: the leading phis are those of the body;
* `Parts.selection?_eq_some_iff`: which blocks are selection headers;
* `foldSelection_eq_ok`, `narrowSelection_eq_ok`: new ends for a selection header;
* `foldSelection_of_end`, `narrowSelection_of_end`: they can be put on if the rest has no terminator.
-/

namespace ShaderIR

namespace Opcode

variable {o : Opcode}

theorem isPhi_iff : o.isPhi = true ↔ o = .phi := by
  cases o <;> decide

theorem isMerge_iff : o.isMerge = true ↔ o = .selectionMerge ∨ o = .loopMerge := by
  cases o <;> decide

theorem isTerminator_of_isMerge (h : o.isMerge = true) : o.isTerminator = false := by
  rcases isMerge_iff.mp h with rfl | rfl <;> rfl

theorem isPhi_of_isMerge (h : o.isMerge = true) : o.isPhi = false := by
  rcases isMerge_iff.mp h with rfl | rfl <;> rfl

theorem isPhi_of_isTerminator (h : o.isTerminator = true) : o.isPhi = false := by
  revert h
  cases o <;> decide

end Opcode

theorem Instruction.hasReadableTargets_of_not_isTerminator {i : Instruction}
    (h : i.opcode.isTerminator = false) : i.hasReadableTargets = true := by
  have hne : i.opcode ≠ .branchConditional := by
    intro ho
    rw [ho] at h
    exact absurd h (by decide)
  simp [hasReadableTargets, hne]

namespace Block

variable {b : Block} {body : List Instruction} {merge? : Option Instruction} {t : Instruction}

theorem mem_of_mem_phis {k : Block} {phi : Instruction} (h : phi ∈ k.phis) :
    phi ∈ k.instructions ∧ phi.opcode.isPhi = true := by
  unfold phis at h
  have hphi := List.mem_takeWhile_imp h
  exact ⟨(List.takeWhile_prefix _).subset h, hphi⟩

/-- What is no phi does not lead a block. -/
theorem phis_append {l : Id} {rest : List Instruction} (h : ∀ i ∈ rest, i.opcode.isPhi = false) :
    (Block.mk l (body ++ rest)).phis = body.takeWhile (fun i => i.opcode.isPhi) := by
  rw [phis, List.takeWhile_append]
  split
  · rename_i hall
    have hself : body.takeWhile (fun i => i.opcode.isPhi) = body :=
      (List.takeWhile_prefix _).eq_of_length hall
    cases rest with
    | nil => simp [hself]
    | cons i rest => simp [h i (by simp), hself]
  · rfl

/-- The block is the body, the merge declaration if there is one, and the terminator; the body has
neither merge declarations nor terminators. -/
structure Parts (b : Block) (body : List Instruction) (merge? : Option Instruction)
    (t : Instruction) : Prop where
  eq : b.instructions = body ++ merge?.toList ++ [t]
  body : ∀ i ∈ body, i.opcode.isTerminator = false ∧ i.opcode.isMerge = false
  merge : ∀ i, merge? = some i → i.opcode.isMerge = true
  last : t.opcode.isTerminator = true

namespace Parts

/-! ## 1. Reading the end of a block -/

theorem terminator?_eq (h : b.Parts body merge? t) : b.terminator? = some t := by
  simp [terminator?, h.eq, h.last]

theorem mergeInstruction?_eq (h : b.Parts body merge? t) : b.mergeInstruction? = merge? := by
  unfold mergeInstruction?
  cases merge? with
  | some i => simp [h.eq, h.last, h.merge i rfl]
  | none =>
    cases hrev : body.reverse with
    | nil => simp [h.eq, hrev]
    | cons i is =>
      have hi : i ∈ body := List.mem_reverse.mp (hrev ▸ List.mem_cons_self)
      simp [h.eq, hrev, (h.body i hi).2]

theorem targets_eq (h : b.Parts body merge? t) : b.targets = t.branchTargets := by
  simp [Block.targets, h.terminator?_eq]

theorem mergeAndContinue?_eq (h : b.Parts body merge? t) :
    b.mergeAndContinue? = merge?.bind Instruction.mergeTargets? := by
  rw [mergeAndContinue?, h.mergeInstruction?_eq]

theorem mem_instructions_iff (h : b.Parts body merge? t) {i : Instruction} :
    i ∈ b.instructions ↔ i ∈ body ∨ merge? = some i ∨ i = t := by
  rw [h.eq]
  simp

theorem eq_last (h : b.Parts body merge? t) {i : Instruction} (hi : i ∈ b.instructions)
    (hlast : i.opcode.isTerminator = true) : i = t := by
  rcases h.mem_instructions_iff.mp hi with hmem | hmerge | rfl
  · simp [(h.body i hmem).1] at hlast
  · simp [Opcode.isTerminator_of_isMerge (h.merge i hmerge)] at hlast
  · rfl

/-- The parts of a block are determined by its instructions. -/
theorem unique (h : b.Parts body merge? t) {body' : List Instruction}
    {merge?' : Option Instruction} {t' : Instruction} (h' : b.Parts body' merge?' t') :
    body' = body ∧ merge?' = merge? ∧ t' = t := by
  have ht : t' = t := by
    have := h'.terminator?_eq
    rw [h.terminator?_eq] at this
    exact (Option.some.inj this).symm
  have hm : merge?' = merge? := h'.mergeInstruction?_eq.symm.trans h.mergeInstruction?_eq
  refine ⟨?_, hm, ht⟩
  have he := h'.eq
  rw [h.eq, ht, hm] at he
  exact (List.append_cancel_right (List.append_cancel_right he)).symm

/-- Merge declarations and terminators are no phis: the leading phis are those of the body. -/
theorem end_not_phi (h : b.Parts body merge? t) :
    ∀ i ∈ merge?.toList ++ [t], i.opcode.isPhi = false := by
  intro i hi
  rcases List.mem_append.mp hi with hi | hi
  · exact Opcode.isPhi_of_isMerge (h.merge i (by simpa using hi))
  · obtain rfl : i = t := by simpa using hi
    exact Opcode.isPhi_of_isTerminator h.last

theorem phis_eq (h : b.Parts body merge? t) :
    b.phis = body.takeWhile (fun i => i.opcode.isPhi) := by
  rw [← phis_append h.end_not_phi (l := b.label), ← List.append_assoc, ← h.eq]

theorem afterPhis_eq (h : b.Parts body merge? t) :
    b.afterPhis = body.dropWhile (fun i => i.opcode.isPhi) ++ merge?.toList ++ [t] := by
  have htake : b.phis ++ b.afterPhis = b.instructions := List.takeWhile_append_dropWhile
  rw [h.phis_eq, h.eq] at htake
  have hsplit : body.takeWhile (fun i => i.opcode.isPhi) ++
      (body.dropWhile (fun i => i.opcode.isPhi) ++ merge?.toList ++ [t]) =
        body ++ merge?.toList ++ [t] := by
    simp [← List.append_assoc]
  exact List.append_cancel_left (htake.trans hsplit.symm)

/-! ## 2. Selection headers -/

theorem selection?_eq_some_iff (h : b.Parts body merge? t) {sel : SelectionBranch} :
    b.selection? = some sel ↔
      ∃ i, merge? = some i ∧ i.opcode = .selectionMerge ∧
        (t.opcode = .branchConditional ∨ t.opcode = .switch) ∧
        i.idOperand? 0 = some sel.merge ∧ t.idOperand? 0 = some sel.condition ∧ sel.branch = t := by
  rw [selection?, h.terminator?_eq, h.mergeInstruction?_eq]
  cases merge? with
  | none => simp
  | some i =>
    by_cases hm : i.opcode = .selectionMerge
    · by_cases ht : t.opcode = .branchConditional ∨ t.opcode = .switch
      · obtain ⟨branch, merge, condition⟩ := sel
        simp only [Option.bind_eq_bind, Option.bind_some, hm, ht, decide_true, Bool.true_and,
          Bool.or_eq_true, decide_eq_true_eq, if_true, Option.some.injEq, exists_eq_left', true_and,
          Option.bind_eq_some_iff, SelectionBranch.mk.injEq]
        constructor
        · rintro ⟨m, hm, c, hc, rfl, rfl, rfl⟩
          exact ⟨hm, hc, rfl⟩
        · rintro ⟨hm, hc, rfl⟩
          exact ⟨merge, hm, condition, hc, rfl, rfl, rfl⟩
      · simp [hm, ht]
    · simp [hm]

end Parts

/-! ## 3. New ends for selection headers

A header that is not finished as it should be has an end all the same, and its edits touch nothing
else. -/

/-- The end of a selection header. -/
theorem exists_end_of_selection? {sel : SelectionBranch} (h : b.selection? = some sel) :
    ∃ body i, b.instructions = body ++ [i, sel.branch] ∧ i.opcode = .selectionMerge ∧
      (sel.branch.opcode = .branchConditional ∨ sel.branch.opcode = .switch) ∧
      i.idOperand? 0 = some sel.merge ∧ sel.branch.idOperand? 0 = some sel.condition := by
  obtain ⟨t, hterm, h⟩ := Option.bind_eq_some_iff.mp h
  obtain ⟨i, hmerge, h⟩ := Option.bind_eq_some_iff.mp h
  split at h
  · rename_i hop
    obtain ⟨m, hm, h⟩ := Option.bind_eq_some_iff.mp h
    obtain ⟨c, hc, h⟩ := Option.bind_eq_some_iff.mp h
    cases h
    obtain ⟨hi, ht⟩ : i.opcode = .selectionMerge ∧
        (t.opcode = .branchConditional ∨ t.opcode = .switch) := by simpa using hop
    have hlast := (Option.filter_eq_some_iff.mp hterm).1
    unfold mergeInstruction? at hmerge
    split at hmerge
    · rename_i last merge rest hrev
      split at hmerge
      · cases hmerge
        have heq : b.instructions = rest.reverse ++ [i, last] := by
          rw [← List.reverse_reverse b.instructions, hrev]
          simp
        obtain rfl : last = t := by simpa [heq] using hlast
        exact ⟨rest.reverse, i, heq, hi, ht, hm, hc⟩
      · cases hmerge
    · cases hmerge
  · cases h

theorem push_eq_ok {b' : Block} {i : Instruction} (h : b.push i = .ok b') :
    b' = { b with instructions := b.instructions ++ [i] } := by
  unfold push at h
  split at h
  · cases h
  · exact (Except.ok.inj h).symm

theorem removeSelection_eq_ok {b' : Block} {i : Instruction}
    (heq : b.instructions = body ++ [i, t]) (h : b.removeSelection = .ok b') :
    b' = ⟨b.label, body⟩ := by
  unfold removeSelection at h
  split at h
  · have hpop : b.instructions = (body ++ [i]) ++ [t] := by simp [heq]
    rw [← Except.ok.inj h]
    simp [pop, hpop]
  · cases h

theorem label_push {b' : Block} {i : Instruction} (h : b.push i = .ok b') : b'.label = b.label := by
  rw [push_eq_ok h]

theorem label_removeSelection {b' : Block} (h : b.removeSelection = .ok b') :
    b'.label = b.label := by
  unfold removeSelection at h
  split at h
  · cases h
    rfl
  · cases h

/-- The edits of a selection header leave its label alone. -/
theorem label_foldSelection {b' : Block} {target : Id} (h : b.foldSelection target = .ok b') :
    b'.label = b.label := by
  obtain ⟨b₁, hremove, h⟩ := bind_eq_ok.mp h
  rw [label_push h, label_removeSelection hremove]

theorem label_narrowSelection {b' : Block} {merge cond ifTrue ifFalse : Id}
    (h : b.narrowSelection merge cond ifTrue ifFalse = .ok b') : b'.label = b.label := by
  obtain ⟨b₁, hremove, h⟩ := bind_eq_ok.mp h
  obtain ⟨b₂, hmerge, h⟩ := bind_eq_ok.mp h
  rw [label_push h, label_push hmerge, label_removeSelection hremove]

/-- A folded header ends in a plain branch. -/
theorem foldSelection_eq_ok {b' : Block} {i : Instruction} {target : Id}
    (heq : b.instructions = body ++ [i, t]) (h : b.foldSelection target = .ok b') :
    b' = ⟨b.label, body ++ [.branch target]⟩ := by
  obtain ⟨b₁, hremove, h⟩ := bind_eq_ok.mp h
  rw [push_eq_ok h, removeSelection_eq_ok heq hremove]

/-- A narrowed header keeps its merge block and ends in a conditional branch. -/
theorem narrowSelection_eq_ok {b' : Block} {i : Instruction} {merge cond ifTrue ifFalse : Id}
    (heq : b.instructions = body ++ [i, t])
    (h : b.narrowSelection merge cond ifTrue ifFalse = .ok b') :
    b' = ⟨b.label, body ++ [.selectionMerge merge, .branchConditional cond ifTrue ifFalse]⟩ := by
  obtain ⟨b₁, hremove, h⟩ := bind_eq_ok.mp h
  obtain ⟨b₂, hmerge, h⟩ := bind_eq_ok.mp h
  rw [push_eq_ok h, push_eq_ok hmerge, removeSelection_eq_ok heq hremove]
  simp

/-- A block without a terminator takes another instruction. -/
theorem push_of_no_terminator (h : ∀ i ∈ b.instructions, i.opcode.isTerminator = false)
    (i : Instruction) : b.push i = .ok { b with instructions := b.instructions ++ [i] } := by
  have hnone : b.terminator? = none := by
    refine Option.filter_eq_none_iff.mpr (fun j hj => ?_)
    simpa using h j (List.mem_of_getLast? hj)
  simp [push, hnone]

/-- Taking the selection off a header leaves its body, to which an ending can be given. -/
theorem removeSelection_of_end {sel : SelectionBranch} {i : Instruction}
    (heq : b.instructions = body ++ [i, t]) (hsel : b.selection? = some sel) :
    b.removeSelection = .ok ⟨b.label, body⟩ := by
  simp [removeSelection, hsel, pop, heq, List.dropLast_append_of_ne_nil]

theorem foldSelection_of_end {sel : SelectionBranch} {i : Instruction}
    (heq : b.instructions = body ++ [i, t]) (hsel : b.selection? = some sel)
    (hbody : ∀ j ∈ body, j.opcode.isTerminator = false) (target : Id) :
    b.foldSelection target = .ok ⟨b.label, body ++ [.branch target]⟩ :=
  bind_eq_ok.mpr ⟨_, removeSelection_of_end heq hsel, push_of_no_terminator hbody _⟩

theorem narrowSelection_of_end {sel : SelectionBranch} {i : Instruction}
    (heq : b.instructions = body ++ [i, t]) (hsel : b.selection? = some sel)
    (hbody : ∀ j ∈ body, j.opcode.isTerminator = false) (merge cond ifTrue ifFalse : Id) :
    b.narrowSelection merge cond ifTrue ifFalse = .ok ⟨b.label,
      body ++ [.selectionMerge merge, .branchConditional cond ifTrue ifFalse]⟩ := by
  have hopen : ∀ j ∈ body ++ [.selectionMerge merge], j.opcode.isTerminator = false := by
    intro j hj
    rcases List.mem_append.mp hj with hj | hj
    · exact hbody j hj
    · rw [List.mem_singleton.mp hj]
      rfl
  refine bind_eq_ok.mpr ⟨_, removeSelection_of_end heq hsel, bind_eq_ok.mpr
    ⟨_, push_of_no_terminator hbody _, ?_⟩⟩
  rw [addBranchConditional, push_of_no_terminator hopen]
  simp

end Block
end ShaderIR
