import ShaderIR.Proofs.Instruction.Operands

/-!
# Branches on known constants

Two readers take labels from the operands of a branch.  The flow of control reads by position: the
second and third operand of a conditional branch, the second and then every other operand of a switch
from the fourth on.  The table of constants looks for one label: it cuts the operands of a switch into
pairs and follows the first one with the value of the selector.  Nothing ties operands to opcodes, so
the two have to agree on lists of any length with operands of any kind.

* `mem_branchTargets_of_takenTarget?`, `hasReadableTargets_of_takenTarget?`: branches of any shape;
* `branchTargets_switch`, `takenTarget?_switch`: switches made of a selector, a default and cases;
* `known_branches_take_their_targets`: the two readers side by side.
-/

namespace ShaderIR

/-! ## 1. Branches of any shape -/

namespace ConstantTable

variable {T : ConstantTable} {t : Instruction} {live : Id}

/-- The target of a branch on a known constant is one of its targets. -/
theorem mem_branchTargets_of_takenTarget? (h : T.takenTarget? t = some live) :
    live ∈ t.branchTargets := by
  unfold takenTarget? at h
  split at h
  · obtain ⟨cond, -, h⟩ := Option.bind_eq_some_iff.mp h
    obtain ⟨value, -, h⟩ := Option.bind_eq_some_iff.mp h
    exact Instruction.mem_branchTargets_of_idOperand? ‹_› h
  · obtain ⟨sel, -, h⟩ := Option.bind_eq_some_iff.mp h
    obtain ⟨value, -, h⟩ := Option.bind_eq_some_iff.mp h
    exact Instruction.mem_branchTargets_of_case ‹_› h
  · cases h

theorem isBranch_of_takenTarget? (h : T.takenTarget? t = some live) :
    t.opcode = .branchConditional ∨ t.opcode = .switch := by
  unfold takenTarget? at h
  split at h
  · exact .inl ‹_›
  · exact .inr ‹_›
  · cases h

/-- Where the table knows the target, the condition is there to be read. -/
theorem hasReadableTargets_of_takenTarget? (h : T.takenTarget? t = some live) :
    t.hasReadableTargets = true := by
  rw [Instruction.hasReadableTargets_iff]
  rintro ⟨ho, hnil⟩
  have hcond : t.idOperand? 0 = none := by simp [Instruction.idOperand?, hnil]
  simp [takenTarget?, ho, hcond] at h

end ConstantTable

/-! ## 2. Switches made of cases -/

section Switch

variable (selector default : Id) (cases : List (UInt32 × Id))

namespace Instruction

theorem switchCases_switch : (switch selector default cases).switchCases =
    cases.map (fun c => (.literal c.1, .ref c.2)) := pairs_unpair _

/-- A switch may go to its default and to the label of each case. -/
theorem branchTargets_switch :
    (switch selector default cases).branchTargets = default :: cases.map Prod.snd := by
  -- the operands are written pair by pair, so the labels are looked up among the pairs first
  have hlabels : (switch selector default cases).switchCases.filterMap (fun c => c.2.id?) =
      cases.map Prod.snd := by
    rw [switchCases_switch, List.filterMap_map]
    exact congrFun List.filterMap_eq_map cases
  rw [← filterMap_everyOther] at hlabels
  exact congrArg (default :: ·) hlabels

end Instruction

namespace ConstantTable

variable {T : ConstantTable} {value : UInt32}

theorem caseLabel?_labelled (value : UInt32) :
    caseLabel? (cases.map (fun c => (.literal c.1, .ref c.2))) value =
      (cases.find? (fun c => c.1 = value)).map Prod.snd := by
  have hfind : (fun c : UInt32 × Id => decide ((Operand.literal c.1).literal? = some value)) =
      fun c => decide (c.1 = value) := by
    funext c
    simp [Operand.literal?]
  rw [caseLabel?, List.find?_map, Function.comp_def, hfind]
  cases cases.find? (fun c => c.1 = value) <;> rfl

/-- **A switch on a known constant goes to the first case with its value**, and to the default where
there is none. -/
theorem takenTarget?_switch (h : T.int? selector = some value) :
    T.takenTarget? (.switch selector default cases) =
      some (((cases.find? (fun c => c.1 = value)).map Prod.snd).getD default) := by
  have htaken : T.takenTarget? (.switch selector default cases) =
      (caseLabel? (Instruction.switch selector default cases).switchCases value).or
        (some default) := by
    simp [takenTarget?, Instruction.switch, Instruction.idOperand?, h]
  rw [htaken, Instruction.switchCases_switch, caseLabel?_labelled]
  cases cases.find? (fun c => c.1 = value) <;> rfl

end ConstantTable

end Switch

/-! ## 3. The two readers -/

namespace ConstantTable

/-- **A branch on a known constant takes one of its targets.**  Whatever the operands are, a label that
the table finds can be read as a target and is one.  In a switch made of cases the table finds the
label of the first case with the value of the selector, or the default if there is none, and the
targets are the default and the labels of all cases. -/
theorem known_branches_take_their_targets (T : ConstantTable) :
    (∀ (i : Instruction) (t : Id), T.takenTarget? i = some t →
      ∃ targets, i.readTargets = .ok targets ∧ t ∈ targets) ∧
    (∀ (selector default : Id) (cases : List (UInt32 × Id)) (value : UInt32),
      T.int? selector = some value →
      T.takenTarget? (.switch selector default cases) =
        some (((cases.find? (fun c => c.1 = value)).map Prod.snd).getD default)) ∧
    ∀ (selector default : Id) (cases : List (UInt32 × Id)),
      (Instruction.switch selector default cases).readTargets =
        .ok (default :: cases.map Prod.snd) := by
  refine ⟨?_, ?_, ?_⟩
  · intro i t h
    have hread : i.readTargets = .ok i.branchTargets :=
      if_pos (hasReadableTargets_of_takenTarget? h)
    exact ⟨i.branchTargets, hread, mem_branchTargets_of_takenTarget? h⟩
  · intro selector default cases value h
    exact takenTarget?_switch selector default cases h
  · intro selector default cases
    rw [← Instruction.branchTargets_switch selector default cases]
    exact if_pos rfl

/-- A table that knows `%5` to be 7. -/
def sevenKnown : ConstantTable := { empty with ints := SortedMap.empty.insert ⟨5⟩ 7 }

/-- A switch whose first case for 7 has no label, with a second case for 7 and a last operand that is
no case at all. -/
def crookedSwitch : Instruction := ⟨.switch, none, none,
  [.ref ⟨5⟩, .ref ⟨10⟩, .literal 7, .string "lost", .literal 7, .ref ⟨12⟩, .literal 9]⟩

theorem known_branches_take_their_targets_sevenKnown :
    sevenKnown.takenTarget? crookedSwitch = some ⟨10⟩ ∧
      (∃ targets, crookedSwitch.readTargets = .ok targets ∧ ⟨10⟩ ∈ targets) ∧
      sevenKnown.int? ⟨5⟩ = some 7 ∧
      sevenKnown.takenTarget? (.switch ⟨5⟩ ⟨10⟩ [(1, ⟨11⟩), (7, ⟨12⟩), (7, ⟨11⟩)]) = some ⟨12⟩ := by
  have htaken : sevenKnown.takenTarget? crookedSwitch = some ⟨10⟩ := by decide
  have hseven : sevenKnown.int? ⟨5⟩ = some 7 := by decide
  obtain ⟨htarget, hcase, -⟩ := known_branches_take_their_targets sevenKnown
  exact ⟨htaken, htarget _ _ htaken, hseven, hcase ⟨5⟩ ⟨10⟩ _ 7 hseven⟩

end ConstantTable
end ShaderIR
