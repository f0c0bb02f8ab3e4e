import ShaderIR.Proofs.Validity.Rules

/-!
# Regular modules

The checks pass over some shapes that no well-meant module has: a phi without a type or a result, or
with operands that do not make pairs of ids; a merge declaration or a terminator with a result; an id
of one body that is used outside of it or as a type.  A module without these is regular.  A name or
a decoration may still be about an id of a body.

* `Function.RegularPhis`, `Function.BareEnds`: two of these shapes do not occur in a body;
* `Function.Regular`, `Module.Regular`: none of them occurs;
* `PhisLead.dropWhile`: past the leading phis of a regular block there are none.
-/

namespace ShaderIR

/-- A phi with a type, a result, and pairs of ids. -/
structure Instruction.RegularPhi (i : Instruction) : Prop where
  type : i.type?.isSome
  result : i.result?.isSome
  even : i.operands.length % 2 = 0
  ids : ∀ o ∈ i.operands, o.id?.isSome

instance (i : Instruction) : Decidable i.RegularPhi :=
  decidable_of_iff
    (i.type?.isSome ∧ i.result?.isSome ∧ i.operands.length % 2 = 0 ∧ ∀ o ∈ i.operands, o.id?.isSome)
    ⟨fun h => ⟨h.1, h.2.1, h.2.2.1, h.2.2.2⟩, fun h => ⟨h.type, h.result, h.even, h.ids⟩⟩

/-- Every phi of the body is regular. -/
def Function.RegularPhis (f : Function) : Prop :=
  ∀ b ∈ f.layout, ∀ i ∈ f.instructions b, i.opcode.isPhi = true → i.RegularPhi

instance (f : Function) : Decidable f.RegularPhis :=
  inferInstanceAs (Decidable (∀ b ∈ f.layout, ∀ i ∈ f.instructions b,
    i.opcode.isPhi = true → i.RegularPhi))

/-- What ends a block has no result. -/
def Function.BareEnds (f : Function) : Prop :=
  ∀ b ∈ f.layout, ∀ i ∈ f.instructions b,
    i.opcode.isMerge = true ∨ i.opcode.isTerminator = true → i.result? = none

instance (f : Function) : Decidable f.BareEnds :=
  inferInstanceAs (Decidable (∀ b ∈ f.layout, ∀ i ∈ f.instructions b,
    i.opcode.isMerge = true ∨ i.opcode.isTerminator = true → i.result? = none))

/-- The phis are regular, and what ends a block has no result. -/
structure Function.Regular (f : Function) : Prop where
  phi : f.RegularPhis
  ends : f.BareEnds

instance (f : Function) : Decidable f.Regular :=
  decidable_of_iff (f.RegularPhis ∧ f.BareEnds) ⟨fun h => ⟨h.1, h.2⟩, fun h => ⟨h.phi, h.ends⟩⟩

/-- A name or a decoration that mentions an id as its first operand only. -/
def Section.Notes (s : Section) (i : Instruction) (x : Id) : Prop :=
  (s = .annotations ∨ (s = .debug ∧ (i.opcode = .name ∨ i.opcode = .memberName))) ∧
    i.type? ≠ some x ∧ x ∉ (i.operands.drop 1).filterMap Operand.id?

instance (s : Section) (i : Instruction) (x : Id) : Decidable (s.Notes i x) :=
  inferInstanceAs (Decidable (_ ∧ _ ∧ _))

/-- The functions are regular, and an id of a body is only used as an operand in that body, names and
decorations of it apart. -/
structure Module.Regular (m : Module) : Prop where
  function : ∀ f ∈ m.functionList, f.Regular
  header : ∀ f ∈ m.functionList, ∀ x ∈ f.bodyIds, ∀ s ∈ Section.all, ∀ i ∈ m.inSection s,
    x ∈ i.uses → s.Notes i x
  heading : ∀ f ∈ m.functionList, ∀ x ∈ f.bodyIds, ∀ g ∈ m.functionList,
    x ∉ g.heading.flatMap Instruction.uses
  body : ∀ f ∈ m.functionList, ∀ x ∈ f.bodyIds, ∀ g ∈ m.functionList, x ∈ g.bodyUses → g = f
  type : ∀ f ∈ m.functionList, ∀ x ∈ f.bodyIds, ∀ b ∈ f.layout, ∀ i ∈ f.instructions b,
    i.type? ≠ some x

instance (m : Module) : Decidable m.Regular :=
  decidable_of_iff
    ((∀ f ∈ m.functionList, f.Regular) ∧
      (∀ f ∈ m.functionList, ∀ x ∈ f.bodyIds, ∀ s ∈ Section.all, ∀ i ∈ m.inSection s,
        x ∈ i.uses → s.Notes i x) ∧
      (∀ f ∈ m.functionList, ∀ x ∈ f.bodyIds, ∀ g ∈ m.functionList,
        x ∉ g.heading.flatMap Instruction.uses) ∧
      (∀ f ∈ m.functionList, ∀ x ∈ f.bodyIds, ∀ g ∈ m.functionList, x ∈ g.bodyUses → g = f) ∧
      ∀ f ∈ m.functionList, ∀ x ∈ f.bodyIds, ∀ b ∈ f.layout, ∀ i ∈ f.instructions b,
        i.type? ≠ some x)
    ⟨fun h => ⟨h.1, h.2.1, h.2.2.1, h.2.2.2.1, h.2.2.2.2⟩,
      fun h => ⟨h.function, h.header, h.heading, h.body, h.type⟩⟩

/-- Past the leading phis there are none, if every phi has a result. -/
theorem PhisLead.dropWhile {is : List Instruction} (h : PhisLead is)
    (hres : ∀ i ∈ is, i.opcode.isPhi = true → i.result?.isSome) {i : Instruction}
    (hi : i ∈ is.dropWhile (fun i => i.opcode.isPhi)) : i.opcode.isPhi = false := by
  induction is with
  | nil => cases hi
  | cons j is ih =>
    obtain ⟨hj, his⟩ := List.pairwise_cons.mp h
    cases hphi : j.opcode.isPhi with
    | true =>
      simp only [List.dropWhile_cons, hphi, if_true] at hi
      exact ih his (fun i hi => hres i (List.mem_cons_of_mem _ hi)) hi
    | false =>
      simp only [List.dropWhile_cons, hphi, Bool.false_eq_true, if_false] at hi
      rcases List.mem_cons.mp hi with rfl | hmem
      · exact hphi
      · cases hp : i.opcode.isPhi with
        | false => rfl
        | true =>
          have hlead := hj i hmem hp (hres i (List.mem_cons_of_mem _ hmem) hp)
          exact absurd hlead (by simp [hphi])

end ShaderIR
