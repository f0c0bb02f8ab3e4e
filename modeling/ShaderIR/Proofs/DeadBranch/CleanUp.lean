import ShaderIR.Proofs.DeadBranch.Faults
import ShaderIR.Proofs.DeadBranch.PhiAgreement
import ShaderIR.Proofs.Function.StructuredOrder

/-!
# One clean-up is enough

With a table that knows no constant nothing is folded: phis are repaired and dead blocks are removed,
and that is all.  After a run with any table there is nothing of that kind left to do.  Repair has made
the phis agree with the branches, and the removal that follows keeps them so, since a block that a phi
names stays in place with its terminator.  The removal has left what is needed, and what was needed
before is needed still, although it stands at other positions.

Blocks may have any shape.  Two things have to be said about branches, and without either a second run
may go wrong.

* No block branches to the result of a phi.  A phi that gives way may otherwise turn a branch into one
  to a block whose phis have already been looked at.
* Every conditional branch has operands, wherever it stands.  A block may otherwise lose the
  instruction behind such a branch and end in it.

`clean_up_is_final` is the statement, `clean_up_is_not_final` has the two functions.
-/

namespace ShaderIR

/-! ## 1. Tables that know nothing -/

namespace ConstantTable

variable {T : ConstantTable}

/-- No boolean and no integer is known. -/
def IsSilent (T : ConstantTable) : Prop := ∀ x, T.bool? x = none ∧ T.int? x = none

theorem isSilent_empty : empty.IsSilent := fun _ => ⟨rfl, rfl⟩

theorem IsSilent.takenTarget? (h : T.IsSilent) (branch : Instruction) :
    T.takenTarget? branch = none := by
  unfold ConstantTable.takenTarget?
  split
  · cases branch.idOperand? 0 <;> simp [h _]
  · cases branch.idOperand? 0 <;> simp [h _]
  · rfl

theorem IsSilent.isOpen (h : T.IsSilent) (f : Function) (b : BlockKey) : f.isOpen T b = false := by
  unfold Function.isOpen
  split
  · rw [h.takenTarget?]
  · rfl

end ConstantTable

namespace Function

variable {f f' : Function} {w w' : Workspace} {T : ConstantTable} {ids : IdSupply}
  {killed : SortedSet Id} {changed : Bool}

/-! ## 2. After a run -/

/-- Nothing is left to clean up: branches can be read, phis are in order and dead code is needed. -/
structure IsClean (f : Function) : Prop where
  sane : f.Sane
  agree : f.PhisAgree
  even : ∀ b, f.Reached b → ∀ k, f.block? b = some k → ∀ phi ∈ k.phis, phi.operands.length % 2 = 0
  retained : f.RetainsDead
  needed : f.NeedsAll

/-- A clean function is left alone by a table that knows nothing. -/
theorem IsClean.eliminateDeadBranches_eq (hf : f.IsClean) (hT : T.IsSilent) :
    f.eliminateDeadBranches ⟨T, ids, killed⟩ = .ok (f, ⟨T, ids, killed⟩, false) := by
  have hfold : Folding.run f T ids = .ok ⟨f, T, ids, f.reachable, false⟩ :=
    (Folding.run_eq_iff hf.sane.coherent hf.sane.readable).mpr (fun b _ => hT.isOpen f b)
  have hrepair : PhiRepair.run f T ids = .ok ⟨f, T, ids, [], [], false⟩ :=
    hf.agree.run_eq hf.sane.coherent hf.even
  have hremove := (removeUnreachable_eq_self_iff hf.sane.coherent killed
    (hf.sane.readable.requireReadable_reachable hf.sane.coherent)).mpr ⟨hf.retained, hf.needed⟩
  exact bind_eq_ok.mpr ⟨_, hfold, bind_eq_ok.mpr ⟨_, hrepair, bind_eq_ok.mpr ⟨_, hremove, rfl⟩⟩⟩

/-- **A run leaves a clean function**, whatever the table. -/
theorem isClean_of_eliminateDeadBranches (hf : f.Sane) (hn : f.bodyIds.Nodup)
    (hpast : f.BranchesPastPhis) (h : f.eliminateDeadBranches w = .ok (f', w', changed)) :
    f'.IsClean := by
  obtain ⟨folded, hfold, h⟩ := bind_eq_ok.mp h
  obtain ⟨repaired, hrepair, h⟩ := bind_eq_ok.mp h
  obtain ⟨⟨g, killed, removed⟩, hremove, h⟩ := bind_eq_ok.mp h
  cases h
  obtain ⟨-, hn₁, hpast₁⟩ := Folding.run_keeps hf.coherent hn hpast hfold
  have hf₁ : folded.function.Sane := (Folding.run_induct_rewrite (P := fun s => s.function.Sane)
    hf.coherent hfold hf (fun s b e s' hs he => he.sane hs)).2
  obtain ⟨mended, hrepaired⟩ := PhiRepair.run_spec (P := fun _ => True) hf₁.coherent
    (unique_of_nodup hn₁) (fun _ _ _ _ _ _ => trivial) hrepair
  have hf₂ : repaired.function.Sane := hrepaired.sane hf₁
  have hn₂ := hn₁.sublist hrepaired.bodyIds_sublist
  have hfix := hrepaired.rename_target_of_past hpast₁
  have hremoved := removeUnreachable_spec hf₂.coherent hremove
  refine ⟨hremoved.sane hf₂, hrepaired.phisAgree hremoved hfix hn₁, ?_,
    hremoved.retainsDead hn₂, hremoved.needsAll hn₂⟩
  intro b hb k hk phi hphi
  obtain ⟨k₁, phi₀, phi₁, -, -, ⟨supplied, rfl, -⟩, rfl⟩ :=
    hrepaired.exists_mends hremoved hfix hb hk hphi
  simp [Instruction.mapRefs, PhiRepair.mended, length_unpair]

/-- **One clean-up is enough.** -/
theorem clean_up_is_final (hf : f.Coherent) (hn : f.bodyIds.Nodup) (hpast : f.BranchesPastPhis)
    (hread : f.Readable) (h : f.eliminateDeadBranches w = .ok (f', w', changed))
    (hT : T.IsSilent) (ids : IdSupply) (killed : SortedSet Id) :
    f'.eliminateDeadBranches ⟨T, ids, killed⟩ = .ok (f', ⟨T, ids, killed⟩, false) :=
  (isClean_of_eliminateDeadBranches ⟨hf, hread⟩ hn hpast h).eliminateDeadBranches_eq hT

theorem clean_up_is_final_careless :
    careless.Coherent ∧ careless.bodyIds.Nodup ∧ careless.BranchesPastPhis ∧ careless.Readable ∧
      ConstantTable.empty.IsSilent ∧
      ∃ f' w', careless.eliminateDeadBranches (.ofModule careless.inBoolModule) =
          .ok (f', w', true) ∧
        f'.eliminateDeadBranches ⟨.empty, w'.ids, w'.killed⟩ =
          .ok (f', ⟨.empty, w'.ids, w'.killed⟩, false) := by
  have hco : careless.Coherent := by decide
  have hn : careless.bodyIds.Nodup := by decide
  have hpast : careless.BranchesPastPhis := by decide
  have hread : careless.Readable := by decide
  have hrun : (careless.eliminateDeadBranches (.ofModule careless.inBoolModule)).toOption.map
      (fun r => r.2.2) = some true := by cbv
  obtain ⟨⟨f', w', changed⟩, h, rfl⟩ := toOption_map_eq_some.mp hrun
  exact ⟨hco, hn, hpast, hread, ConstantTable.isSilent_empty, f', w', h,
    clean_up_is_final hco hn hpast hread h ConstantTable.isSilent_empty _ _⟩

/-! ## 3. Where a second run goes wrong -/

/-- A block that ends in a branch without operands stops every run. -/
theorem eliminateDeadBranches_eq_error {b : BlockKey} (hb : b ∈ f.layout)
    (hread : f.hasReadableTargets b = false) :
    f.eliminateDeadBranches w = .error .noBranchOperands := by
  have hall : ¬ ∀ b ∈ f.layout, f.hasReadableTargets b = true := by
    intro hall
    rw [hall b hb] at hread
    cases hread
  rw [eliminateDeadBranches, Folding.run, readStructuredOrder_eq, if_neg hall]
  rfl

/-- The phi `%20` loses its second pair and gives way to `%12`, a block that nothing branched to. -/
def branchingToStalePhi : Function := .ofBlocks ⟨1⟩ ⟨2⟩ ⟨3⟩ [
  ⟨⟨10⟩, [.branch ⟨11⟩]⟩,
  ⟨⟨11⟩, [.phi ⟨4⟩ ⟨20⟩ [(⟨12⟩, ⟨10⟩), (⟨5⟩, ⟨99⟩)], .branch ⟨20⟩]⟩,
  ⟨⟨12⟩, [.phi ⟨4⟩ ⟨21⟩ [], .ret]⟩]

/-- Block `%14` is only kept for `%31`, a conditional branch without operands. -/
def hidingBranch : Function := .ofBlocks ⟨6⟩ ⟨2⟩ ⟨3⟩ [
  ⟨⟨13⟩, [⟨.iAdd, some ⟨4⟩, some ⟨30⟩, [.ref ⟨31⟩, .ref ⟨5⟩]⟩, .ret]⟩,
  ⟨⟨14⟩, [⟨.branchConditional, some ⟨4⟩, some ⟨31⟩, []⟩,
    ⟨.iAdd, some ⟨4⟩, some ⟨32⟩, [.ref ⟨5⟩, .ref ⟨5⟩]⟩]⟩]

/-- **Two functions that are not clean after a run.**  In the first a branch leads to the result of a
phi, and the second run changes it again.  In the second a conditional branch has no operands, and
the second run stops. -/
theorem clean_up_is_not_final :
    (branchingToStalePhi.Coherent ∧ branchingToStalePhi.bodyIds.Nodup ∧
      branchingToStalePhi.Readable ∧
      ∃ f' w', branchingToStalePhi.eliminateDeadBranches ⟨.empty, ⟨40⟩, .empty⟩ =
          .ok (f', w', true) ∧ w'.constants = .empty ∧
        ∃ f'' w'', f'.eliminateDeadBranches w' = .ok (f'', w'', true)) ∧
    (hidingBranch.Coherent ∧ hidingBranch.bodyIds.Nodup ∧ hidingBranch.BranchesPastPhis ∧
      ∃ f' w', hidingBranch.eliminateDeadBranches ⟨.empty, ⟨40⟩, .empty⟩ = .ok (f', w', true) ∧
        w'.constants = .empty ∧ f'.eliminateDeadBranches w' = .error .noBranchOperands) := by
  constructor
  · have hrun : (branchingToStalePhi.eliminateDeadBranches ⟨.empty, ⟨40⟩, .empty⟩).toOption.map
        (fun r => (r.2.2, decide (r.2.1.constants = .empty),
          (r.1.eliminateDeadBranches r.2.1).toOption.map (fun q => q.2.2))) =
        some (true, true, some true) := by cbv
    obtain ⟨⟨f', w', changed⟩, h, hout⟩ := toOption_map_eq_some.mp hrun
    simp only [Prod.mk.injEq, decide_eq_true_eq] at hout
    obtain ⟨rfl, hempty, hagain⟩ := hout
    obtain ⟨⟨f'', w'', changed'⟩, h', rfl⟩ := toOption_map_eq_some.mp hagain
    exact ⟨by decide, by decide, by decide, f', w', h, hempty, f'', w'', h'⟩
  · have hrun : (hidingBranch.eliminateDeadBranches ⟨.empty, ⟨40⟩, .empty⟩).toOption.map
        (fun r => (r.2.2, decide (r.2.1.constants = .empty), decide (⟨1⟩ ∈ r.1.layout),
          r.1.hasReadableTargets ⟨1⟩)) = some (true, true, true, false) := by cbv
    obtain ⟨⟨f', w', changed⟩, h, hout⟩ := toOption_map_eq_some.mp hrun
    simp only [Prod.mk.injEq, decide_eq_true_eq] at hout
    obtain ⟨rfl, hempty, hleft, hunread⟩ := hout
    exact ⟨by decide, by decide, by decide, f', w', h, hempty,
      eliminateDeadBranches_eq_error hleft hunread⟩

end Function
end ShaderIR
