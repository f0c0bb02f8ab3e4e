import ShaderIR.Proofs.Instruction.Renaming

/-!
# Replacing many ids

The value of a replacement may be replaced itself, by an earlier entry of the list or by a later
one.  An earlier entry has redirected the value by the time it is put in; a later one still finds
the uses it was put into.  So however the entries stand, each use follows its chain to the end, as
if all ids were replaced at once.
-/

namespace ShaderIR.PhiRepair

variable {rs : List (Id × Id)}

theorem instructions_substitute (f : Function) (rs : List (Id × Id)) (b : BlockKey) :
    (substitute f rs).instructions b =
      if b ∈ f.layout then (f.instructions b).map (Instruction.mapRefs (rename rs))
      else f.instructions b := by
  simp only [Function.instructions, block?_substitute]
  split
  · cases f.block? b <;> simp
  · rfl

/-- The references of a renamed instruction are ids that something was renamed to. -/
theorem exists_of_ref_mem {g : Id → Id} {i : Instruction} {x : Id}
    (h : Operand.ref x ∈ (i.mapRefs g).operands) : ∃ y, x = g y := by
  obtain ⟨o, -, ho⟩ := List.mem_map.mp h
  cases o with
  | ref y => exact ⟨y, (Operand.ref.inj ho).symm⟩
  | literal w => cases ho
  | string s => cases ho

/-- **Replacing one id after the other is replacing all of them at once.**  Where no id is replaced
twice and no chain comes back to its start, every reference in the layout becomes the end of the
chain that starts at it, whatever the order of the list. -/
theorem replacements_are_simultaneous (f : Function) (hdistinct : (rs.map Prod.fst).Nodup)
    (hacyclic : Acyclic rs) :
    ∃ target : Id → Id,
      (∀ x y, EndsAt rs x y ↔ target x = y) ∧
      (∀ x, x ∉ rs.map Prod.fst → target x = x) ∧
      f.SameFrame (substitute f rs) ∧
      (∀ b ∈ f.layout, (substitute f rs).instructions b =
        (f.instructions b).map (Instruction.mapRefs target)) ∧
      (∀ b, b ∉ f.layout → (substitute f rs).instructions b = f.instructions b) ∧
      ∀ b ∈ f.layout, ∀ i ∈ (substitute f rs).instructions b, ∀ x ∈ rs.map Prod.fst,
        Operand.ref x ∉ i.operands := by
  refine ⟨rename rs, fun x y => endsAt_iff hdistinct hacyclic, fun x => rename_of_not_mem,
    sameFrame_substitute f rs, fun b hb => ?_, fun b hb => ?_, fun b hb i hi x hx hmem => ?_⟩
  · rw [instructions_substitute, if_pos hb]
  · rw [instructions_substitute, if_neg hb]
  · rw [instructions_substitute, if_pos hb] at hi
    obtain ⟨j, -, rfl⟩ := List.mem_map.mp hi
    obtain ⟨y, rfl⟩ := exists_of_ref_mem hmem
    exact (endsAt_rename hacyclic y).last hx

/-- The chain `%15`, `%14`, `%13`, `%12`, `%11`, its links in an order that goes to and fro. -/
def scatteredChain : List (Id × Id) := [(⟨13⟩, ⟨12⟩), (⟨15⟩, ⟨14⟩), (⟨12⟩, ⟨11⟩), (⟨14⟩, ⟨13⟩)]

/-- A block that uses every id of the chain. -/
def chainUser : Function := .ofBlocks ⟨1⟩ ⟨2⟩ ⟨3⟩ [
  ⟨⟨10⟩, [⟨.phi, some ⟨4⟩, some ⟨20⟩, [.ref ⟨15⟩, .ref ⟨10⟩, .ref ⟨13⟩, .ref ⟨30⟩]⟩,
    ⟨.iAdd, some ⟨4⟩, some ⟨21⟩, [.ref ⟨14⟩, .ref ⟨12⟩, .literal 14]⟩, .branch ⟨10⟩]⟩]

theorem replacements_are_simultaneous_scatteredChain :
    (scatteredChain.map Prod.fst).Nodup ∧ Acyclic scatteredChain ∧
      EndsAt scatteredChain ⟨15⟩ ⟨11⟩ ∧
      (substitute chainUser scatteredChain).instructions ⟨0⟩ =
        [⟨.phi, some ⟨4⟩, some ⟨20⟩, [.ref ⟨11⟩, .ref ⟨10⟩, .ref ⟨11⟩, .ref ⟨30⟩]⟩,
          ⟨.iAdd, some ⟨4⟩, some ⟨21⟩, [.ref ⟨11⟩, .ref ⟨11⟩, .literal 14]⟩, .branch ⟨10⟩] := by
  have hdistinct : (scatteredChain.map Prod.fst).Nodup := by decide
  have hacyclic : Acyclic scatteredChain := acyclic_of_rank (fun x => x.word.toNat) (by decide)
  have h12 : EndsAt scatteredChain ⟨12⟩ ⟨11⟩ := ⟨.single (by decide : (_, _) ∈ _), by decide⟩
  have h13 : EndsAt scatteredChain ⟨13⟩ ⟨11⟩ := ⟨.head (by decide : (_, _) ∈ _) h12.chain, h12.last⟩
  have h14 : EndsAt scatteredChain ⟨14⟩ ⟨11⟩ := ⟨.head (by decide : (_, _) ∈ _) h13.chain, h12.last⟩
  have h15 : EndsAt scatteredChain ⟨15⟩ ⟨11⟩ := ⟨.head (by decide : (_, _) ∈ _) h14.chain, h12.last⟩
  obtain ⟨target, hends, hother, -, hblock, -⟩ :=
    replacements_are_simultaneous chainUser hdistinct hacyclic
  refine ⟨hdistinct, hacyclic, h15, ?_⟩
  rw [hblock ⟨0⟩ (by decide)]
  have hbody : chainUser.instructions ⟨0⟩ =
      [⟨.phi, some ⟨4⟩, some ⟨20⟩, [.ref ⟨15⟩, .ref ⟨10⟩, .ref ⟨13⟩, .ref ⟨30⟩]⟩,
        ⟨.iAdd, some ⟨4⟩, some ⟨21⟩, [.ref ⟨14⟩, .ref ⟨12⟩, .literal 14]⟩, .branch ⟨10⟩] := rfl
  simp [hbody, Instruction.mapRefs, Instruction.branch, Operand.mapRef, (hends _ _).mp h12,
    (hends _ _).mp h13, (hends _ _).mp h14, (hends _ _).mp h15, hother ⟨10⟩ (by decide),
    hother ⟨30⟩ (by decide)]

end ShaderIR.PhiRepair
