import ShaderIR.Proofs.DeadBranch.ModuleRun
import ShaderIR.Proofs.DeadBranch.Outcome

/-!
# When a processed module is accepted

An accepted module keeps almost every rule when its dead branches are eliminated: branches can be
read, ids are defined once and below the bound, blocks end as they must, and the entry is no target.
Two things can go wrong.  A phi may lack a pair for an unreachable block that had to stay and still
branches to it, and a name or decoration may go although somebody uses the id it defines.

* `Leaves`: a function and what the run leaves of it, processed or not;
* `accepted_finished_iff`: the two things that can go wrong are the only ones;
* `check_eliminateDeadBranches_iff`: the same, about the check.
-/

namespace ShaderIR

/-- In a sound function the phis have pairs for unreachable blocks, too. -/
theorem Function.Sound.coversDead {f : Function} (hf : f.Coherent) (hs : f.Sound)
    (hr : f.Regular) : f.CoversDead := by
  intro b hb k hk phi hphi a ha hedge
  obtain ⟨hmem, hisphi⟩ := Block.mem_of_mem_phis hphi
  have hreg := hr.phi b (hb.mem_layout hf) phi (instructions_of_block? hk ▸ hmem) hisphi
  exact (hs.phi b hb k hk phi hphi hreg.result).2 a ha.1 hedge

namespace Section

/-- Whether an instruction of a section stays when ids are killed. -/
def keeps (s : Section) (killed : SortedSet Id) (i : Instruction) : Bool :=
  match s with
  | .debug => !((i.opcode = .name || i.opcode = .memberName) && Module.targetsOneOf killed i)
  | .annotations => !Module.targetsOneOf killed i
  | _ => true

/-- A name or decoration of an id stays only if the id does. -/
theorem not_killed_of_keeps {s : Section} {killed : SortedSet Id} {i : Instruction} {x : Id}
    (hn : s.Notes i x) (hx : x ∈ i.uses) (hk : s.keeps killed i = true) :
    killed.contains x = false := by
  obtain ⟨hplace, htype, hrest⟩ := hn
  have hfirst : i.idOperand? 0 = some x := by
    rcases List.mem_append.mp hx with hx | hx
    · exact absurd (Option.mem_toList.mp hx) htype
    · unfold Instruction.idOperand?
      cases hops : i.operands with
      | nil => simp [hops] at hx
      | cons o rest =>
        rw [hops] at hx hrest
        cases ho : o.id? with
        | none =>
          rw [List.filterMap_cons_none ho] at hx
          exact absurd hx hrest
        | some y =>
          rw [List.filterMap_cons_some ho] at hx
          rcases List.mem_cons.mp hx with rfl | hx
          · simp [ho]
          · exact absurd hx hrest
  have htarget : Module.targetsOneOf killed i = killed.contains x := by
    simp [Module.targetsOneOf, hfirst]
  rcases hplace with rfl | ⟨rfl, hname⟩
  · simpa [keeps, htarget] using hk
  · have hop : (decide (i.opcode = .name) || decide (i.opcode = .memberName)) = true := by
      simpa using hname
    simpa [keeps, htarget, hop] using hk

end Section

namespace Module

open ConstantTable (results)

variable {m m' m₁ : Module} {w w' w₁ : Workspace} {f f' : Function} {x : Id} {i : Instruction}
  {s : Section} {done : List FunctionKey}

/-! ## 1. What is left of a function -/

/-- What the run leaves of a function. -/
structure Leaves (m : Module) (w₁ : Workspace) (f f' : Function) : Prop where
  heading : f'.heading = f.heading
  coherent : f'.Coherent
  readable : f'.Readable
  bodyIds : f'.bodyIds.Sublist f.bodyIds
  used : ∀ x ∈ f'.bodyUses, x ∈ f'.bodyIds ∨ x ∈ results (m.globals ++ w₁.constants.newGlobals) ∨
    (x ∈ f.bodyUses ∧ x ∉ f.bodyIds)
  gone : ∀ x ∈ f.bodyIds, x ∉ f'.bodyIds → w₁.killed.contains x = true
  sound : f'.Sound ↔ f'.CoversDead

theorem leaves_self (ha : m.Accepted) (hr : m.Regular) (w₁ : Workspace)
    (hf : f ∈ m.functionList) : Leaves m w₁ f f where
  heading := rfl
  coherent := ha.coherent f hf
  readable := isReadable_iff.mp ha.readable f hf
  bodyIds := .refl _
  used x hx := by
    by_cases hbody : x ∈ f.bodyIds
    · exact .inl hbody
    · exact .inr (.inr ⟨hx, hbody⟩)
  gone x hx hgone := absurd hx hgone
  sound := ⟨fun hs => hs.coversDead (ha.coherent f hf) (hr.function f hf), fun _ => ha.sound f hf⟩

theorem leaves_of_run (ha : m.Accepted) (hr : m.Regular) (hf : f ∈ m.functionList)
    (hgrows : (ConstantTable.ofModule m).Grows m.UsesType m.supply w₁.constants w₁.ids)
    (h : ProcessedFunction m w₁ f w f' w') : Leaves m w₁ f f' := by
  have hT := ConstantTable.tracks_snapshot m.globals m.bound
  have hready := Function.ready_of_accepted ha hf (hr.function f hf).phi (h.before.tracks hT)
  have hwf := hready.wellFormed
  obtain ⟨changed, hrun⟩ := h.run
  obtain ⟨folded, repaired, mended, hphases⟩ := Function.eliminateDeadBranches_phases hwf hrun
  have hstill : ∀ x ∈ f'.bodyUses, x ∈ f.bodyIds → x ∈ f'.bodyIds := by
    intro x hx hbody
    refine hphases.mem_bodyIds hready (hr.function f hf).ends hx hbody ?_
    rintro ⟨b, hb, i, hi, ht⟩
    exact hr.type f hf x hbody b hb i hi ht
  have hfrom := (hgrows.tracks hT).comesFrom ha.nodup_globals ha.below_globals
  refine ⟨?_, hphases.remove.coherent, hphases.readable (isReadable_iff.mp ha.readable f hf),
    hphases.bodyIds_sublist, fun x hx => ?_, fun x hx hgone => ?_, hphases.sound_iff hready⟩
  · rw [Function.heading, Function.heading, hphases.heading.2.1, hphases.heading.2.2]
  · by_cases hbody : x ∈ f.bodyIds
    · exact .inl (hstill x hx hbody)
    rcases hphases.mem_bodyUses hx with hused | htrue | ⟨t, hundef⟩ | ⟨c, hc⟩
    · exact .inr (.inr ⟨hused, hbody⟩)
    · obtain ⟨i, hi, hres, -⟩ := hfrom.bool x true (hfrom.isTrue x (h.after.true?_mono htrue))
      exact .inr (.inl (List.mem_filterMap.mpr ⟨i, hi, hres⟩))
    · exact .inr (.inl (hfrom.undef_mem_results (h.after.undefs_mono hundef)))
    · obtain ⟨hlayout, hlabel⟩ := hwf.coherent.indexed x c hc
      exact absurd (Function.mem_bodyIds.mpr (.inl ⟨c, hlayout, hlabel⟩)) hbody
  · exact h.killed x (hphases.killed_of_gone (hr.function f hf).ends hx hgone)

/-- **Place by place, what the run leaves of the functions.** -/
theorem Processed.leaves (ha : m.Accepted) (hr : m.Regular) (hs : Processed m done m₁ w₁) :
    List.Forall₂ (Leaves m w₁) m.functionList m₁.functionList :=
  hs.forall₂_of (fun _ hf => leaves_self ha hr w₁ hf)
    (fun _ hf _ _ _ hrun => leaves_of_run ha hr hf hs.grows hrun)

/-! ## 2. The header in the end -/

theorem Processed.inSection_finished (hs : Processed m done m₁ w₁) (hne : s ≠ .globals) :
    (m₁.finished w₁).inSection s = (m.inSection s).filter (s.keeps w₁.killed) := by
  rw [hs.sections]
  cases s with
  | globals => exact absurd rfl hne
  | debug => rfl
  | annotations => rfl
  | _ => exact (List.filter_eq_self.mpr (fun _ _ => rfl)).symm

theorem Processed.mem_inSection_finished (hs : Processed m done m₁ w₁) :
    i ∈ (m₁.finished w₁).inSection s ↔
      (i ∈ m.inSection s ∧ s.keeps w₁.killed i = true) ∨
        (s = .globals ∧ i ∈ w₁.constants.newGlobals) := by
  by_cases hne : s = .globals
  · subst hne
    rw [inSection, hs.globals_finished, List.mem_append]
    simp [inSection, Section.keeps]
  · rw [hs.inSection_finished hne, List.mem_filter]
    simp [hne]

/-- What one module lacks of the header of another defines nothing that the one uses. -/
def KeepsUsed (m m' : Module) : Prop :=
  ∀ s, ∀ i ∈ m.inSection s, i ∉ m'.inSection s → ∀ x, i.result? = some x → x ∉ m'.usedIds

/-- The header defines no id at two places. -/
theorem Accepted.header_unique (ha : m.Accepted) {s' : Section} {j : Instruction}
    (hi : i ∈ m.inSection s) (hj : j ∈ m.inSection s') (hix : i.result? = some x)
    (hjx : j.result? = some x) : s = s' ∧ i = j := by
  have hnodup : (m.header.filterMap Instruction.result?).Nodup := (List.nodup_append.mp ha.nodup).1
  obtain rfl := Function.eq_of_mem_of_nodup_results hnodup (mem_header.mpr ⟨s, hi⟩)
    (mem_header.mpr ⟨s', hj⟩) hix hjx
  refine ⟨?_, rfl⟩
  by_contra hne
  rw [header, List.filterMap_flatMap] at hnodup
  have hsymm : Std.Symm (Function.onFun List.Disjoint
      (fun s => (m.inSection s).filterMap Instruction.result?)) :=
    ⟨fun _ _ hd => List.Disjoint.symm hd⟩
  exact (List.nodup_flatMap.mp hnodup).2.forall (Section.mem_all s) (Section.mem_all s') hne
    (List.mem_filterMap.mpr ⟨i, hi, hix⟩) (List.mem_filterMap.mpr ⟨i, hj, hix⟩)

/-! ## 3. Definitions and uses in the end -/

section
variable (ha : m.Accepted) (hr : m.Regular) (hs : Processed m done m₁ w₁)
include ha hr hs

/-- **What is defined in the end**: part of what was defined, and the new globals. -/
theorem exists_perm_definedIds : ∃ old, old.Sublist m.definedIds ∧
    (m₁.finished w₁).definedIds.Perm (old ++ results w₁.constants.newGlobals) := by
  have hfront : (Section.all.dropLast.flatMap (m₁.finished w₁).inSection).Sublist
      (Section.all.dropLast.flatMap m.inSection) := by
    refine List.Sublist.flatMap_right _ (fun s hmem => ?_)
    have hne : s ≠ .globals := by
      rintro rfl
      exact absurd hmem (by decide)
    rw [hs.inSection_finished hne]
    exact List.filter_sublist
  have hbodies : (m₁.functionList.flatMap
      (fun f => f.heading.filterMap Instruction.result? ++ f.bodyIds)).Sublist
        (m.functionList.flatMap (fun f => f.heading.filterMap Instruction.result? ++ f.bodyIds)) := by
    refine flatMap_sublist_of_forall₂ (hs.leaves ha hr) (fun f f' hleaves => ?_)
    rw [hleaves.heading]
    exact (List.Sublist.refl _).append hleaves.bodyIds
  have hold := ((hfront.append (.refl m.globals)).filterMap Instruction.result?).append hbodies
  rw [← header_eq] at hold
  refine ⟨_, hold, ?_⟩
  rw [definedIds, header_eq, hs.globals_finished]
  simp only [List.filterMap_append, List.append_assoc]
  exact (List.perm_append_comm.append_left _).append_left _

/-- An id that no body defines is still defined, if it is still used. -/
theorem mem_definedIds_finished (hkeeps : m.KeepsUsed (m₁.finished w₁))
    (hx : x ∈ m.definedIds) (hbody : ∀ f ∈ m.functionList, x ∉ f.bodyIds)
    (hused : x ∈ (m₁.finished w₁).usedIds) : x ∈ (m₁.finished w₁).definedIds := by
  rcases mem_definedIds.mp hx with ⟨s, i, hi, hres⟩ | ⟨f, hf, hres⟩ | ⟨f, hf, hres⟩
  · refine mem_definedIds.mpr (.inl ⟨s, i, ?_, hres⟩)
    by_contra hgone
    exact hkeeps s i hi hgone x hres hused
  · obtain ⟨f', hf', hleaves⟩ := exists_of_mem_left (hs.leaves ha hr) hf
    exact mem_definedIds.mpr (.inr (.inl ⟨f', hf', hleaves.heading ▸ hres⟩))
  · exact absurd hres (hbody f hf)

/-- What the header uses in the end is defined. -/
theorem defined_of_inSection (hkeeps : m.KeepsUsed (m₁.finished w₁))
    (hi : i ∈ (m₁.finished w₁).inSection s) (hx : x ∈ i.uses) :
    x ∈ (m₁.finished w₁).definedIds := by
  have hused : x ∈ (m₁.finished w₁).usedIds := mem_usedIds.mpr (.inl ⟨s, i, hi, hx⟩)
  rcases hs.mem_inSection_finished.mp hi with ⟨hold, hstays⟩ | ⟨-, hnew⟩
  · have hdef := ha.defined x (mem_usedIds.mpr (.inl ⟨s, i, hold, hx⟩))
    by_cases hbody : ∃ f ∈ m.functionList, x ∈ f.bodyIds
    · -- a name or decoration, and its id has not been killed
      obtain ⟨f, hf, hxf⟩ := hbody
      have hnotes := hr.header f hf x hxf s (Section.mem_all s) i hold hx
      obtain ⟨f', hf', hleaves⟩ := exists_of_mem_left (hs.leaves ha hr) hf
      refine mem_definedIds.mpr (.inr (.inr ⟨f', hf', ?_⟩))
      by_contra hgone
      have hkilled := hleaves.gone x hxf hgone
      rw [Section.not_killed_of_keeps hnotes hx hstays] at hkilled
      cases hkilled
    · push Not at hbody
      exact mem_definedIds_finished ha hr hs hkeeps hdef hbody hused
  · have hT := ConstantTable.tracks_snapshot m.globals m.bound
    have hstart : ∀ i ∈ (ConstantTable.snapshot m.globals).newGlobals, ∀ x ∈ i.uses,
        x ∈ results (m.globals ++ (ConstantTable.snapshot m.globals).newGlobals) ∨
          m.UsesType x := by simp
    rcases hs.grows.uses_newGlobals hT ha.nodup_globals ha.below_globals hstart i hnew x hx with
      hres | ⟨f, hf, htype⟩
    · obtain ⟨j, hj, hres⟩ := List.mem_filterMap.mp hres
      rw [← hs.globals_finished] at hj
      exact mem_definedIds.mpr (.inl ⟨.globals, j, hj, hres⟩)
    · -- the type of an instruction, which no body defines
      obtain ⟨b, hb, j, hj, ht⟩ := htype
      have hxf : x ∈ f.bodyUses := Function.mem_bodyUses.mpr ⟨b, hb, j, hj, by
        simp [Instruction.uses, ht]⟩
      have hdef := ha.defined x (mem_usedIds.mpr (.inr (.inr ⟨f, hf, hxf⟩)))
      refine mem_definedIds_finished ha hr hs hkeeps hdef (fun g hg hxg => ?_) hused
      obtain rfl := hr.body g hg x hxg f hf hxf
      exact hr.type f hf x hxg b hb j hj ht

/-- **Whatever is used in the end is defined**, if nothing that is used has been dropped. -/
theorem defined_finished (hkeeps : m.KeepsUsed (m₁.finished w₁))
    (hused : x ∈ (m₁.finished w₁).usedIds) : x ∈ (m₁.finished w₁).definedIds := by
  rcases mem_usedIds.mp hused with ⟨s, i, hi, hx⟩ | ⟨f', hf', hx⟩ | ⟨f', hf', hx⟩
  · exact defined_of_inSection ha hr hs hkeeps hi hx
  · obtain ⟨f, hf, hleaves⟩ := exists_of_mem_right (hs.leaves ha hr) hf'
    rw [hleaves.heading] at hx
    have hdef := ha.defined x (mem_usedIds.mpr (.inr (.inl ⟨f, hf, hx⟩)))
    exact mem_definedIds_finished ha hr hs hkeeps hdef
      (fun g hg hxg => hr.heading g hg x hxg f hf hx) hused
  · obtain ⟨f, hf, hleaves⟩ := exists_of_mem_right (hs.leaves ha hr) hf'
    rcases hleaves.used x hx with hown | hglobal | ⟨hold, hforeign⟩
    · exact mem_definedIds.mpr (.inr (.inr ⟨f', hf', hown⟩))
    · obtain ⟨j, hj, hres⟩ := List.mem_filterMap.mp hglobal
      rw [← hs.globals_finished] at hj
      exact mem_definedIds.mpr (.inl ⟨.globals, j, hj, hres⟩)
    · have hdef := ha.defined x (mem_usedIds.mpr (.inr (.inr ⟨f, hf, hold⟩)))
      refine mem_definedIds_finished ha hr hs hkeeps hdef (fun g hg hxg => ?_) hused
      obtain rfl := hr.body g hg x hxg f hf hold
      exact hforeign hxg

/-- In an accepted outcome nothing that is used has been dropped: nothing else defines it. -/
theorem keepsUsed_of_accepted (ha' : (m₁.finished w₁).Accepted) :
    m.KeepsUsed (m₁.finished w₁) := by
  intro s i hi hgone x hix hused
  have hfirst : x ∈ m.header.filterMap Instruction.result? :=
    List.mem_filterMap.mpr ⟨i, mem_header.mpr ⟨s, hi⟩, hix⟩
  have hnot : ∀ f ∈ m.functionList, x ∉ f.heading.filterMap Instruction.result? ++ f.bodyIds :=
    fun f hf hx => (List.nodup_append.mp ha.nodup).2.2 x hfirst x
      (List.mem_flatMap.mpr ⟨f, hf, hx⟩) rfl
  rcases mem_definedIds.mp (ha'.defined x hused) with ⟨s', j, hj, hjx⟩ | ⟨f', hf', hx⟩ | ⟨f', hf', hx⟩
  · rcases hs.mem_inSection_finished.mp hj with ⟨hold, hstays⟩ | ⟨-, hnew⟩
    · obtain ⟨rfl, rfl⟩ := ha.header_unique hi hold hix hjx
      exact hgone hj
    · have hfresh := ((hs.grows.tracks (ConstantTable.tracks_snapshot m.globals m.bound)).fresh x
        (List.mem_filterMap.mpr ⟨j, hnew, hjx⟩)).1
      have hlow := UInt32.lt_iff_toNat_lt.mp (ha.below x (List.mem_append_left _ hfirst))
      omega
  · obtain ⟨f, hf, hleaves⟩ := exists_of_mem_right (hs.leaves ha hr) hf'
    exact hnot f hf (List.mem_append_left _ (hleaves.heading ▸ hx))
  · obtain ⟨f, hf, hleaves⟩ := exists_of_mem_right (hs.leaves ha hr) hf'
    exact hnot f hf (List.mem_append_right _ (hleaves.bodyIds.subset hx))

theorem coherent_finished : (m₁.finished w₁).Coherent := by
  intro f' hf'
  obtain ⟨f, hf, hleft⟩ := exists_of_mem_right (hs.leaves ha hr) hf'
  exact hleft.coherent

/-- **The two things that can go wrong are the only ones.** -/
theorem accepted_finished_iff : (m₁.finished w₁).Accepted ↔
    (∀ f ∈ m₁.functionList, f.CoversDead) ∧ m.KeepsUsed (m₁.finished w₁) := by
  have hleaves := hs.leaves ha hr
  have htracks := hs.grows.tracks (ConstantTable.tracks_snapshot m.globals m.bound)
  constructor
  · refine fun ha' => ⟨fun f' hf' => ?_, keepsUsed_of_accepted ha hr hs ha'⟩
    obtain ⟨f, hf, hleft⟩ := exists_of_mem_right hleaves hf'
    exact hleft.sound.mp (ha'.sound f' hf')
  · rintro ⟨hcovers, hkeeps⟩
    obtain ⟨old, hold, hperm⟩ := exists_perm_definedIds ha hr hs
    have hlow : ∀ x ∈ old, x.word.toNat < m.bound.toNat := fun x hx =>
      UInt32.lt_iff_toNat_lt.mp (ha.below x (hold.subset hx))
    refine ⟨coherent_finished ha hr hs, isReadable_iff.mpr (fun f' hf' => ?_), ?_, fun x hx => ?_,
      fun x hx => defined_finished ha hr hs hkeeps hx, fun f' hf' => ?_⟩
    · obtain ⟨f, hf, hleft⟩ := exists_of_mem_right hleaves hf'
      exact hleft.readable
    · refine hperm.nodup_iff.mpr (List.nodup_append.mpr
        ⟨ha.nodup.sublist hold, htracks.nodup, fun x hx y hy hxy => ?_⟩)
      have hhigh := (htracks.fresh y hy).1
      have := hlow x hx
      subst hxy
      omega
    · refine UInt32.lt_iff_toNat_lt.mpr (?_ : x.word.toNat < w₁.ids.bound.toNat)
      rcases List.mem_append.mp (hperm.mem_iff.mp hx) with hx | hx
      · exact Nat.lt_of_lt_of_le (hlow x hx) htracks.bound_le
      · exact (htracks.fresh x hx).2
    · obtain ⟨f, hf, hleft⟩ := exists_of_mem_right hleaves hf'
      exact hleft.sound.mpr (hcovers f' hf')

end

/-! ## 4. The check -/

/-- **When the outcome passes the check.** -/
theorem check_eliminateDeadBranches_iff {wl : Whitelist} {status : Status} (hm : m.Coherent)
    (hcheck : m.check = .ok []) (hr : m.Regular)
    (h : m.eliminateDeadBranches wl = .ok (m', status)) :
    m'.check = .ok [] ↔ (∀ f ∈ m'.functionList, f.CoversDead) ∧ m.KeepsUsed m' := by
  have ha := (check_eq_ok_nil_iff hm).mp hcheck
  rcases eliminateDeadBranches_cases h with ⟨r, -, rfl, -⟩ | ⟨-, changed, hrun, -⟩
  · simp only [hcheck, true_iff]
    exact ⟨fun f hf => (ha.sound f hf).coversDead (hm f hf) (hr.function f hf),
      fun s i hi hgone => absurd hi hgone⟩
  · obtain ⟨m₁, w₁, hs, rfl⟩ := processFunctions_spec ha hrun
    rw [check_eq_ok_nil_iff (coherent_finished ha hr hs), accepted_finished_iff ha hr hs]
    rfl

/-- Block `%11` becomes unreachable and stays for its value `%14`, with a pair in the phi `%15`. -/
def keptForValue : Module := .ofFunction 16 boolGlobals (.ofBlocks ⟨1⟩ ⟨2⟩ ⟨3⟩ [
  ⟨⟨10⟩, [.selectionMerge ⟨12⟩, .branchConditional ⟨5⟩ ⟨12⟩ ⟨11⟩]⟩,
  ⟨⟨11⟩, [⟨.logicalNot, some ⟨4⟩, some ⟨14⟩, [.ref ⟨5⟩]⟩, .branch ⟨12⟩]⟩,
  ⟨⟨12⟩, [.phi ⟨4⟩ ⟨15⟩ [(⟨5⟩, ⟨10⟩), (⟨14⟩, ⟨11⟩)], .ret]⟩])

theorem check_eliminateDeadBranches_iff_keptForValue :
    keptForValue.Coherent ∧ keptForValue.check = .ok [] ∧ keptForValue.Regular ∧
      ∃ m', keptForValue.eliminateDeadBranches .default = .ok (m', .changed) ∧
        m'.check = .ok [] ∧ (∀ f ∈ m'.functionList, f.CoversDead) ∧ keptForValue.KeepsUsed m' := by
  have hm : keptForValue.Coherent := by decide
  have hcheck : keptForValue.check = .ok [] := by cbv
  have hr : keptForValue.Regular := by decide
  have hrun : (keptForValue.eliminateDeadBranches .default).toOption.map
      (fun r => (r.1.check.toOption, r.2)) = some (some [], .changed) := by
    rw [eliminateDeadBranches_of_no_extensions rfl .default (.ofNames [])]
    cbv
  obtain ⟨⟨m', status⟩, h, hout⟩ := toOption_map_eq_some.mp hrun
  obtain ⟨hafter, rfl⟩ := Prod.mk.inj hout
  have hafter : m'.check = .ok [] := by
    cases hc : m'.check with
    | error e => simp [hc, Except.toOption] at hafter
    | ok found => simpa [hc, Except.toOption] using hafter
  exact ⟨hm, hcheck, hr, m', h, hafter,
    (check_eliminateDeadBranches_iff hm hcheck hr h).mp hafter⟩

/-- Block `%12` always goes to `%13`, and that always to `%16`.  First `%12` gets an edge to the merge
block `%15`, then `%13` does and leaves `%12` unreachable.  It stays for the continue target `%11`. -/
def lateEdge : Module := .ofFunction 18 boolGlobals (.ofBlocks ⟨1⟩ ⟨2⟩ ⟨3⟩ [
  ⟨⟨10⟩, [.loopMerge ⟨15⟩ ⟨11⟩, .branch ⟨13⟩]⟩,
  ⟨⟨11⟩, [.branch ⟨12⟩]⟩,
  ⟨⟨12⟩, [.selectionMerge ⟨15⟩, .branchConditional ⟨5⟩ ⟨13⟩ ⟨14⟩]⟩,
  ⟨⟨13⟩, [.selectionMerge ⟨15⟩, .branchConditional ⟨5⟩ ⟨16⟩ ⟨12⟩]⟩,
  ⟨⟨14⟩, [.branch ⟨15⟩]⟩,
  ⟨⟨15⟩, [.phi ⟨4⟩ ⟨17⟩ [(⟨5⟩, ⟨14⟩)], .ret]⟩,
  ⟨⟨16⟩, [.ret]⟩])

/-- **A phi without a pair for an unreachable block that branches to it** does not pass the check. -/
theorem unreachable_parent_without_pair :
    lateEdge.Coherent ∧ lateEdge.check = .ok [] ∧ lateEdge.Regular ∧
      ∃ m', lateEdge.eliminateDeadBranches .default = .ok (m', .changed) ∧ m'.check ≠ .ok [] := by
  have hrun : (lateEdge.eliminateDeadBranches .default).toOption.map
      (fun r => (r.1.check.toOption.map List.length, r.2)) = some (some 1, .changed) := by
    rw [eliminateDeadBranches_of_no_extensions rfl .default (.ofNames [])]
    cbv
  obtain ⟨⟨m', status⟩, h, hout⟩ := toOption_map_eq_some.mp hrun
  obtain ⟨hafter, rfl⟩ := Prod.mk.inj hout
  refine ⟨by decide, by cbv, by decide, m', h, fun hc => ?_⟩
  simp [hc, Except.toOption] at hafter

end Module
end ShaderIR
