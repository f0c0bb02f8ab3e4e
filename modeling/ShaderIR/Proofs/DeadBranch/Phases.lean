import ShaderIR.DeadBranch.Elimination
import ShaderIR.Proofs.DeadBranch.FoldingRun
import ShaderIR.Proofs.DeadBranch.Removal
import ShaderIR.Proofs.DeadBranch.RepairedFunction

/-!
# The three phases

Dead branches are eliminated in three phases: folding, phi repair, removal.  `Phases` holds what each
of them has done.  The functions in between, like the one in the end, are well formed: coherent, made
of sound blocks, and with one definition for each id.

* `eliminateDeadBranches_phases`: a run is made of its phases;
* `Phases.wellFormed_folded`, `wellFormed_repaired`, `wellFormed_result`: what they keep;
* `Phases.reached_iff`: what can be reached in the end is what folding left reachable.
-/

namespace ShaderIR

/-- A shader with one function, which is its entry point. -/
def Module.ofFunction (bound : UInt32) (globals : List Instruction) (f : Function) : Module :=
  { Module.empty with
    capabilities := [⟨.capability, none, none, [.literal 1]⟩]
    entryPoints := [⟨.entryPoint, none, none, [.literal 4, .ref f.id, .string "main"]⟩]
    globals := globals
    bound := bound
    functions := ⟨#[f]⟩ }

/-- Types for a function without result, and the booleans: `%5` is true and `%6` is false. -/
def Module.boolGlobals : List Instruction :=
  [⟨.typeVoid, none, some ⟨2⟩, []⟩, ⟨.typeFunction, none, some ⟨3⟩, [.ref ⟨2⟩]⟩,
    ⟨.typeBool, none, some ⟨4⟩, []⟩, ⟨.constantTrue, some ⟨4⟩, some ⟨5⟩, []⟩,
    ⟨.constantFalse, some ⟨4⟩, some ⟨6⟩, []⟩]

namespace Function

/-! ## 1. Well-formed functions -/

variable {f f' : Function} {w w' : Workspace} {changed : Bool} {b c : BlockKey} {l : Id}
  {folded : Folding} {repaired : PhiRepair} {mended : BlockKey → List Instruction}

/-- A function whose parts fit together, whose blocks are sound and whose ids are defined once. -/
structure WellFormed (f : Function) : Prop where
  coherent : f.Coherent
  nodup : f.bodyIds.Nodup
  sound : f.SoundBlocks

theorem WellFormed.unique (h : f.WellFormed) : f.Unique := unique_of_nodup h.nodup

/-- The functions of an accepted module are well formed. -/
theorem wellFormed_of_accepted {m : Module} (ha : m.Accepted) (hf : f ∈ m.functionList) :
    f.WellFormed := by
  refine ⟨ha.coherent f hf, ?_, (ha.sound f hf).block⟩
  have hall := (List.nodup_append.mp ha.nodup).2.1
  exact (List.nodup_append.mp ((List.nodup_flatMap.mp hall).1 f hf)).2.1

/-! ## 2. The phases -/

/-- An instruction of the body has the type. -/
def UsesType (f : Function) (t : Id) : Prop :=
  ∃ b ∈ f.layout, ∃ i ∈ f.instructions b, i.type? = some t

instance (f : Function) (t : Id) : Decidable (f.UsesType t) :=
  inferInstanceAs (Decidable (∃ b ∈ f.layout, ∃ i ∈ f.instructions b, i.type? = some t))

/-- The run of the pass on one well-formed function, phase by phase. -/
structure Phases (f : Function) (w : Workspace) (f' : Function) (w' : Workspace) (folded : Folding)
    (repaired : PhiRepair) (mended : BlockKey → List Instruction) : Prop where
  wellFormed : f.WellFormed
  run : Folding.run f w.constants w.ids = .ok folded
  fold : Folding.Progress f w.constants w.ids f.structuredOrder folded
  repair : PhiRepair.Repaired f.UsesType folded.function folded.constants folded.ids repaired mended
  remove : repaired.function.Removed (w.killed.addAll (repaired.replacements.map Prod.fst)) f'
    w'.killed
  constants : w'.constants = repaired.constants
  ids : w'.ids = repaired.ids

/-- The types in a folded function are those of the function before. -/
theorem usesType_folded {T : ConstantTable} {ids : IdSupply} {done : List BlockKey} {s : Folding}
    (h : Folding.Progress f T ids done s) {i : Instruction} (hb : b ∈ s.function.layout)
    (hi : i ∈ s.function.instructions b) {t : Id} (ht : i.type? = some t) : f.UsesType t := by
  rw [h.frame.layout] at hb
  obtain ⟨k, hk, -⟩ := h.source.exists_block hb
  obtain ⟨k', hk', -, body, merge?, e, merge?', e', hp, hp', hend⟩ := h.block b hb k hk
  rw [instructions_of_block? hk', hp'.eq, List.append_assoc] at hi
  refine ⟨b, hb, i, ?_, ht⟩
  rw [instructions_of_block? hk, hp.eq, List.append_assoc]
  rcases List.mem_append.mp hi with hi | hi
  · exact List.mem_append_left _ hi
  · refine List.mem_append_right _ ?_
    cases hend with
    | same => exact hi
    | fold =>
      obtain rfl := List.mem_singleton.mp (by simpa using hi)
      cases ht
    | narrow =>
      rcases List.mem_cons.mp hi with rfl | hi
      · cases ht
      · obtain rfl := List.mem_singleton.mp hi
        cases ht

/-- What the three runs of the phases do. -/
theorem phases_of_runs (hf : f.WellFormed) {killed : SortedSet Id} {removed : Bool}
    (hfold : Folding.run f w.constants w.ids = .ok folded)
    (hrepair : PhiRepair.run folded.function folded.constants folded.ids = .ok repaired)
    (hremove : repaired.function.removeUnreachable
      (w.killed.addAll (repaired.replacements.map Prod.fst)) = .ok (f', killed, removed)) :
    ∃ mended, Phases f w f' ⟨repaired.constants, repaired.ids, killed⟩ folded repaired mended := by
  have hprogress := (Folding.run_induct (P := fun _ => True) hf.coherent hf.sound.hasParts hfold
    trivial (fun _ _ _ _ _ _ _ _ _ _ => trivial)).1
  have hunique := unique_of_nodup (hf.nodup.sublist hprogress.bodyIds_sublist)
  obtain ⟨mended, hrepaired⟩ := PhiRepair.run_spec (P := f.UsesType) hprogress.coherent hunique
    (fun b hb i hi t ht => usesType_folded hprogress hb hi ht) hrepair
  exact ⟨mended, hf, hfold, hprogress, hrepaired,
    removeUnreachable_spec hrepaired.coherent hremove, rfl, rfl⟩

/-- **A run is made of its phases.** -/
theorem eliminateDeadBranches_phases (hf : f.WellFormed)
    (h : f.eliminateDeadBranches w = .ok (f', w', changed)) :
    ∃ folded repaired mended, Phases f w f' w' folded repaired mended := by
  obtain ⟨folded, hfold, h⟩ := bind_eq_ok.mp h
  obtain ⟨repaired, hrepair, h⟩ := bind_eq_ok.mp h
  obtain ⟨⟨g, killed, removed⟩, hremove, h⟩ := bind_eq_ok.mp h
  cases h
  exact ⟨folded, repaired, phases_of_runs hf hfold hrepair hremove⟩

namespace Phases

theorem wellFormed_folded (h : Phases f w f' w' folded repaired mended) :
    folded.function.WellFormed :=
  ⟨h.fold.coherent, h.wellFormed.nodup.sublist h.fold.bodyIds_sublist,
    h.fold.soundBlocks h.wellFormed.sound⟩

theorem wellFormed_repaired (h : Phases f w f' w' folded repaired mended) :
    repaired.function.WellFormed := by
  have hw := h.wellFormed_folded
  exact ⟨h.repair.coherent, hw.nodup.sublist h.repair.bodyIds_sublist,
    h.repair.soundBlocks hw.sound⟩

theorem wellFormed_result (h : Phases f w f' w' folded repaired mended) : f'.WellFormed := by
  have hw := h.wellFormed_repaired
  exact ⟨h.remove.coherent, hw.nodup.sublist h.remove.bodyIds_sublist,
    h.remove.soundBlocks hw.unique hw.sound⟩

/-- **After folding, control gets everywhere it still gets in the end.** -/
theorem reached_iff (h : Phases f w f' w' folded repaired mended) :
    f'.Reached b ↔ folded.function.Reached b := by
  rw [h.remove.reached_iff, h.repair.reached_iff h.wellFormed_folded.sound]

/-- An id that the body does not define is not renamed. -/
theorem rename_of_not_mem_bodyIds (h : Phases f w f' w' folded repaired mended) {x : Id}
    (hx : x ∉ f.bodyIds) : PhiRepair.rename repaired.replacements x = x := by
  refine PhiRepair.rename_of_not_mem (fun hmem => hx ?_)
  exact h.fold.bodyIds_sublist.subset (h.repair.mem_bodyIds_of_replaced hmem)

theorem heading (h : Phases f w f' w' folded repaired mended) :
    f'.id = f.id ∧ f'.definition = f.definition ∧ f'.params = f.params := by
  obtain ⟨hid, hdef, hparams⟩ := h.remove.heading
  exact ⟨hid.trans (h.repair.frame.id.trans h.fold.frame.id),
    hdef.trans (h.repair.frame.definition.trans h.fold.frame.definition),
    hparams.trans (h.repair.frame.params.trans h.fold.frame.params)⟩

/-- The known constants have only become more. -/
theorem grows (h : Phases f w f' w' folded repaired mended) :
    w.constants.Grows f.UsesType w.ids w'.constants w'.ids := by
  rw [h.constants, h.ids]
  exact (h.fold.grows.weaken (fun _ hfalse => hfalse.elim)).trans h.repair.grows

theorem killed_mono (h : Phases f w f' w' folded repaired mended) {x : Id}
    (hx : w.killed.contains x = true) : w'.killed.contains x = true := by
  refine (h.remove.killed x).mpr (.inr ?_)
  rw [SortedSet.contains_addAll, hx, Bool.or_true]

end Phases
end Function

/-! ## 3. Constants and bodies -/

/-- What a table knows is about no id of a body, a boolean is not a number, and its `true` is
known to be true. -/
structure ConstantTable.Apart (T : ConstantTable) (f : Function) : Prop where
  bool : ∀ x v, T.bool? x = some v → x ∉ f.bodyIds
  int : ∀ x w, T.int? x = some w → x ∉ f.bodyIds ∧ T.bool? x = none
  isTrue : ∀ x, T.true? = some x → T.bool? x = some true
  undef : ∀ t x, T.undefs.get? t = some x → x ∉ f.bodyIds

/-- A body among globals: its ids lie below the bound and are not those of the globals, and so do
the ids it mentions. -/
structure Function.LivesIn (f : Function) (globals : List Instruction) (bound : UInt32) : Prop where
  below : ∀ x ∈ f.bodyIds, x.word < bound
  own : ∀ x ∈ f.bodyIds, x ∉ ConstantTable.results globals
  uses : ∀ x ∈ f.bodyUses, x.word < bound

namespace Function.LivesIn

variable {f : Function} {globals : List Instruction} {bound : UInt32} {T : ConstantTable}
  {ids : IdSupply} {x : Id}

/-- The ids of the globals and of the queue of a tracking table are not those of a body. -/
theorem not_mem_bodyIds (hf : f.LivesIn globals bound) (hT : T.Tracks ids globals bound)
    (hx : x ∈ ConstantTable.results (globals ++ T.newGlobals)) : x ∉ f.bodyIds := by
  intro hbody
  rw [ConstantTable.results, List.filterMap_append] at hx
  rcases List.mem_append.mp hx with hx | hx
  · exact hf.own x hbody hx
  · have hlow := UInt32.lt_iff_toNat_lt.mp (hf.below x hbody)
    have hhigh := (hT.fresh x hx).1
    omega

/-- The queue of a tracking table may be added to the globals. -/
theorem later (hf : f.LivesIn globals bound) (hT : T.Tracks ids globals bound) :
    f.LivesIn (globals ++ T.newGlobals) ids.bound := by
  have hle : ∀ {x : Id}, x.word < bound → x.word < ids.bound := fun hx =>
    UInt32.lt_iff_toNat_lt.mpr (Nat.lt_of_lt_of_le (UInt32.lt_iff_toNat_lt.mp hx) hT.bound_le)
  exact ⟨fun x hx => hle (hf.below x hx), fun x hx hres => hf.not_mem_bodyIds hT hres hx,
    fun x hx => hle (hf.uses x hx)⟩

/-- **An anchored table keeps apart from the bodies.** -/
theorem apart (hf : f.LivesIn globals bound) (hT : T.Anchored ids globals bound) : T.Apart f := by
  have hfrom := hT.comesFrom
  refine ⟨fun x v hx => hf.not_mem_bodyIds hT.toTracks (hT.mem_results_of_bool? hx),
    fun x n hx => ⟨hf.not_mem_bodyIds hT.toTracks (hT.mem_results_of_int? hx), ?_⟩, hfrom.isTrue,
    fun t x hx => hf.not_mem_bodyIds hT.toTracks (hfrom.undef_mem_results hx)⟩
  -- the two entries would come from one global
  cases hb : T.bool? x with
  | none => rfl
  | some v =>
    obtain ⟨i, hi, hri, hoi⟩ := hfrom.int x n hx
    obtain ⟨j, hj, hrj, hoj⟩ := hfrom.bool x v hb
    obtain rfl := Function.eq_of_mem_of_nodup_results hT.results_nodup hi hj hri hrj
    rcases hoi with ho | ho <;> cases v <;> simp [ho] at hoj

end Function.LivesIn

namespace Module.Accepted

variable {m : Module} {f : Function} {x : Id} {T : ConstantTable} {ids : IdSupply}

theorem nodup_globals (ha : m.Accepted) : (ConstantTable.results m.globals).Nodup := by
  refine (List.nodup_append.mp ha.nodup).1.sublist ?_
  rw [header_eq]
  exact (List.sublist_append_right _ _).filterMap _

theorem mem_definedIds_of_globals (hx : x ∈ ConstantTable.results m.globals) :
    x ∈ m.header.filterMap Instruction.result? := by
  obtain ⟨i, hi, hr⟩ := List.mem_filterMap.mp hx
  exact List.mem_filterMap.mpr ⟨i, List.mem_flatMap.mpr ⟨.globals, by decide, hi⟩, hr⟩

theorem below_globals (ha : m.Accepted) :
    ∀ x ∈ ConstantTable.results m.globals, x.word < m.bound := fun x hx =>
  ha.below x (List.mem_append_left _ (mem_definedIds_of_globals hx))

theorem mem_definedIds_of_body (hf : f ∈ m.functionList) (hx : x ∈ f.bodyIds) :
    x ∈ m.definedIds :=
  List.mem_append_right _ (List.mem_flatMap.mpr ⟨f, hf, List.mem_append_right _ hx⟩)

/-- The bodies of an accepted module live among its globals. -/
theorem livesIn (ha : m.Accepted) (hf : f ∈ m.functionList) : f.LivesIn m.globals m.bound where
  below x hx := ha.below x (mem_definedIds_of_body hf hx)
  own x hbody hx := (List.nodup_append.mp ha.nodup).2.2 x (mem_definedIds_of_globals hx) x
    (List.mem_flatMap.mpr ⟨f, hf, List.mem_append_right _ hbody⟩) rfl
  uses x hx := ha.below x (ha.defined x
    (List.mem_append_right _ (List.mem_flatMap.mpr ⟨f, hf, List.mem_append_right _ hx⟩)))

/-- **A tracking table keeps apart from the bodies.** -/
theorem apart (ha : m.Accepted) (hf : f ∈ m.functionList) (hT : T.Tracks ids m.globals m.bound) :
    T.Apart f := (ha.livesIn hf).apart ⟨hT, ha.nodup_globals, ha.below_globals⟩

end Module.Accepted
end ShaderIR
