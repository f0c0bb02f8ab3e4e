import ShaderIR.ConstantTable
import ShaderIR.Proofs.Runs

/-!
# Tables of constants and how they grow

A table starts as the snapshot of a list of globals and grows by making `true` and undefined values.
What it makes it also queues, so at any time it is the snapshot of the globals together with the
queue (`ConstantTable.Tracks`); the ids it hands out are new.

* `comesFrom_snapshot`: what the entries of a snapshot come from;
* `Grows`: a table and an id supply change only by making constants;
* `Grows.known_of_lt`: known constants stay known;
* `Grows.hasQueued`: what a growing table queues, and under which ids;
* `Grows.tracks`: a table that grows goes on tracking the globals;
* `Grows.uses_newGlobals`: what the queued globals mention;
* `Anchored`, `Grows.extends`: a table over globals in order forgets nothing.
-/

namespace ShaderIR

/-! ## 1. Fresh ids -/

namespace IdSupply

variable {s s' : IdSupply} {x : Id}

/-- The id that is taken is the bound, and the bound moves past it. -/
theorem take_eq_ok (h : s.take = .ok (x, s')) :
    x.word = s.bound ∧ s.bound.toNat + 1 = s'.bound.toNat ∧ s.bound ≠ 0 := by
  unfold take at h
  split at h
  · cases h
  · rename_i hmax
    obtain ⟨id, hid, h⟩ := bind_eq_ok.mp h
    cases h
    unfold Id.ofWord at hid
    split at hid
    · cases hid
    · rename_i hzero
      cases hid
      refine ⟨rfl, ?_, hzero⟩
      have hlt : s.bound.toNat < 4294967295 := by
        have := s.bound.toNat_lt
        have hne : s.bound.toNat ≠ 4294967295 := fun he => hmax (UInt32.toNat_inj.mp he)
        omega
      rw [UInt32.toNat_add]
      have : (1 : UInt32).toNat = 1 := rfl
      omega

end IdSupply

theorem Module.toNat_bound_supply (m : Module) : m.supply.bound.toNat = max m.bound.toNat 1 := by
  unfold supply IdSupply.startingAt
  split
  · rename_i hzero
    rw [hzero]
    rfl
  · rename_i hpos
    have : m.bound.toNat ≠ 0 := fun h => hpos (UInt32.toNat_inj.mp h)
    simp only
    omega

namespace ConstantTable

/-! ## 2. Snapshots -/

/-- The table of a list of globals. -/
def snapshot (globals : List Instruction) : ConstantTable := (globals.foldl addGlobal (empty, [])).1

theorem ofModule_eq_snapshot (m : Module) : ofModule m = snapshot m.globals := rfl

theorem newGlobals_addGlobal (state : ConstantTable × List Id) (i : Instruction) :
    (addGlobal state i).1.newGlobals = state.1.newGlobals := by
  unfold addGlobal
  repeat' split
  all_goals rfl

@[simp] theorem newGlobals_snapshot (globals : List Instruction) :
    (snapshot globals).newGlobals = [] := by
  have : ∀ state : ConstantTable × List Id,
      (globals.foldl addGlobal state).1.newGlobals = state.1.newGlobals := by
    induction globals with
    | nil => exact fun _ => rfl
    | cons i globals ih => exact fun state => (ih _).trans (newGlobals_addGlobal state i)
  exact this _

/-- The results of a list of instructions. -/
def results (is : List Instruction) : List Id := is.filterMap Instruction.result?

/-- What the entries of a table come from: known booleans and integers are results of constants of
their kind, the constant `true` is a known boolean, and undefined values and the type of booleans
are results of globals that say so. -/
structure ComesFrom (T : ConstantTable) (globals : List Instruction) : Prop where
  bool : ∀ x v, T.bool? x = some v → ∃ i ∈ globals, i.result? = some x ∧
    i.opcode = if v then .constantTrue else .constantFalse
  int : ∀ x w, T.int? x = some w → ∃ i ∈ globals, i.result? = some x ∧
    (i.opcode = .constant ∨ i.opcode = .constantNull)
  isTrue : ∀ x, T.true? = some x → T.bool? x = some true
  undef : ∀ t x, T.undefs.get? t = some x → ∃ i ∈ globals, i.result? = some x ∧
    i.opcode = .undef ∧ i.type? = some t
  boolType : ∀ x, T.boolType? = some x → ∃ i ∈ globals, i.result? = some x ∧ i.opcode = .typeBool

namespace ComesFrom

variable {T : ConstantTable} {globals globals' : List Instruction} {i : Instruction} {r : Id}

theorem undef_mem_results (h : T.ComesFrom globals) {t x : Id} (hx : T.undefs.get? t = some x) :
    x ∈ results globals := by
  obtain ⟨i, hi, hr, -⟩ := h.undef t x hx
  exact List.mem_filterMap.mpr ⟨i, hi, hr⟩

theorem boolType_mem_results (h : T.ComesFrom globals) {x : Id} (hx : T.boolType? = some x) :
    x ∈ results globals := by
  obtain ⟨i, hi, hr, -⟩ := h.boolType x hx
  exact List.mem_filterMap.mpr ⟨i, hi, hr⟩

theorem bool_mem_results (h : T.ComesFrom globals) {x : Id} {v : Bool} (hx : T.bool? x = some v) :
    x ∈ results globals := by
  obtain ⟨i, hi, hr, -⟩ := h.bool x v hx
  exact List.mem_filterMap.mpr ⟨i, hi, hr⟩

theorem mono (h : T.ComesFrom globals) (hsub : globals ⊆ globals') : T.ComesFrom globals' := by
  refine ⟨?_, ?_, h.isTrue, ?_, ?_⟩
  · intro x v hx
    obtain ⟨j, hj, hj'⟩ := h.bool x v hx
    exact ⟨j, hsub hj, hj'⟩
  · intro x w hx
    obtain ⟨j, hj, hj'⟩ := h.int x w hx
    exact ⟨j, hsub hj, hj'⟩
  · intro t x hx
    obtain ⟨j, hj, hj'⟩ := h.undef t x hx
    exact ⟨j, hsub hj, hj'⟩
  · intro x hx
    obtain ⟨j, hj, hj'⟩ := h.boolType x hx
    exact ⟨j, hsub hj, hj'⟩

/-! What a table learns from a global is a result of that global. -/

section Learn

variable (h : T.ComesFrom globals) (hi : i ∈ globals) (hr : i.result? = some r)

include h hi hr

theorem learnBoolType (ho : i.opcode = .typeBool) :
    ComesFrom { T with boolType? := T.boolType?.or (some r) } globals := by
  refine ⟨h.bool, h.int, h.isTrue, h.undef, ?_⟩
  intro x hx
  rcases Option.or_eq_some_iff.mp hx with hx | ⟨-, hx⟩
  · exact h.boolType x hx
  · cases hx
    exact ⟨i, hi, hr, ho⟩

theorem bool_insert {v : Bool} (ho : i.opcode = if v then .constantTrue else .constantFalse)
    (x : Id) (w : Bool) (hx : (T.bools.insert r v).get? x = some w) :
    ∃ j ∈ globals, j.result? = some x ∧
      j.opcode = if w then .constantTrue else .constantFalse := by
  rw [SortedMap.get?_insert] at hx
  split at hx
  · rename_i he
    cases hx
    exact ⟨i, hi, by rw [hr, he], ho⟩
  · exact h.bool x w hx

theorem learnTrue (ho : i.opcode = .constantTrue) :
    ComesFrom { T with bools := T.bools.insert r true, true? := T.true?.or (some r) } globals := by
  refine ⟨h.bool_insert hi hr (v := true) ho, h.int, ?_, h.undef, h.boolType⟩
  intro x hx
  rw [bool?, SortedMap.get?_insert]
  split
  · rfl
  · rename_i hne
    rcases Option.or_eq_some_iff.mp hx with hx | ⟨-, hx⟩
    · exact h.isTrue x hx
    · cases hx
      exact absurd rfl hne

/-- A new `false` must not have the id of the constant `true`. -/
theorem learnFalse (ho : i.opcode = .constantFalse) (hnew : T.bool? r = none) :
    ComesFrom { T with bools := T.bools.insert r false } globals := by
  refine ⟨h.bool_insert hi hr (v := false) ho, h.int, ?_, h.undef, h.boolType⟩
  intro x hx
  have hx' := h.isTrue x hx
  rw [bool?, SortedMap.get?_insert]
  split
  · rename_i he
    rw [he, hnew] at hx'
    cases hx'
  · exact hx'

theorem learnInt (ho : i.opcode = .constant ∨ i.opcode = .constantNull) (value : UInt32) :
    ComesFrom { T with ints := T.ints.insert r value } globals := by
  refine ⟨h.bool, ?_, h.isTrue, h.undef, h.boolType⟩
  intro x w hx
  rw [int?, SortedMap.get?_insert] at hx
  split at hx
  · rename_i he
    exact ⟨i, hi, by rw [hr, he], ho⟩
  · exact h.int x w hx

theorem learnUndef {type : Id} (ho : i.opcode = .undef) (htype : i.type? = some type) :
    ComesFrom { T with undefs := T.undefs.insertIfNew type r } globals := by
  refine ⟨h.bool, h.int, h.isTrue, ?_, h.boolType⟩
  intro t x hx
  simp only [SortedMap.insertIfNew] at hx
  split at hx
  · exact h.undef t x hx
  · rw [SortedMap.get?_insert] at hx
    split at hx
    · rename_i he
      cases hx
      exact ⟨i, hi, hr, ho, he ▸ htype⟩
    · exact h.undef t x hx

end Learn

theorem addGlobal {int32s : List Id} (h : T.ComesFrom globals) (i : Instruction)
    (hnew : ∀ x, i.result? = some x → x ∉ results globals) :
    (ConstantTable.addGlobal (T, int32s) i).1.ComesFrom (globals ++ [i]) := by
  have hmore : T.ComesFrom (globals ++ [i]) := h.mono (List.subset_append_left _ _)
  have hi : i ∈ globals ++ [i] := List.mem_append_right _ (List.mem_singleton.mpr rfl)
  unfold ConstantTable.addGlobal
  cases hr : i.result? with
  | none => exact hmore
  | some r =>
    simp only
    split
    · exact hmore.learnBoolType hi hr ‹_›
    · split <;> exact hmore
    · exact hmore.learnTrue hi hr ‹_›
    · refine hmore.learnFalse hi hr ‹_› (Option.eq_none_iff_forall_ne_some.mpr ?_)
      intro v hv
      exact hnew r hr (h.bool_mem_results hv)
    · split
      · split
        · exact hmore.learnInt hi hr (.inl ‹_›) _
        · exact hmore
      · exact hmore
    · split
      · split
        · exact hmore.learnInt hi hr (.inr ‹_›) _
        · exact hmore
      · exact hmore
    · split
      · exact hmore.learnUndef hi hr ‹_› ‹_›
      · exact hmore
    · exact hmore

end ComesFrom

/-- **Every entry of a snapshot comes from a global**, where no global redefines another. -/
theorem comesFrom_snapshot {globals : List Instruction} (h : (results globals).Nodup) :
    (snapshot globals).ComesFrom globals := by
  induction globals using List.reverseRecOn with
  | nil => exact ⟨by simp [snapshot, empty, bool?], by simp [snapshot, empty, int?],
      by simp [snapshot, empty], by simp [snapshot, empty], by simp [snapshot, empty]⟩
  | append_singleton globals i ih =>
    simp only [results, List.filterMap_append] at h
    obtain ⟨hnd, -, hdisj⟩ := List.nodup_append.mp h
    have hsnap : snapshot (globals ++ [i]) =
        (addGlobal (snapshot globals, (globals.foldl addGlobal (empty, [])).2) i).1 := by
      simp [snapshot, List.foldl_append]
    rw [hsnap]
    refine (ih hnd).addGlobal i (fun x hx hmem => ?_)
    exact hdisj x hmem x (by simp [hx]) rfl

/-! ## 3. Making constants -/

variable {T T' T₁ T₂ : ConstantTable} {ids ids' ids₁ ids₂ : IdSupply} {x type : Id}

/-- A table with one more global, queued under a fresh id. -/
def Queues (T : ConstantTable) (ids : IdSupply) (i : Instruction) (T' : ConstantTable)
    (ids' : IdSupply) : Prop :=
  ∃ x, ids.take = .ok (x, ids') ∧ i.result? = some x ∧ T'.newGlobals = T.newGlobals ++ [i] ∧
    ∀ int32s, { (addGlobal (T, int32s) i).1 with newGlobals := T'.newGlobals } = T' ∧
      (addGlobal (T, int32s) i).2 = int32s

theorem boolType_cases (h : T.boolType ids = .ok (x, T', ids')) :
    (T.boolType? = some x ∧ T' = T ∧ ids' = ids) ∨
      (T.boolType? = none ∧ T'.boolType? = some x ∧ T'.true? = T.true? ∧
        Queues T ids ⟨.typeBool, none, some x, []⟩ T' ids') := by
  unfold boolType at h
  split at h
  · rename_i t ht
    cases h
    exact .inl ⟨ht, rfl, rfl⟩
  · rename_i ht
    obtain ⟨⟨t, ids₁⟩, htake, h⟩ := bind_eq_ok.mp h
    cases h
    refine .inr ⟨ht, rfl, rfl, x, htake, rfl, rfl, fun int32s => ?_⟩
    simp [addGlobal, ht]

/-- The constant `true` exists already, or it is queued, after the type of booleans if that is
missing. -/
theorem trueConstant_cases (h : T.trueConstant ids = .ok (x, T', ids')) :
    (T.true? = some x ∧ T' = T ∧ ids' = ids) ∨
      (T.true? = none ∧ ∃ type T₁ ids₁, T.boolType ids = .ok (type, T₁, ids₁) ∧
        T₁.boolType? = some type ∧
        Queues T₁ ids₁ ⟨.constantTrue, some type, some x, []⟩ T' ids') := by
  unfold trueConstant at h
  split at h
  · rename_i t ht
    cases h
    exact .inl ⟨ht, rfl, rfl⟩
  · rename_i ht
    obtain ⟨⟨type, T₁, ids₁⟩, hbool, h⟩ := bind_eq_ok.mp h
    obtain ⟨⟨id, ids₂⟩, htake, h⟩ := bind_eq_ok.mp h
    cases h
    have hT₁ : T₁.true? = none ∧ T₁.boolType? = some type := by
      rcases boolType_cases hbool with ⟨hb, rfl, rfl⟩ | ⟨-, hb, htrue, -⟩
      · exact ⟨ht, hb⟩
      · exact ⟨htrue.trans ht, hb⟩
    refine .inr ⟨ht, type, T₁, ids₁, hbool, hT₁.2, x, htake, rfl, rfl, fun int32s => ?_⟩
    simp [addGlobal, hT₁.1]

/-- The undefined value of a type exists already, or it is queued. -/
theorem undef_cases (h : T.undef type ids = .ok (x, T', ids')) :
    T'.undefs.get? type = some x ∧
      ((T' = T ∧ ids' = ids) ∨
        (T.undefs.get? type = none ∧ Queues T ids ⟨.undef, some type, some x, []⟩ T' ids')) := by
  unfold undef at h
  split at h
  · rename_i u hu
    cases h
    exact ⟨hu, .inl ⟨rfl, rfl⟩⟩
  · rename_i hu
    obtain ⟨⟨id, ids₁⟩, htake, h⟩ := bind_eq_ok.mp h
    cases h
    refine ⟨by simp [SortedMap.get?_insert], .inr ⟨hu, x, htake, rfl, rfl, fun int32s => ?_⟩⟩
    simp [addGlobal, SortedMap.insertIfNew, SortedMap.contains_eq_isSome, hu]

/-- A table and an id supply change by making constants only.  Undefined values are made for types
that satisfy `P`. -/
inductive Grows (P : Id → Prop) (T : ConstantTable) (ids : IdSupply) :
    ConstantTable → IdSupply → Prop
  | refl : Grows P T ids T ids
  | trueConstant {T₁ T₂ : ConstantTable} {ids₁ ids₂ : IdSupply} {x : Id} :
      Grows P T ids T₁ ids₁ → T₁.trueConstant ids₁ = .ok (x, T₂, ids₂) → Grows P T ids T₂ ids₂
  | undef {T₁ T₂ : ConstantTable} {ids₁ ids₂ : IdSupply} {type x : Id} :
      Grows P T ids T₁ ids₁ → P type → T₁.undef type ids₁ = .ok (x, T₂, ids₂) →
      Grows P T ids T₂ ids₂

theorem Grows.trans {P : Id → Prop} (h : Grows P T ids T₁ ids₁) (h' : Grows P T₁ ids₁ T₂ ids₂) :
    Grows P T ids T₂ ids₂ := by
  induction h' with
  | refl => exact h
  | trueConstant _ hx ih => exact ih.trueConstant hx
  | undef _ hP hx ih => exact ih.undef hP hx

theorem undefs_boolType (h : T.boolType ids = .ok (x, T', ids')) : T'.undefs = T.undefs := by
  unfold boolType at h
  split at h
  · cases h
    rfl
  · obtain ⟨_, -, h⟩ := bind_eq_ok.mp h
    cases h
    rfl

theorem undefs_trueConstant (h : T.trueConstant ids = .ok (x, T', ids')) :
    T'.undefs = T.undefs := by
  unfold trueConstant at h
  split at h
  · cases h
    rfl
  · obtain ⟨⟨type, T₁, ids₁⟩, hbool, h⟩ := bind_eq_ok.mp h
    obtain ⟨_, -, h⟩ := bind_eq_ok.mp h
    cases h
    have := undefs_boolType hbool
    exact this

/-- The undefined value of a type stays the same. -/
theorem Grows.undefs_mono {P : Id → Prop} (h : Grows P T ids T' ids') {u : Id}
    (hu : T.undefs.get? type = some u) : T'.undefs.get? type = some u := by
  induction h with
  | refl => exact hu
  | trueConstant _ hx ih =>
    rw [undefs_trueConstant hx]
    exact ih
  | undef _ _ hx ih =>
    unfold ConstantTable.undef at hx
    split at hx
    · cases hx
      exact ih
    · rename_i hnone
      obtain ⟨_, -, hx⟩ := bind_eq_ok.mp hx
      cases hx
      rw [SortedMap.get?_insert]
      split
      · rename_i he
        rw [he, hnone] at ih
        cases ih
      · exact ih

theorem Grows.weaken {P Q : Id → Prop} (h : Grows P T ids T' ids') (hPQ : ∀ x, P x → Q x) :
    Grows Q T ids T' ids' := by
  induction h with
  | refl => exact .refl
  | trueConstant _ hx ih => exact ih.trueConstant hx
  | undef _ hP hx ih => exact ih.undef (hPQ _ hP) hx

theorem true?_trueConstant (h : T.trueConstant ids = .ok (x, T', ids')) : T'.true? = some x := by
  unfold trueConstant at h
  split at h
  · cases h
    assumption
  · obtain ⟨_, -, h⟩ := bind_eq_ok.mp h
    obtain ⟨_, -, h⟩ := bind_eq_ok.mp h
    cases h
    rfl

/-- The constant `true` stays the same. -/
theorem Grows.true?_mono {P : Id → Prop} (h : Grows P T ids T' ids') (hx : T.true? = some x) :
    T'.true? = some x := by
  induction h with
  | refl => exact hx
  | trueConstant _ htrue ih =>
    simp only [ConstantTable.trueConstant, ih] at htrue
    cases htrue
    exact ih
  | undef _ _ hu ih =>
    unfold ConstantTable.undef at hu
    split at hu
    · cases hu
      exact ih
    · obtain ⟨_, -, hu⟩ := bind_eq_ok.mp hu
      cases hu
      exact ih

/-! ## 4. What a table knows about old ids -/

theorem known_addGlobal_of_ne {int32s : List Id} {i : Instruction} (hx : i.result? ≠ some x) :
    (addGlobal (T, int32s) i).1.bool? x = T.bool? x ∧
      (addGlobal (T, int32s) i).1.int? x = T.int? x := by
  unfold addGlobal
  cases hr : i.result? with
  | none => exact ⟨rfl, rfl⟩
  | some r =>
    have hne : x ≠ r := fun he => hx (by rw [hr, he])
    simp only
    repeat' split
    all_goals simp [bool?, int?, SortedMap.get?_insert, hne]

theorem Queues.known_of_lt {i : Instruction} (h : Queues T ids i T' ids')
    (hx : x.word.toNat < ids.bound.toNat) : T'.bool? x = T.bool? x ∧ T'.int? x = T.int? x := by
  obtain ⟨y, htake, hr, -, hT⟩ := h
  have hne : i.result? ≠ some x := by
    rw [hr]
    rintro ⟨⟩
    rw [(IdSupply.take_eq_ok htake).1] at hx
    omega
  rw [← (hT []).1]
  exact known_addGlobal_of_ne hne

theorem Queues.bound_lt {i : Instruction} (h : Queues T ids i T' ids') :
    ids.bound.toNat < ids'.bound.toNat := by
  obtain ⟨y, htake, -⟩ := h
  have := (IdSupply.take_eq_ok htake).2.1
  omega

/-- What holds of a table and is kept when a global is queued holds of the table that it grows to.
The queued global is the type of booleans, the constant `true`, or the undefined value of a type. -/
theorem Grows.induct {P : Id → Prop} {Q : ConstantTable → IdSupply → Prop}
    (h : Grows P T ids T' ids') (hQ : Q T ids)
    (hbool : ∀ T₁ ids₁ T₂ ids₂ x, Q T₁ ids₁ → Queues T₁ ids₁ ⟨.typeBool, none, some x, []⟩ T₂ ids₂ →
      Q T₂ ids₂)
    (htrue : ∀ T₁ ids₁ T₂ ids₂ type x, Q T₁ ids₁ → T₁.boolType? = some type →
      Queues T₁ ids₁ ⟨.constantTrue, some type, some x, []⟩ T₂ ids₂ → Q T₂ ids₂)
    (hundef : ∀ T₁ ids₁ T₂ ids₂ type x, Q T₁ ids₁ → P type →
      Queues T₁ ids₁ ⟨.undef, some type, some x, []⟩ T₂ ids₂ → Q T₂ ids₂) : Q T' ids' := by
  induction h with
  | refl => exact hQ
  | trueConstant _ hx ih =>
    rcases trueConstant_cases hx with ⟨-, rfl, rfl⟩ | ⟨-, t, T₃, ids₃, hb, ht, hq⟩
    · exact ih
    · refine htrue _ _ _ _ _ _ ?_ ht hq
      rcases boolType_cases hb with ⟨-, rfl, rfl⟩ | ⟨-, -, -, hq'⟩
      · exact ih
      · exact hbool _ _ _ _ _ ih hq'
  | undef _ hP hx ih =>
    rcases (undef_cases hx).2 with ⟨rfl, rfl⟩ | ⟨-, hq⟩
    · exact ih
    · exact hundef _ _ _ _ _ _ ih hP hq

/-- **A growing table learns about new ids only**, and the supply only moves on. -/
theorem Grows.known_of_lt {P : Id → Prop} (h : Grows P T ids T' ids') :
    ids.bound.toNat ≤ ids'.bound.toNat ∧
      ∀ x : Id, x.word.toNat < ids.bound.toNat → T'.bool? x = T.bool? x ∧ T'.int? x = T.int? x := by
  have hqueue : ∀ {T₁ T₂ : ConstantTable} {ids₁ ids₂ : IdSupply} {i : Instruction},
      (ids.bound.toNat ≤ ids₁.bound.toNat ∧ ∀ x : Id, x.word.toNat < ids.bound.toNat →
        T₁.bool? x = T.bool? x ∧ T₁.int? x = T.int? x) → Queues T₁ ids₁ i T₂ ids₂ →
      ids.bound.toNat ≤ ids₂.bound.toNat ∧ ∀ x : Id, x.word.toNat < ids.bound.toNat →
        T₂.bool? x = T.bool? x ∧ T₂.int? x = T.int? x := by
    intro T₁ T₂ ids₁ ids₂ i hQ hq
    have hlt := hq.bound_lt
    refine ⟨by omega, fun x hx => ?_⟩
    have hstep := hq.known_of_lt (x := x) (by omega)
    have hold := hQ.2 x hx
    exact ⟨hstep.1.trans hold.1, hstep.2.trans hold.2⟩
  exact h.induct ⟨Nat.le_refl _, fun _ _ => ⟨rfl, rfl⟩⟩ (fun _ _ _ _ _ hQ hq => hqueue hQ hq)
    (fun _ _ _ _ _ _ hQ _ hq => hqueue hQ hq) (fun _ _ _ _ _ _ hQ _ hq => hqueue hQ hq)

/-- What a table makes: the type of booleans, the constant `true`, or the undefined value of a
type. -/
def IsMade (i : Instruction) : Prop :=
  ∃ x, i = ⟨.typeBool, none, some x, []⟩ ∨ (∃ type, i = ⟨.constantTrue, some type, some x, []⟩) ∨
    ∃ type, i = ⟨.undef, some type, some x, []⟩

/-- Globals that a table makes, under the ids from a number on. -/
structure MadeFrom (n : Nat) (new : List Instruction) : Prop where
  made : ∀ i ∈ new, IsMade i
  ids : (results new).map (fun x => x.word.toNat) = List.range' n new.length

/-- Since then the table has queued globals, and the supply has moved on by as many ids. -/
def HasQueued (T : ConstantTable) (ids : IdSupply) (T' : ConstantTable) (ids' : IdSupply) : Prop :=
  ∃ new, T'.newGlobals = T.newGlobals ++ new ∧ MadeFrom ids.bound.toNat new ∧
    ids'.bound.toNat = ids.bound.toNat + new.length

/-- One more global takes the id at which the supply stands. -/
theorem HasQueued.queue {T₁ : ConstantTable} {ids₁ : IdSupply} {i : Instruction}
    (h : HasQueued T ids T₁ ids₁) (hq : Queues T₁ ids₁ i T' ids') (hi : IsMade i) :
    HasQueued T ids T' ids' := by
  obtain ⟨new, hnew, ⟨hmade, hids⟩, hbound⟩ := h
  obtain ⟨x, htake, hres, hqueued, -⟩ := hq
  obtain ⟨hword, hnext, -⟩ := IdSupply.take_eq_ok htake
  have hresults : results (new ++ [i]) = results new ++ [x] := by
    simp [results, List.filterMap_append, hres]
  refine ⟨new ++ [i], by rw [hqueued, hnew, List.append_assoc], ⟨fun j hj => ?_, ?_⟩, ?_⟩
  · rcases List.mem_append.mp hj with hj | hj
    · exact hmade j hj
    · exact List.mem_singleton.mp hj ▸ hi
  · rw [hresults, List.map_append, hids, List.length_append, List.length_singleton,
      List.range'_concat, List.map_singleton, hword, hbound, Nat.one_mul]
  · rw [List.length_append, List.length_singleton]
    omega

/-- **The globals that a growing table queues have the next ids, one after the other**, and the
supply stands behind the last. -/
theorem Grows.hasQueued {P : Id → Prop} (h : Grows P T ids T' ids') : HasQueued T ids T' ids' :=
  h.induct ⟨[], (List.append_nil _).symm, ⟨by simp, rfl⟩, rfl⟩
    (fun _ _ _ _ x hQ hq => hQ.queue hq ⟨x, .inl rfl⟩)
    (fun _ _ _ _ type x hQ _ hq => hQ.queue hq ⟨x, .inr (.inl ⟨type, rfl⟩)⟩)
    (fun _ _ _ _ type x hQ _ hq => hQ.queue hq ⟨x, .inr (.inr ⟨type, rfl⟩)⟩)

/-! ## 5. Tables that track a module -/

/-- The table is the snapshot of the globals and its queue, and the ids in the queue are fresh: not
below the bound, below the supply, and different. -/
structure Tracks (T : ConstantTable) (ids : IdSupply) (globals : List Instruction)
    (bound : UInt32) : Prop where
  table : T = { snapshot (globals ++ T.newGlobals) with newGlobals := T.newGlobals }
  bound_le : bound.toNat ≤ ids.bound.toNat
  positive : ids.bound ≠ 0
  fresh : ∀ x ∈ results T.newGlobals,
    bound.toNat ≤ x.word.toNat ∧ x.word.toNat < ids.bound.toNat
  nodup : (results T.newGlobals).Nodup

variable {globals : List Instruction} {bound : UInt32}

theorem tracks_snapshot (globals : List Instruction) (bound : UInt32) :
    (snapshot globals).Tracks (.startingAt bound) globals bound := by
  refine ⟨?_, ?_, ?_, by simp [results], by simp [results]⟩
  · have hq : (snapshot globals).newGlobals = [] := newGlobals_snapshot globals
    rw [hq, List.append_nil]
    exact congrArg (fun q => { snapshot globals with newGlobals := q }) hq
  · unfold IdSupply.startingAt
    split
    · rename_i h0
      simp [h0]
    · exact Nat.le_refl _
  · unfold IdSupply.startingAt
    split
    · decide
    · assumption

theorem addGlobal_newGlobals (S : ConstantTable) (q : List Instruction) (int32s : List Id)
    (i : Instruction) :
    (addGlobal ({ S with newGlobals := q }, int32s) i).1 =
      { (addGlobal (S, int32s) i).1 with newGlobals := q } := by
  simp only [addGlobal]
  cases i.result? with
  | none => rfl
  | some r =>
    cases i.opcode
    case typeInt => cases isInt32Type i <;> rfl
    case constant | constantNull =>
      cases i.type? with
      | none => rfl
      | some type =>
        cases intValue? i with
        | none => rfl
        | some value =>
          dsimp only
          cases int32s.contains type <;> rfl
    case undef => cases i.type? <;> rfl
    all_goals rfl

theorem Queues.tracks {i : Instruction} (h : Queues T ids i T' ids')
    (hT : T.Tracks ids globals bound) : T'.Tracks ids' globals bound := by
  have hlt := h.bound_lt
  obtain ⟨x, htake, hr, hq, hadd⟩ := h
  obtain ⟨hword, hnext, hne⟩ := IdSupply.take_eq_ok htake
  have hres : results T'.newGlobals = results T.newGlobals ++ [x] := by
    simp [hq, results, List.filterMap_append, hr]
  refine ⟨?_, ?_, ?_, ?_, ?_⟩
  · -- the snapshot of the longer list takes one more step
    have hsnap : snapshot (globals ++ T'.newGlobals) =
        (addGlobal (snapshot (globals ++ T.newGlobals),
          ((globals ++ T.newGlobals).foldl addGlobal (empty, [])).2) i).1 := by
      rw [hq, ← List.append_assoc, snapshot, List.foldl_append]
      rfl
    have hstep := (hadd ((globals ++ T.newGlobals).foldl addGlobal (empty, [])).2).1
    rw [hsnap, ← hstep]
    generalize ((globals ++ T.newGlobals).foldl addGlobal (empty, [])).2 = int32s
    conv_lhs => rw [hT.table, addGlobal_newGlobals]
  · exact Nat.le_trans hT.bound_le (Nat.le_of_lt hlt)
  · intro h0
    rw [h0] at hnext
    simp at hnext
  · intro y hy
    rw [hres] at hy
    rcases List.mem_append.mp hy with hy | hy
    · have := hT.fresh y hy
      omega
    · obtain rfl : y = x := by simpa using hy
      have := hT.bound_le
      rw [hword]
      omega
  · rw [hres]
    refine List.nodup_append.mpr ⟨hT.nodup, by simp, ?_⟩
    intro y hy z hz
    obtain rfl : z = x := by simpa using hz
    rintro rfl
    have := (hT.fresh y hy).2
    rw [hword] at this
    omega

/-- **A table that grows goes on tracking the globals.** -/
theorem Grows.tracks {P : Id → Prop} (h : Grows P T ids T' ids') (hT : T.Tracks ids globals bound) :
    T'.Tracks ids' globals bound :=
  h.induct hT (fun _ _ _ _ _ hT hq => hq.tracks hT) (fun _ _ _ _ _ _ hT _ hq => hq.tracks hT)
    (fun _ _ _ _ _ _ hT _ hq => hq.tracks hT)

/-- The globals and the queue of a tracking table define each id once. -/
theorem Tracks.nodup_results (hT : T.Tracks ids globals bound) (hnd : (results globals).Nodup)
    (hbelow : ∀ x ∈ results globals, x.word < bound) :
    (results (globals ++ T.newGlobals)).Nodup := by
  rw [results, List.filterMap_append]
  refine List.nodup_append.mpr ⟨hnd, hT.nodup, ?_⟩
  intro x hx y hy
  rintro rfl
  have h1 := (hT.fresh x hy).1
  have h2 := UInt32.lt_iff_toNat_lt.mp (hbelow x hx)
  omega

/-- The entries of a tracking table come from the globals and the queue. -/
theorem Tracks.comesFrom (hT : T.Tracks ids globals bound) (hnd : (results globals).Nodup)
    (hbelow : ∀ x ∈ results globals, x.word < bound) : T.ComesFrom (globals ++ T.newGlobals) := by
  have hsnap := comesFrom_snapshot (hT.nodup_results hnd hbelow)
  have heq := hT.table
  exact ⟨fun x v hx => hsnap.bool x v (by rw [heq] at hx; exact hx),
    fun x w hx => hsnap.int x w (by rw [heq] at hx; exact hx),
    fun x hx => by rw [heq] at hx ⊢; exact hsnap.isTrue x hx,
    fun t x hx => hsnap.undef t x (by rw [heq] at hx; exact hx),
    fun x hx => hsnap.boolType x (by rw [heq] at hx; exact hx)⟩

/-- **A queued global mentions the type of booleans or a type that an undefined value was made
for.** -/
theorem Grows.uses_newGlobals {P : Id → Prop} (h : Grows P T ids T' ids')
    (hT : T.Tracks ids globals bound) (hnd : (results globals).Nodup)
    (hbelow : ∀ x ∈ results globals, x.word < bound)
    (hstart : ∀ i ∈ T.newGlobals, ∀ x ∈ i.uses, x ∈ results (globals ++ T.newGlobals) ∨ P x) :
    ∀ i ∈ T'.newGlobals, ∀ x ∈ i.uses, x ∈ results (globals ++ T'.newGlobals) ∨ P x := by
  -- one more queued global, which mentions what it may
  have hqueue : ∀ {T₁ T₂ : ConstantTable} {ids₁ ids₂ : IdSupply} {i : Instruction},
      T₁.Tracks ids₁ globals bound ∧
        (∀ j ∈ T₁.newGlobals, ∀ x ∈ j.uses, x ∈ results (globals ++ T₁.newGlobals) ∨ P x) →
      Queues T₁ ids₁ i T₂ ids₂ →
      (∀ x ∈ i.uses, x ∈ results (globals ++ T₁.newGlobals) ∨ P x) →
      T₂.Tracks ids₂ globals bound ∧
        ∀ j ∈ T₂.newGlobals, ∀ x ∈ j.uses, x ∈ results (globals ++ T₂.newGlobals) ∨ P x := by
    intro T₁ T₂ ids₁ ids₂ i hQ hq hi
    refine ⟨hq.tracks hQ.1, fun j hj x hx => ?_⟩
    obtain ⟨-, -, -, hnew, -⟩ := hq
    rw [hnew] at hj ⊢
    have hold : x ∈ results (globals ++ T₁.newGlobals) ∨ P x := by
      rcases List.mem_append.mp hj with hj | hj
      · exact hQ.2 j hj x hx
      · exact hi x (List.mem_singleton.mp hj ▸ hx)
    refine hold.imp_left (fun hres => ?_)
    rw [← List.append_assoc, results, List.filterMap_append]
    exact List.mem_append_left _ hres
  refine (h.induct (Q := fun T ids => T.Tracks ids globals bound ∧ ∀ j ∈ T.newGlobals,
    ∀ x ∈ j.uses, x ∈ results (globals ++ T.newGlobals) ∨ P x) ⟨hT, hstart⟩ ?_ ?_ ?_).2
  · intro _ _ _ _ _ hQ hq
    exact hqueue hQ hq (by simp [Instruction.uses])
  · intro _ _ _ _ type _ hQ htype hq
    refine hqueue hQ hq (fun x hx => ?_)
    obtain rfl : x = type := by simpa [Instruction.uses] using hx
    exact .inl ((hQ.1.comesFrom hnd hbelow).boolType_mem_results htype)
  · intro _ _ _ _ type _ hQ htype hq
    refine hqueue hQ hq (fun x hx => ?_)
    obtain rfl : x = type := by simpa [Instruction.uses] using hx
    exact .inr htype

/-! ## 6. Tables that know for good -/

/-- A table that tracks globals which define each id once and below the bound. -/
structure Anchored (T : ConstantTable) (ids : IdSupply) (globals : List Instruction)
    (bound : UInt32) : Prop extends Tracks T ids globals bound where
  nodup_globals : (results globals).Nodup
  below : ∀ x ∈ results globals, x.word < bound

theorem Grows.anchored {P : Id → Prop} (h : Grows P T ids T' ids')
    (hT : T.Anchored ids globals bound) : T'.Anchored ids' globals bound :=
  ⟨h.tracks hT.toTracks, hT.nodup_globals, hT.below⟩

namespace Anchored

theorem results_nodup (hT : T.Anchored ids globals bound) :
    (results (globals ++ T.newGlobals)).Nodup :=
  hT.toTracks.nodup_results hT.nodup_globals hT.below

theorem comesFrom (hT : T.Anchored ids globals bound) : T.ComesFrom (globals ++ T.newGlobals) :=
  hT.toTracks.comesFrom hT.nodup_globals hT.below

theorem mem_results_of_bool? (hT : T.Anchored ids globals bound) {v : Bool}
    (hx : T.bool? x = some v) : x ∈ results (globals ++ T.newGlobals) := by
  obtain ⟨i, hi, hr, -⟩ := hT.comesFrom.bool x v hx
  exact List.mem_filterMap.mpr ⟨i, hi, hr⟩

theorem mem_results_of_int? (hT : T.Anchored ids globals bound) {n : UInt32}
    (hx : T.int? x = some n) : x ∈ results (globals ++ T.newGlobals) := by
  obtain ⟨i, hi, hr, -⟩ := hT.comesFrom.int x n hx
  exact List.mem_filterMap.mpr ⟨i, hi, hr⟩

/-- The globals and the queue lie below the supply. -/
theorem lt_bound (hT : T.Anchored ids globals bound)
    (hx : x ∈ results (globals ++ T.newGlobals)) : x.word.toNat < ids.bound.toNat := by
  rw [results, List.filterMap_append] at hx
  rcases List.mem_append.mp hx with hx | hx
  · exact Nat.lt_of_lt_of_le (UInt32.lt_iff_toNat_lt.mp (hT.below x hx)) hT.bound_le
  · exact (hT.fresh x hx).2

end Anchored

/-- What one table knows the other knows too. -/
structure Extends (T T' : ConstantTable) : Prop where
  bool : ∀ x v, T.bool? x = some v → T'.bool? x = some v
  int : ∀ x n, T.int? x = some n → T'.int? x = some n

theorem Extends.refl (T : ConstantTable) : T.Extends T := ⟨fun _ _ hx => hx, fun _ _ hx => hx⟩

theorem Extends.trans (h : T.Extends T₁) (h' : T₁.Extends T₂) : T.Extends T₂ :=
  ⟨fun x v hx => h'.bool x v (h.bool x v hx), fun x n hx => h'.int x n (h.int x n hx)⟩

/-- **What an anchored table knows it goes on knowing.** -/
theorem Grows.extends {P : Id → Prop} (h : Grows P T ids T' ids')
    (hT : T.Anchored ids globals bound) : T.Extends T' where
  bool x _ hx := ((h.known_of_lt.2 x (hT.lt_bound (hT.mem_results_of_bool? hx))).1).trans hx
  int x _ hx := ((h.known_of_lt.2 x (hT.lt_bound (hT.mem_results_of_int? hx))).2).trans hx

/-- One table goes on where the other has stopped: it has forgotten nothing, and it has learnt
nothing about ids below the bound. -/
structure Continues (T : ConstantTable) (bound : UInt32) (T' : ConstantTable) : Prop
    extends Extends T T' where
  agrees : ∀ x : Id, x.word.toNat < bound.toNat → T'.bool? x = T.bool? x ∧ T'.int? x = T.int? x

theorem Continues.weaken {bound₁ : UInt32} (h : T.Continues bound₁ T')
    (hle : bound.toNat ≤ bound₁.toNat) : T.Continues bound T' :=
  ⟨h.toExtends, fun x hx => h.agrees x (Nat.lt_of_lt_of_le hx hle)⟩

theorem Grows.continues {P : Id → Prop} (h : Grows P T ids T' ids')
    (hT : T.Anchored ids globals bound) : T.Continues ids.bound T' :=
  ⟨h.extends hT, h.known_of_lt.2⟩

/-- Where a branch always goes depends on what is known of its first operand. -/
theorem takenTarget?_congr {t : Instruction} (h : ∀ x, t.idOperand? 0 = some x →
    T'.bool? x = T.bool? x ∧ T'.int? x = T.int? x) : T'.takenTarget? t = T.takenTarget? t := by
  unfold ConstantTable.takenTarget?
  split
  · exact Option.bind_congr (fun x hx => by rw [(h x hx).1])
  · exact Option.bind_congr (fun x hx => by rw [(h x hx).2])
  · rfl

/-- A branch that always goes to one label goes on doing so. -/
theorem Extends.takenTarget? (h : T.Extends T') {t : Instruction} {live : Id}
    (htaken : T.takenTarget? t = some live) : T'.takenTarget? t = some live := by
  unfold ConstantTable.takenTarget? at htaken ⊢
  split at htaken
  · obtain ⟨c, hc, htaken⟩ := Option.bind_eq_some_iff.mp htaken
    obtain ⟨v, hv, htaken⟩ := Option.bind_eq_some_iff.mp htaken
    simp [hc, h.bool c v hv, htaken]
  · obtain ⟨c, hc, htaken⟩ := Option.bind_eq_some_iff.mp htaken
    obtain ⟨n, hn, htaken⟩ := Option.bind_eq_some_iff.mp htaken
    simp [hc, h.int c n hn, htaken]
  · cases htaken

end ConstantTable
end ShaderIR
