import ShaderIR.Builder.Function
import ShaderIR.Proofs.Constants
import ShaderIR.Proofs.Function.History
import ShaderIR.Proofs.Function.Unique
import ShaderIR.Proofs.Lists

/-!
# Ledgers of ids

A module under construction and a function that is not yet part of it share one supply of ids.  The
ledger of either lists the ids that are defined and those that are mentioned, beside the bound.  An
id that was taken but does not define anything yet is pending.  Taking an id makes it pending, and
adding an instruction with that result settles it; nothing else is done with ids.

* `Ledger.Fresh`: defined and pending ids are distinct and lie below the bound;
* `Fresh.take`, `Fresh.settle`: taking ids and settling them;
* `Module.header_append`, `Function.Gains`: what adding something does to the lists;
* `Fresh.push`, `FunctionDraft.Fresh.gain`: so what it does to a ledger;
* `FunctionDraft.Fresh.start`, `define`, `abandon`: how a function comes and goes.
-/

namespace ShaderIR

/-! ## 1. Ledgers -/

/-- The ids of something under construction. -/
structure Ledger where
  /-- The ids that are defined. -/
  defined : List Id
  /-- The ids that are mentioned as a type or an operand. -/
  used : List Id
  /-- The bound of the module. -/
  bound : UInt32

namespace Ledger

variable {passed ids pending : List Id} {n b c : UInt32} {x : Id}

/-- An id is accounted for if it was passed in from outside or is below the bound. -/
def Accounted (passed : List Id) (b : UInt32) (x : Id) : Prop := x ∈ passed ∨ x.word < b

theorem Accounted.mono (h : Accounted passed b x) (hle : b ≤ c) : Accounted passed c x :=
  h.imp_right (fun hlt => UInt32.lt_of_lt_of_le hlt hle)

/-- The ids are in order while some are pending: those that are defined and those that are pending
are distinct, not zero and below the bound, which has not gone below `n`, and those that are
mentioned are accounted for. -/
structure Fresh (passed : List Id) (n : UInt32) (pending : List Id) (L : Ledger) : Prop where
  nodup : (L.defined ++ pending).Nodup
  nonzero : ∀ x ∈ L.defined ++ pending, x.word ≠ 0
  below : ∀ x ∈ L.defined ++ pending, x.word < L.bound
  used : ∀ x ∈ L.used, Accounted passed L.bound x
  grown : n ≤ L.bound

namespace Fresh

variable {L L' : Ledger}

/-- The bound may be watched from now on. -/
theorem fromNow (h : L.Fresh passed n pending) : L.Fresh passed L.bound pending :=
  ⟨h.nodup, h.nonzero, h.below, h.used, UInt32.le_refl _⟩

/-- **Taking an id** makes it pending. -/
theorem take (h : L.Fresh passed n pending) (hlow : L.bound ≤ x.word) (hnonzero : x.word ≠ 0)
    (hhigh : x.word < b) : { L with bound := b }.Fresh passed n (x :: pending) := by
  have hlt : ∀ {y : Id}, y.word < L.bound → y.word < b := fun hy =>
    UInt32.lt_trans (UInt32.lt_of_lt_of_le hy hlow) hhigh
  have hnew : x ∉ L.defined ++ pending := fun hx =>
    UInt32.lt_irrefl _ (UInt32.lt_of_lt_of_le (h.below x hx) hlow)
  have hmiddle : ∀ {y : Id}, y ∈ L.defined ++ x :: pending → y = x ∨ y ∈ L.defined ++ pending :=
    fun hy => List.mem_cons.mp (List.perm_middle.mem_iff.mp hy)
  refine ⟨?_, fun y hy => ?_, fun y hy => ?_, fun y hy => (h.used y hy).imp_right hlt, ?_⟩
  · exact List.perm_middle.nodup_iff.mpr (List.nodup_cons.mpr ⟨hnew, h.nodup⟩)
  · rcases hmiddle hy with rfl | hy
    · exact hnonzero
    · exact h.nonzero y hy
  · rcases hmiddle hy with rfl | hy
    · exact hhigh
    · exact hlt (h.below y hy)
  · exact UInt32.le_trans h.grown (UInt32.le_of_lt (UInt32.lt_of_le_of_lt hlow hhigh))

/-- **Settling pending ids**: only they may become defined. -/
theorem settle (h : L.Fresh passed n (ids ++ pending))
    (hdefined : L'.defined.Subperm (L.defined ++ ids)) (hbound : L'.bound = L.bound)
    (hused : ∀ x ∈ L'.used, x ∈ L.used ∨ Accounted passed L.bound x) :
    L'.Fresh passed n pending := by
  have hsub : (L'.defined ++ pending).Subperm (L.defined ++ (ids ++ pending)) := by
    rw [← List.append_assoc]
    exact (List.subperm_append_right pending).mpr hdefined
  refine ⟨?_, fun x hx => h.nonzero x (hsub.subset hx), fun x hx => ?_, fun x hx => ?_, ?_⟩
  · obtain ⟨l, hperm, hl⟩ := hsub
    exact hperm.nodup_iff.mp (h.nodup.sublist hl)
  · exact hbound ▸ h.below x (hsub.subset hx)
  · rw [hbound]
    exact (hused x hx).elim (h.used x) id
  · exact hbound ▸ h.grown

/-- A pending id may be left undefined. -/
theorem forget (h : L.Fresh passed n (x :: pending)) : L.Fresh passed n pending :=
  settle (show L.Fresh passed n ([x] ++ pending) from h) (List.sublist_append_left _ _).subperm rfl
    (fun _ hy => .inl hy)

end Fresh
end Ledger

/-! ## 2. Modules -/

theorem Instruction.results_singleton (i : Instruction) :
    [i].filterMap Instruction.result? = i.result?.toList := by
  cases hi : i.result? <;> simp [hi]

namespace Module

variable {n : UInt32} {passed ids pending : List Id} {m m' : Module} {s : Section}
  {i : Instruction} {x : Id}

/-- The ids of a module. -/
def ledger (m : Module) : Ledger := ⟨m.definedIds, m.usedIds, m.bound⟩

/-- The id that is taken is the bound or lies above it, and nothing but the bound changes. -/
theorem allocateId_eq_ok (h : m.allocateId = .ok (x, m')) :
    m' = { m with bound := m'.bound } ∧ m.bound ≤ x.word ∧ x.word ≠ 0 ∧ x.word < m'.bound := by
  obtain ⟨⟨y, ids⟩, htake, h⟩ := bind_eq_ok.mp h
  obtain ⟨m₁, hadopt, h⟩ := bind_eq_ok.mp h
  cases h
  obtain ⟨hword, hnext, hnonzero⟩ := IdSupply.take_eq_ok htake
  have hlow := m.toNat_bound_supply
  unfold adopt at hadopt
  split at hadopt
  · cases hadopt
    refine ⟨rfl, UInt32.le_iff_toNat_le.mpr ?_, hword ▸ hnonzero, UInt32.lt_iff_toNat_lt.mpr ?_⟩
    · rw [hword]
      omega
    · rw [hword]
      show m.supply.bound.toNat < ids.bound.toNat
      omega
  · cases hadopt

theorem Fresh.allocateId (hm : m.ledger.Fresh passed n pending) (h : m.allocateId = .ok (x, m')) :
    m'.ledger.Fresh passed n (x :: pending) := by
  obtain ⟨hm', hlow, hnonzero, hhigh⟩ := allocateId_eq_ok h
  rw [hm']
  exact hm.take hlow hnonzero hhigh

/-- The memory model is the one section where an instruction would take the place of another. -/
theorem inSection_append_self (m : Module) (hs : s ≠ .memoryModel) (i : Instruction) :
    (m.append s i).inSection s = m.inSection s ++ [i] := by
  cases s with
  | memoryModel => exact absurd rfl hs
  | _ => rfl

theorem inSection_append_of_ne (m : Module) {c : Section} (hc : c ≠ s) (i : Instruction) :
    (m.append s i).inSection c = m.inSection c := by
  cases s <;> cases c <;> simp_all [append, inSection]

/-- An instruction is added to the header once. -/
theorem header_append (m : Module) (hs : s ≠ .memoryModel) (i : Instruction) :
    (m.append s i).header.Perm (m.header ++ [i]) :=
  flatMap_perm_append (by decide) (Section.mem_all s) (m.inSection_append_self hs i)
    (fun _ _ hc => m.inSection_append_of_ne hc i)

theorem Fresh.push (hm : m.ledger.Fresh passed n (i.result?.toList ++ pending))
    (h : m.push s i = .ok m') (hs : s ≠ .memoryModel)
    (hused : ∀ x ∈ i.uses, Ledger.Accounted passed m.bound x) :
    m'.ledger.Fresh passed n pending := by
  unfold Module.push at h
  split at h
  · cases h
    have hperm := m.header_append hs i
    have hfunctions : (m.append s i).functionList = m.functionList := by cases s <;> rfl
    have hbound : (m.append s i).bound = m.bound := by cases s <;> rfl
    show (m.append s i).ledger.Fresh passed n pending
    refine hm.settle ?_ hbound (fun x hx => ?_)
    · have hresults : (m.append s i).definedIds.Perm (m.definedIds ++ i.result?.toList) := by
        have hheader := hperm.filterMap Instruction.result?
        rw [List.filterMap_append, Instruction.results_singleton] at hheader
        rw [definedIds, definedIds, hfunctions]
        refine (hheader.append_right _).trans ?_
        rw [List.append_assoc, List.append_assoc]
        exact List.perm_append_comm.append_left _
      exact hresults.subperm
    · rcases List.mem_append.mp hx with hx | hx
      · obtain ⟨j, hj, hjx⟩ := List.mem_flatMap.mp hx
        rcases List.mem_append.mp (hperm.mem_iff.mp hj) with hj | hj
        · exact .inl (List.mem_append_left _ (List.mem_flatMap.mpr ⟨j, hj, hjx⟩))
        · exact .inr (hused x (List.mem_singleton.mp hj ▸ hjx))
      · exact .inl (List.mem_append_right _ (hfunctions ▸ hx))
  · cases h

end Module

/-! ## 3. Functions -/

namespace Function

variable {f g : Function} {b : BlockKey} {i : Instruction} {x l : Id}

/-- Every id that a function defines. -/
def definedIds (f : Function) : List Id := f.heading.filterMap Instruction.result? ++ f.bodyIds

/-- Every id that a function mentions. -/
def usedIds (f : Function) : List Id := f.heading.flatMap Instruction.uses ++ f.bodyUses

/-- One function defines some ids more than another, and mentions some ids more at most. -/
structure Gains (f g : Function) (ids uses : List Id) : Prop where
  defined : g.definedIds.Perm (f.definedIds ++ ids)
  used : ∀ x ∈ g.usedIds, x ∈ f.usedIds ∨ x ∈ uses

/-- A function as builders leave it: layout, index and labels are in step, every block is in the
layout, and the function is named by its definition. -/
structure InShape (f : Function) : Prop where
  coherent : f.Coherent
  laidOut : ∀ b l, f.label? b = some l → b ∈ f.layout
  named : f.definition.result? = some f.id

theorem inShape_new (id ret type : Id) : (new id ret type).InShape := by
  refine ⟨coherent_new id ret type, fun b l hl => ?_, rfl⟩
  have hnone : (new id ret type).label? b = none := rfl
  cases hnone.symm.trans hl

theorem InShape.sameFrame (hf : f.InShape) (h : f.SameFrame g) : g.InShape where
  coherent := h.coherent hf.coherent
  laidOut b l hl := by
    rw [h.layout]
    exact hf.laidOut b l (h.label? b ▸ hl)
  named := by rw [h.definition, h.id, hf.named]

theorem pushParam_eq_ok (h : f.pushParam i = .ok g) : g = { f with params := f.params ++ [i] } := by
  unfold pushParam at h
  split at h <;> cases h
  rfl

theorem InShape.pushParam (hf : f.InShape) (h : f.pushParam i = .ok g) : g.InShape := by
  have hcoherent := (Edit.param h).coherent hf.coherent
  obtain rfl := pushParam_eq_ok h
  exact ⟨hcoherent, hf.laidOut, hf.named⟩

theorem gains_pushParam (h : f.pushParam i = .ok g) : f.Gains g i.result?.toList i.uses := by
  obtain rfl := pushParam_eq_ok h
  refine ⟨?_, fun x hx => ?_⟩
  · have hheading : heading { f with params := f.params ++ [i] } = f.heading ++ [i] := rfl
    have hbody : bodyIds { f with params := f.params ++ [i] } = f.bodyIds := rfl
    rw [definedIds, definedIds, hheading, hbody, List.filterMap_append,
      Instruction.results_singleton, List.append_assoc, List.append_assoc]
    exact List.perm_append_comm.append_left _
  · rcases List.mem_append.mp hx with hx | hx
    · obtain ⟨j, hj, hjx⟩ := List.mem_flatMap.mp hx
      rcases List.mem_append.mp (show j ∈ f.heading ++ [i] from hj) with hj | hj
      · exact .inl (List.mem_append_left _ (List.mem_flatMap.mpr ⟨j, hj, hjx⟩))
      · exact .inr (List.mem_singleton.mp hj ▸ hjx)
    · exact .inl (List.mem_append_right _ hx)

/-- Functions with one heading differ in their bodies only. -/
theorem gains_of_body {ids uses : List Id} (hheading : g.heading = f.heading)
    (hids : g.bodyIds.Perm (f.bodyIds ++ ids))
    (huses : ∀ x ∈ g.bodyUses, x ∈ f.bodyUses ∨ x ∈ uses) : f.Gains g ids uses := by
  refine ⟨?_, fun x hx => ?_⟩
  · rw [definedIds, definedIds, hheading, List.append_assoc]
    exact hids.append_left _
  · rcases List.mem_append.mp hx with hx | hx
    · exact .inl (List.mem_append_left _ (hheading ▸ hx))
    · exact (huses x hx).imp_left (List.mem_append_right _)

/-- An instruction is appended to one block of the layout. -/
theorem gains_editBlock_push (hf : f.Coherent) (hb : b ∈ f.layout)
    (h : f.editBlock b (fun k => k.push i) = .ok g) : f.Gains g i.result?.toList i.uses := by
  obtain ⟨k, k', hk, hpush, rfl⟩ := editBlock_eq_ok (fun _ _ => Block.label_push) h
  unfold Block.push at hpush
  split at hpush
  · cases hpush
  cases hpush
  have hframe := sameFrame_setInstructions f b (k.instructions ++ [i])
  have hself : (f.setInstructions b (k.instructions ++ [i])).instructions b =
      f.instructions b ++ [i] := by
    simp [instructions, block?_setInstructions, hk]
  have hother : ∀ c, c ≠ b →
      (f.setInstructions b (k.instructions ++ [i])).instructions c = f.instructions c := by
    intro c hc
    simp [instructions, block?_setInstructions, hc]
  refine gains_of_body (by rw [heading, heading, hframe.definition, hframe.params]) ?_
    (fun x hx => ?_)
  · rw [bodyIds, bodyIds, hframe.layout]
    refine flatMap_perm_append hf.nodup hb ?_ (fun c _ hc => ?_)
    · rw [hself, hframe.label?, List.filterMap_append, Instruction.results_singleton,
        ← List.append_assoc]
    · rw [hother c hc, hframe.label?]
  · obtain ⟨c, hc, j, hj, hjx⟩ := mem_bodyUses.mp hx
    rw [hframe.layout] at hc
    by_cases hcb : c = b
    · subst hcb
      rw [hself] at hj
      rcases List.mem_append.mp hj with hj | hj
      · exact .inl (mem_bodyUses.mpr ⟨c, hc, j, hj, hjx⟩)
      · exact .inr (List.mem_singleton.mp hj ▸ hjx)
    · exact .inl (mem_bodyUses.mpr ⟨c, hc, j, hother c hcb ▸ hj, hjx⟩)

/-- An appended block is empty, and nothing but the body changes. -/
theorem appendBlock_cases (h : f.appendBlock l = .ok (b, g)) :
    (∀ c, g.block? c = if c = b then some (Block.empty l) else f.block? c) ∧
      g.id = f.id ∧ g.definition = f.definition ∧ g.params = f.params := by
  unfold appendBlock at h
  split at h
  · cases h
  · obtain ⟨⟨b, blocks⟩, hinsert, h⟩ := bind_eq_ok.mp h
    cases h
    exact ⟨Arena.get?_insert hinsert, rfl, rfl, rfl⟩

theorem InShape.appendBlock (hf : f.InShape) (h : f.appendBlock l = .ok (b, g)) : g.InShape := by
  obtain ⟨-, -, -, hlayout, hlabel, -⟩ := appendBlock_eq_ok h
  obtain ⟨-, hid, hdefinition, -⟩ := appendBlock_cases h
  refine ⟨hf.coherent.appendBlock h, fun c l hl => ?_, by rw [hdefinition, hid, hf.named]⟩
  rw [hlabel] at hl
  rw [hlayout]
  split at hl
  · rename_i hc
    simp [hc]
  · exact List.mem_append_left _ (hf.laidOut c l hl)

theorem gains_appendBlock (hf : f.Coherent) (h : f.appendBlock l = .ok (b, g)) :
    f.Gains g [l] [] := by
  obtain ⟨hblock, -, hdefinition, hparams⟩ := appendBlock_cases h
  obtain ⟨-, hkey, -, hlayout, -⟩ := appendBlock_eq_ok h
  have hne : ∀ c ∈ f.layout, c ≠ b := fun c hc hcb => by
    have := hf.index_lt hc
    rw [hcb] at this
    omega
  have hlabel : ∀ c ∈ f.layout, g.label? c = f.label? c := fun c hc => by
    simp [label?, hblock, hne c hc]
  have hsame : ∀ c ∈ f.layout, g.instructions c = f.instructions c := fun c hc => by
    simp [instructions, hblock, hne c hc]
  have hempty : g.instructions b = [] := by simp [instructions, hblock, Block.empty]
  refine gains_of_body (by rw [heading, heading, hdefinition, hparams]) ?_ (fun x hx => ?_)
  · rw [bodyIds, bodyIds, hlayout, List.flatMap_append,
      List.flatMap_congr (fun c hc => by rw [hlabel c hc, hsame c hc])]
    simp [hempty, label?, hblock, Block.empty]
  · obtain ⟨c, hc, j, hj, hjx⟩ := mem_bodyUses.mp hx
    rw [hlayout] at hc
    rcases List.mem_append.mp hc with hc | hc
    · exact .inl (mem_bodyUses.mpr ⟨c, hc, j, hsame c hc ▸ hj, hjx⟩)
    · rw [List.mem_singleton.mp hc, hempty] at hj
      cases hj

end Function

/-! ## 4. Drafts -/

namespace FunctionDraft

variable {n : UInt32} {passed ids uses pending : List Id} {d : FunctionDraft} {g : Function}
  {m : Module} {x : Id}

/-- The ids of a module and of a function that is not yet part of it. -/
def ledger (d : FunctionDraft) : Ledger :=
  ⟨d.module.definedIds ++ d.function.definedIds, d.module.usedIds ++ d.function.usedIds,
    d.module.bound⟩

/-- A draft whose ids are in order. -/
structure Fresh (passed : List Id) (n : UInt32) (pending : List Id) (d : FunctionDraft) : Prop where
  ids : d.ledger.Fresh passed n pending
  shape : d.function.InShape

namespace Fresh

theorem fromNow (hd : d.Fresh passed n pending) : d.Fresh passed d.module.bound pending :=
  ⟨hd.ids.fromNow, hd.shape⟩

theorem allocateId (hd : d.Fresh passed n pending) (h : d.module.allocateId = .ok (x, m)) :
    Fresh passed n (x :: pending) { d with module := m } := by
  obtain ⟨hm, hlow, hnonzero, hhigh⟩ := Module.allocateId_eq_ok h
  refine ⟨?_, hd.shape⟩
  rw [hm]
  exact hd.ids.take hlow hnonzero hhigh

/-- The id of a new function is settled at once. -/
theorem start {ret type : Id} (hm : m.ledger.Fresh passed n pending)
    (h : FunctionDraft.start m ret type = .ok d)
    (hused : ∀ x ∈ [ret, type], Ledger.Accounted passed m.bound x) : d.Fresh passed n pending := by
  obtain ⟨⟨x, m₁⟩, hallocate, h⟩ := bind_eq_ok.mp h
  cases h
  have hm₁ : m₁.ledger.Fresh passed n ([x] ++ pending) := Module.Fresh.allocateId hm hallocate
  have hle : m.bound ≤ m₁.bound := (Module.Fresh.allocateId hm.fromNow hallocate).grown
  refine ⟨hm₁.settle (List.Perm.refl _).subperm rfl (fun y hy => ?_), Function.inShape_new ..⟩
  exact (List.mem_append.mp hy).imp_right (fun hy => (hused y hy).mono hle)

/-- **A function that gains pending ids settles them.** -/
theorem gain (hd : d.Fresh passed n (ids ++ pending)) (hg : d.function.Gains g ids uses)
    (hshape : g.InShape) (hused : ∀ x ∈ uses, Ledger.Accounted passed d.module.bound x) :
    Fresh passed n pending { d with function := g } := by
  refine ⟨hd.ids.settle ?_ rfl (fun x hx => ?_), hshape⟩
  · refine List.Perm.subperm ?_
    show (d.module.definedIds ++ g.definedIds).Perm
      (d.module.definedIds ++ d.function.definedIds ++ ids)
    rw [List.append_assoc]
    exact hg.defined.append_left _
  · rcases List.mem_append.mp hx with hx | hx
    · exact .inl (List.mem_append_left _ hx)
    · exact (hg.used x hx).imp (List.mem_append_right _) (hused x)

/-- The module takes over what the function defines and mentions. -/
theorem define {k : FunctionKey} (hd : d.Fresh passed n pending) (h : d.define = .ok (k, m)) :
    m.ledger.Fresh passed n pending := by
  suffices hledger : m.ledger = d.ledger from hledger ▸ hd.ids
  unfold FunctionDraft.define Module.pushFunction at h
  split at h
  · cases h
  · obtain ⟨⟨k, functions⟩, hinsert, h⟩ := bind_eq_ok.mp h
    cases h
    have hslots : functions.slots.toList = d.module.functionList ++ [d.function] := by
      unfold Arena.insert at hinsert
      split at hinsert <;> cases hinsert
      exact Array.toList_push
    simp only [Module.ledger, ledger, Module.definedIds, Module.usedIds, Module.functionList,
      hslots, List.flatMap_append, List.flatMap_singleton, Function.definedIds, Function.usedIds,
      List.append_assoc]
    rfl

/-- Without the function, its ids are no longer defined. -/
theorem abandon (hd : d.Fresh passed n pending) : d.module.ledger.Fresh passed n pending := by
  have hids : d.ledger.Fresh passed n ([] ++ pending) := hd.ids
  refine hids.settle ?_ rfl (fun x hx => .inl (List.mem_append_left _ hx))
  rw [List.append_nil]
  exact (List.sublist_append_left _ _).subperm

theorem lt_of_mem (hd : d.Fresh passed n pending) (hx : x ∈ d.function.definedIds) :
    x.word < d.module.bound :=
  hd.ids.below x (List.mem_append_left _ (List.mem_append_right _ hx))

/-- The labels of the blocks are below the bound. -/
theorem label_lt {b : BlockKey} {k : Block} (hd : d.Fresh passed n pending)
    (hk : d.function.block? b = some k) : k.label.word < d.module.bound := by
  have hlabel := Function.label?_of_block? hk
  exact hd.lt_of_mem (List.mem_append_right _ (Function.mem_bodyIds.mpr
    (.inl ⟨b, hd.shape.laidOut b k.label hlabel, hlabel⟩)))

/-- So is the id of the function. -/
theorem id_lt (hd : d.Fresh passed n pending) : d.function.id.word < d.module.bound :=
  hd.lt_of_mem (List.mem_append_left _
    (List.mem_filterMap.mpr ⟨d.function.definition, List.mem_cons_self, hd.shape.named⟩))

end Fresh
end FunctionDraft
end ShaderIR
