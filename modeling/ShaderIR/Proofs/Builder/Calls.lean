import ShaderIR.Proofs.Builder.Ledger

/-!
# Calls on builders

What is built is built by calls, on the builder of a module or on that of a function.  A call is
given ids and may return some.  Most calls take one id, and that id is the result of what they add;
so the ids of the module and of the function that is drafted for it stay in order.

* `ModuleBuilder.Call`, `FunctionBuilder.Call`: the calls, with the ids they are given and return;
* `fresh_id`, `fresh_push`, `fresh_append`: taking an id, and settling it;
* `after_label`: a label that is read is below the bound;
* `ModuleBuilder.Call.fresh`, `FunctionBuilder.Call.fresh`: what a call keeps.
-/

namespace ShaderIR

open Ledger (Accounted)

variable {n : UInt32} {passed pending xs : List Id} {x : Id}

/-! ## 1. Computations with a state -/

/-- What a computation does that returns one id. -/
theorem returns_id {σ : Type} {op : EStateM Fault σ Id} {s s' : σ} {R : Prop} {bound : UInt32}
    (h : (do return [← op] : EStateM Fault σ (List Id)) s = .ok xs s')
    (hop : ∀ x, op s = .ok x s' → R ∧ x.word < bound) : R ∧ ∀ x ∈ xs, x.word < bound := by
  obtain ⟨x, s₁, hx, h⟩ := bind_run_eq_ok.mp h
  cases h
  exact (hop x hx).imp_right (fun hlt y hy => List.mem_singleton.mp hy ▸ hlt)

/-- What a computation does that returns no id. -/
theorem returns_nothing {σ α : Type} {op : EStateM Fault σ α} {s s' : σ} {R : Prop} {bound : UInt32}
    (h : (do let _ ← op; return [] : EStateM Fault σ (List Id)) s = .ok xs s')
    (hop : ∀ a, op s = .ok a s' → R) : R ∧ ∀ x ∈ xs, x.word < bound := by
  obtain ⟨a, s₁, ha, h⟩ := bind_run_eq_ok.mp h
  cases h
  exact ⟨hop a ha, fun y hy => by cases hy⟩

@[simp] theorem filterMap_refs (xs : List Id) :
    (xs.map Operand.ref).filterMap Operand.id? = xs := by
  rw [List.filterMap_map]
  exact List.filterMap_some

theorem Instruction.mem_uses_phi {type y : Id} {incoming : List (Id × Id)}
    (hy : y ∈ (phi type x incoming).uses) :
    y = type ∨ ∃ p ∈ incoming, y = p.1 ∨ y = p.2 := by
  simpa [uses, phi, unpair, List.filterMap_flatMap, eq_comm] using hy

theorem Instruction.mem_uses_switch {selector default y : Id} {cases : List (UInt32 × Id)}
    (hy : y ∈ (switch selector default cases).uses) :
    y = selector ∨ y = default ∨ ∃ c ∈ cases, y = c.2 := by
  simpa [uses, switch, unpair, List.filterMap_flatMap, eq_comm] using hy

theorem ModuleBuilder.ofOperation_eq_ok {α : Type} {op : Module → Except Fault (α × Module)} {a : α}
    {m m' : Module} : ofOperation op m = .ok a m' ↔ op m = .ok (a, m') := by
  unfold ofOperation
  cases h : op m with
  | error e => simp
  | ok r => simp [Prod.ext_iff]

theorem FunctionBuilder.ofOperation_eq_ok {α : Type}
    {op : FunctionDraft → Except Fault (α × FunctionDraft)} {a : α} {d d' : FunctionDraft} :
    ofOperation op d = .ok a d' ↔ op d = .ok (a, d') := by
  unfold ofOperation
  cases h : op d with
  | error e => simp
  | ok r => simp [Prod.ext_iff]

/-! ## 2. Calls on modules -/

namespace ModuleBuilder

/-- A call on the builder of a module. -/
inductive Call where
  | id
  | capability (c : Capability)
  | extension (text : String)
  | typeVoid
  | typeBool
  | typeInt (width : UInt32) (signed : Bool)
  | typeFunction (ret : Id) (params : List Id)
  | constantTrue (type : Id)
  | constantFalse (type : Id)
  | constantWord (type : Id) (value : UInt32)
  | constantNull (type : Id)
  | specConstantTrue (type : Id)
  | undef (type : Id)
  | name (target : Id) (text : String)
  | decorate (target : Id) (decoration : UInt32)
  | groupDecorate (decoration : UInt32) (targets : List Id)
  | entryPoint (function : Id) (text : String)

namespace Call

/-- Makes the call and gives the ids it returns. -/
def run : Call → ModuleBuilder (List Id)
  | id => do return [← ModuleBuilder.id]
  | capability c => do ModuleBuilder.capability c; return []
  | extension text => do ModuleBuilder.extension text; return []
  | typeVoid => do return [← ModuleBuilder.typeVoid]
  | typeBool => do return [← ModuleBuilder.typeBool]
  | typeInt width signed => do return [← ModuleBuilder.typeInt width signed]
  | typeFunction ret params => do return [← ModuleBuilder.typeFunction ret params]
  | constantTrue type => do return [← ModuleBuilder.constantTrue type]
  | constantFalse type => do return [← ModuleBuilder.constantFalse type]
  | constantWord type value => do return [← ModuleBuilder.constantWord type value]
  | constantNull type => do return [← ModuleBuilder.constantNull type]
  | specConstantTrue type => do return [← ModuleBuilder.specConstantTrue type]
  | undef type => do return [← ModuleBuilder.undef type]
  | name target text => do ModuleBuilder.name target text; return []
  | decorate target decoration => do ModuleBuilder.decorate target decoration; return []
  | groupDecorate decoration targets => do
    return [← ModuleBuilder.groupDecorate decoration targets]
  | entryPoint function text => do ModuleBuilder.entryPoint function text; return []

/-- The ids the call is given. -/
def args : Call → List Id
  | typeFunction ret params => ret :: params
  | constantTrue type | constantFalse type | constantWord type _ | constantNull type
  | specConstantTrue type | undef type => [type]
  | name target _ | decorate target _ | entryPoint target _ => [target]
  | groupDecorate _ targets => targets
  | id | capability _ | extension _ | typeVoid | typeBool | typeInt _ _ => []

end Call

variable {m m' : Module}

theorem fresh_id (hm : m.ledger.Fresh passed n pending) (h : ModuleBuilder.id m = .ok x m') :
    m'.ledger.Fresh passed n (x :: pending) ∧ m.bound ≤ m'.bound := by
  have hok := ofOperation_eq_ok.mp h
  exact ⟨Module.Fresh.allocateId hm hok, (Module.Fresh.allocateId hm.fromNow hok).grown⟩

theorem fresh_push {s : Section} {i : Instruction} {u : Unit}
    (h : push s i m = .ok u m') (hm : m.ledger.Fresh passed n (i.result?.toList ++ pending))
    (hs : s ≠ .memoryModel) (hused : ∀ x ∈ i.uses, Accounted passed m.bound x) :
    m'.ledger.Fresh passed n pending ∧ m.bound ≤ m'.bound := by
  obtain ⟨m₁, hpush, heq⟩ := map_eq_ok.mp (ofOperation_eq_ok.mp h)
  cases heq
  exact ⟨Module.Fresh.push hm hpush hs hused, (Module.Fresh.push hm.fromNow hpush hs hused).grown⟩

/-- An instruction without a result settles nothing. -/
theorem fresh_note {s : Section} {i : Instruction} {u : Unit} (hm : m.ledger.Fresh passed n pending)
    (h : push s i m = .ok u m') (hresult : i.result? = none) (hs : s ≠ .memoryModel)
    (hused : ∀ x ∈ i.uses, Accounted passed m.bound x) : m'.ledger.Fresh passed n pending :=
  (fresh_push h (by rwa [hresult]) hs hused).1

/-- **A new global settles the id that is taken for it.** -/
theorem fresh_global {o : Opcode} {type? : Option Id} {operands : List Operand}
    (hm : m.ledger.Fresh passed n pending) (h : global o type? operands m = .ok x m')
    (hused : ∀ y ∈ type?.toList ++ operands.filterMap Operand.id?, Accounted passed m.bound y) :
    m'.ledger.Fresh passed n pending ∧ x.word < m'.bound := by
  obtain ⟨x, m₁, hid, h⟩ := bind_run_eq_ok.mp h
  obtain ⟨u, m₂, hpush, h⟩ := bind_run_eq_ok.mp h
  cases h
  obtain ⟨hm₁, hle⟩ := fresh_id hm hid
  obtain ⟨hm', hle'⟩ := fresh_push hpush hm₁ (by decide)
    (fun y hy => (hused y hy).mono hle)
  exact ⟨hm', UInt32.lt_of_lt_of_le (hm₁.below x (by simp)) hle'⟩

theorem fresh_groupDecorate {decoration : UInt32} {targets : List Id}
    (hm : m.ledger.Fresh passed n pending) (h : groupDecorate decoration targets m = .ok x m')
    (hused : ∀ y ∈ targets, Accounted passed m.bound y) :
    m'.ledger.Fresh passed n pending ∧ x.word < m'.bound := by
  obtain ⟨x, m₁, hid, h⟩ := bind_run_eq_ok.mp h
  obtain ⟨_, m₂, hdecorate, h⟩ := bind_run_eq_ok.mp h
  obtain ⟨_, m₃, hgroup, h⟩ := bind_run_eq_ok.mp h
  obtain ⟨_, m₄, happly, h⟩ := bind_run_eq_ok.mp h
  cases h
  obtain ⟨hm₁, hle₁⟩ := fresh_id hm hid
  have hx₁ : x.word < m₁.bound := hm₁.below x (by simp)
  -- the group is decorated before it is defined
  obtain ⟨hm₂, hle₂⟩ := fresh_push hdecorate hm₁ (by decide)
    (fun y hy => .inr (List.mem_singleton.mp hy ▸ hx₁))
  obtain ⟨hm₃, hle₃⟩ := fresh_push hgroup hm₂ (by decide)
    (fun y hy => by cases hy)
  have hx₃ := UInt32.lt_of_lt_of_le (UInt32.lt_of_lt_of_le hx₁ hle₂) hle₃
  have hle := UInt32.le_trans (UInt32.le_trans hle₁ hle₂) hle₃
  have hused₃ : ∀ y ∈ (Instruction.mk .groupDecorate none none ((x :: targets).map .ref)).uses,
      Accounted passed m₃.bound y := by
    intro y hy
    rw [Instruction.uses, Option.toList_none, List.nil_append, filterMap_refs] at hy
    rcases List.mem_cons.mp hy with rfl | hy
    · exact .inr hx₃
    · exact (hused y hy).mono hle
  obtain ⟨hm₄, hle₄⟩ := fresh_push happly hm₃ (by decide) hused₃
  exact ⟨hm₄, UInt32.lt_of_lt_of_le hx₃ hle₄⟩

namespace Call

/-- **A call keeps the ids of a module in order** and returns ids below the bound. -/
theorem fresh (c : Call) (hm : m.ledger.Fresh passed n [])
    (hargs : ∀ y ∈ c.args, Accounted passed m.bound y) (h : c.run m = .ok xs m') :
    m'.ledger.Fresh passed n [] ∧ ∀ x ∈ xs, x.word < m'.bound := by
  cases c with
  | id =>
    refine returns_id h ?_
    intro x hx
    have hm' := (fresh_id hm hx).1
    exact ⟨hm'.forget, hm'.below x (by simp)⟩
  | capability c => exact returns_nothing h (fun _ hu => fresh_note hm hu rfl (by decide) hargs)
  | extension text => exact returns_nothing h (fun _ hu => fresh_note hm hu rfl (by decide) hargs)
  | typeVoid => exact returns_id h (fun _ hx => fresh_global hm hx hargs)
  | typeBool => exact returns_id h (fun _ hx => fresh_global hm hx hargs)
  | typeInt width signed => exact returns_id h (fun _ hx => fresh_global hm hx hargs)
  | typeFunction ret params =>
    refine returns_id h (fun _ hx => fresh_global hm hx (fun y hy => hargs y ?_))
    simpa [args] using hy
  | constantTrue type => exact returns_id h (fun _ hx => fresh_global hm hx hargs)
  | constantFalse type => exact returns_id h (fun _ hx => fresh_global hm hx hargs)
  | constantWord type value => exact returns_id h (fun _ hx => fresh_global hm hx hargs)
  | constantNull type => exact returns_id h (fun _ hx => fresh_global hm hx hargs)
  | specConstantTrue type => exact returns_id h (fun _ hx => fresh_global hm hx hargs)
  | undef type => exact returns_id h (fun _ hx => fresh_global hm hx hargs)
  | name target text => exact returns_nothing h (fun _ hu => fresh_note hm hu rfl (by decide) hargs)
  | decorate target decoration =>
    exact returns_nothing h (fun _ hu => fresh_note hm hu rfl (by decide) hargs)
  | groupDecorate decoration targets =>
    exact returns_id h (fun _ hx => fresh_groupDecorate hm hx hargs)
  | entryPoint function text =>
    exact returns_nothing h (fun _ hu => fresh_note hm hu rfl (by decide) hargs)

end Call
end ModuleBuilder

/-! ## 3. Calls on drafts -/

namespace FunctionBuilder

/-- A call on the builder of a function. -/
inductive Call where
  | id
  | functionId
  | blockCount
  | label (b : BlockKey)
  | param (type : Id)
  | createBlock
  | switchTo (b : BlockKey)
  | instruction (opcode : Opcode) (operands : List Operand)
  | value (opcode : Opcode) (type : Id) (operands : List Operand)
  | call (type callee : Id) (args : List Id)
  | phi (type : Id) (incoming : List (Id × BlockKey))
  | selectionMerge (merge : BlockKey)
  | loopMerge (merge continueTarget : BlockKey)
  | branch (target : BlockKey)
  | branchConditional (cond : Id) (ifTrue ifFalse : BlockKey)
  | switch (selector : Id) (default : BlockKey) (cases : List (UInt32 × BlockKey))
  | ret
  | kill
  | unreachable

namespace Call

/-- Makes the call and gives the ids it returns. -/
def run : Call → FunctionBuilder (List Id)
  | id => do return [← FunctionBuilder.id]
  | functionId => do return [← FunctionBuilder.functionId]
  | blockCount => do let _ ← FunctionBuilder.blockCount; return []
  | label b => do return [← FunctionBuilder.label b]
  | param type => do return [← FunctionBuilder.param type]
  | createBlock => do let _ ← FunctionBuilder.createBlock; return []
  | switchTo b => do FunctionBuilder.switchTo b; return []
  | instruction opcode operands => do FunctionBuilder.instruction opcode operands; return []
  | value opcode type operands => do return [← FunctionBuilder.value opcode type operands]
  | call type callee args => do return [← FunctionBuilder.call type callee args]
  | phi type incoming => do return [← FunctionBuilder.phi type incoming]
  | selectionMerge merge => do FunctionBuilder.selectionMerge merge; return []
  | loopMerge merge next => do FunctionBuilder.loopMerge merge next; return []
  | branch target => do FunctionBuilder.branch target; return []
  | branchConditional cond ifTrue ifFalse => do
    FunctionBuilder.branchConditional cond ifTrue ifFalse
    return []
  | switch selector default cases => do FunctionBuilder.switch selector default cases; return []
  | ret => do FunctionBuilder.ret; return []
  | kill => do FunctionBuilder.kill; return []
  | unreachable => do FunctionBuilder.unreachable; return []

/-- The ids the call is given. -/
def args : Call → List Id
  | param type => [type]
  | instruction _ operands => operands.filterMap Operand.id?
  | value _ type operands => type :: operands.filterMap Operand.id?
  | call type callee args => type :: callee :: args
  | phi type incoming => type :: incoming.map Prod.fst
  | branchConditional cond _ _ => [cond]
  | switch selector _ _ => [selector]
  | id | functionId | blockCount | label _ | createBlock | switchTo _ | selectionMerge _
  | loopMerge _ _ | branch _ | ret | kill | unreachable => []

end Call

variable {d d' : FunctionDraft} {i : Instruction} {b : BlockKey} {l : Id}

theorem fresh_id (hd : d.Fresh passed n pending) (h : FunctionBuilder.id d = .ok x d') :
    d'.Fresh passed n (x :: pending) ∧ d.module.bound ≤ d'.module.bound := by
  obtain ⟨⟨y, m⟩, hallocate, heq⟩ := map_eq_ok.mp (ofOperation_eq_ok.mp h)
  cases heq
  exact ⟨hd.allocateId hallocate, (hd.fromNow.allocateId hallocate).ids.grown⟩

/-- Reading a label changes nothing. -/
theorem label_eq_ok (h : label b d = .ok l d') :
    d' = d ∧ ∃ k, d.function.block? b = some k ∧ k.label = l := by
  obtain ⟨k, hk, heq⟩ := map_eq_ok.mp (ofOperation_eq_ok.mp h)
  cases heq
  exact ⟨rfl, k, Function.block_eq_ok_iff.mp hk, rfl⟩

/-- A step that first reads a label goes on with an id below the bound. -/
theorem after_label {α : Type} {next : Id → FunctionBuilder α} {a : α}
    (hd : d.Fresh passed n pending) (h : (label b >>= next) d = .ok a d') :
    ∃ l : Id, l.word < d.module.bound ∧ next l d = .ok a d' := by
  obtain ⟨l, d₁, hlabel, h⟩ := bind_run_eq_ok.mp h
  obtain ⟨rfl, k, hk, rfl⟩ := label_eq_ok hlabel
  exact ⟨k.label, hd.label_lt hk, h⟩

theorem mapM_label_eq_ok {α : Type} {ps : List (α × BlockKey)} {qs : List (α × Id)}
    (hd : d.Fresh passed n pending)
    (h : ps.mapM (fun p => do return (p.1, ← label p.2) : α × BlockKey → FunctionBuilder _) d =
      .ok qs d') :
    d' = d ∧ qs.map Prod.fst = ps.map Prod.fst ∧ ∀ q ∈ qs, q.2.word < d.module.bound := by
  induction ps generalizing qs d' with
  | nil =>
    cases h
    simp
  | cons p ps ih =>
    rw [List.mapM_cons] at h
    obtain ⟨q, d₁, hq, h⟩ := bind_run_eq_ok.mp h
    obtain ⟨qs, d₂, hqs, h⟩ := bind_run_eq_ok.mp h
    cases h
    obtain ⟨l, hl, hq⟩ := after_label hd hq
    cases hq
    obtain ⟨rfl, hfst, hbelow⟩ := ih hqs
    refine ⟨rfl, by simp [hfst], fun q hq => ?_⟩
    rcases List.mem_cons.mp hq with rfl | hq
    · exact hl
    · exact hbelow q hq

/-- **An appended instruction settles its result.** -/
theorem fresh_append {u : Unit} (h : append i d = .ok u d')
    (hd : d.Fresh passed n (i.result?.toList ++ pending))
    (hused : ∀ y ∈ i.uses, Accounted passed d.module.bound y) :
    d'.Fresh passed n pending ∧ d'.module = d.module := by
  have h := ofOperation_eq_ok.mp h
  split at h
  · rename_i b hb
    obtain ⟨g, hedit, heq⟩ := map_eq_ok.mp h
    cases heq
    obtain ⟨k, k', hk, -, hg⟩ := Function.editBlock_eq_ok
      (fun _ _ => Block.label_push) hedit
    have hframe : d.function.SameFrame g := hg ▸ Function.sameFrame_setInstructions _ _ _
    have hlayout := hd.shape.laidOut b k.label (Function.label?_of_block? hk)
    exact ⟨hd.gain (Function.gains_editBlock_push hd.shape.coherent hlayout hedit)
      (hd.shape.sameFrame hframe) hused, rfl⟩
  · cases h

/-- An instruction without a result settles nothing. -/
theorem fresh_note {u : Unit} (hd : d.Fresh passed n pending) (h : append i d = .ok u d')
    (hresult : i.result? = none) (hused : ∀ y ∈ i.uses, Accounted passed d.module.bound y) :
    d'.Fresh passed n pending := (fresh_append h (by rwa [hresult]) hused).1

theorem fresh_param {type : Id} (hd : d.Fresh passed n pending) (h : param type d = .ok x d')
    (hused : Accounted passed d.module.bound type) :
    d'.Fresh passed n pending ∧ x.word < d'.module.bound := by
  obtain ⟨x, d₁, hid, h⟩ := bind_run_eq_ok.mp h
  obtain ⟨hd₁, hle⟩ := fresh_id hd hid
  obtain ⟨g, hparam, heq⟩ := map_eq_ok.mp (ofOperation_eq_ok.mp h)
  cases heq
  refine ⟨hd₁.gain (Function.gains_pushParam hparam) (hd₁.shape.pushParam hparam)
    (fun y hy => ?_), hd₁.ids.below x (by simp)⟩
  rw [List.mem_singleton.mp hy]
  exact hused.mono hle

theorem fresh_createBlock (hd : d.Fresh passed n pending) (h : createBlock d = .ok b d') :
    d'.Fresh passed n pending := by
  obtain ⟨x, d₁, hid, h⟩ := bind_run_eq_ok.mp h
  obtain ⟨hd₁, -⟩ := fresh_id hd hid
  obtain ⟨⟨c, g⟩, happend, heq⟩ := map_eq_ok.mp (ofOperation_eq_ok.mp h)
  cases heq
  exact hd₁.gain (Function.gains_appendBlock hd₁.shape.coherent happend)
    (hd₁.shape.appendBlock happend) (fun y hy => by cases hy)

/-- **An appended value settles the id that is taken for it.** -/
theorem fresh_value {o : Opcode} {type : Id} {operands : List Operand}
    (hd : d.Fresh passed n pending) (h : value o type operands d = .ok x d')
    (hused : ∀ y ∈ type :: operands.filterMap Operand.id?, Accounted passed d.module.bound y) :
    d'.Fresh passed n pending ∧ x.word < d'.module.bound := by
  obtain ⟨x, d₁, hid, h⟩ := bind_run_eq_ok.mp h
  obtain ⟨_, d₂, happend, h⟩ := bind_run_eq_ok.mp h
  cases h
  obtain ⟨hd₁, hle⟩ := fresh_id hd hid
  obtain ⟨hd₂, hmodule⟩ := fresh_append happend hd₁ (fun y hy => (hused y hy).mono hle)
  exact ⟨hd₂, hmodule ▸ hd₁.ids.below x (by simp)⟩

theorem fresh_phi {type : Id} {incoming : List (Id × BlockKey)} (hd : d.Fresh passed n pending)
    (h : phi type incoming d = .ok x d')
    (hused : ∀ y ∈ type :: incoming.map Prod.fst, Accounted passed d.module.bound y) :
    d'.Fresh passed n pending ∧ x.word < d'.module.bound := by
  obtain ⟨x, d₁, hid, h⟩ := bind_run_eq_ok.mp h
  obtain ⟨pairs, d₂, hlabels, h⟩ := bind_run_eq_ok.mp h
  obtain ⟨_, d₃, happend, h⟩ := bind_run_eq_ok.mp h
  cases h
  obtain ⟨hd₁, hle⟩ := fresh_id hd hid
  obtain ⟨rfl, hfst, hbelow⟩ := mapM_label_eq_ok hd₁ hlabels
  have hused₁ : ∀ y ∈ (Instruction.phi type x pairs).uses, Accounted passed d₂.module.bound y := by
    intro y hy
    rcases Instruction.mem_uses_phi hy with rfl | ⟨q, hq, rfl | rfl⟩
    · exact (hused y (by simp)).mono hle
    · refine (hused q.1 (List.mem_cons_of_mem _ ?_)).mono hle
      exact hfst ▸ List.mem_map_of_mem hq
    · exact .inr (hbelow q hq)
  obtain ⟨hd₃, hmodule⟩ := fresh_append happend hd₁ hused₁
  exact ⟨hd₃, hmodule ▸ hd₁.ids.below x (by simp)⟩

theorem fresh_switch {selector : Id} {default : BlockKey} {cases : List (UInt32 × BlockKey)}
    {u : Unit} (hd : d.Fresh passed n pending) (h : switch selector default cases d = .ok u d')
    (hused : Accounted passed d.module.bound selector) : d'.Fresh passed n pending := by
  obtain ⟨l, hl, h⟩ := after_label hd h
  obtain ⟨pairs, d₁, hlabels, happend⟩ := bind_run_eq_ok.mp h
  obtain ⟨rfl, -, hbelow⟩ := mapM_label_eq_ok hd hlabels
  refine fresh_note hd happend rfl ?_
  intro y hy
  rcases Instruction.mem_uses_switch hy with rfl | rfl | ⟨c, hc, rfl⟩
  · exact hused
  · exact .inr hl
  · exact .inr (hbelow c hc)

/-- **A call keeps the ids of a draft in order** and returns ids below the bound. -/
theorem Call.fresh (c : Call) (hd : d.Fresh passed n [])
    (hargs : ∀ y ∈ c.args, Accounted passed d.module.bound y) (h : c.run d = .ok xs d') :
    d'.Fresh passed n [] ∧ ∀ x ∈ xs, x.word < d'.module.bound := by
  cases c with
  | id =>
    refine returns_id h ?_
    intro x hx
    have hd' := (fresh_id hd hx).1
    exact ⟨⟨hd'.ids.forget, hd'.shape⟩, hd'.ids.below x (by simp)⟩
  | functionId =>
    refine returns_id h ?_
    intro x hx
    cases ofOperation_eq_ok.mp hx
    exact ⟨hd, hd.id_lt⟩
  | blockCount =>
    refine returns_nothing h ?_
    intro _ hu
    cases ofOperation_eq_ok.mp hu
    exact hd
  | label b =>
    refine returns_id h ?_
    intro x hx
    obtain ⟨rfl, k, hk, rfl⟩ := label_eq_ok hx
    exact ⟨hd, hd.label_lt hk⟩
  | param type =>
    exact returns_id h (fun _ hx => fresh_param hd hx (hargs type (by simp [args])))
  | createBlock => exact returns_nothing h (fun _ hb => fresh_createBlock hd hb)
  | switchTo b =>
    refine returns_nothing h ?_
    intro _ hu
    have hswitch := ofOperation_eq_ok.mp hu
    split at hswitch <;> cases hswitch
    exact ⟨hd.ids, hd.shape⟩
  | instruction opcode operands =>
    exact returns_nothing h (fun _ hu => fresh_note hd hu rfl hargs)
  | value opcode type operands => exact returns_id h (fun _ hx => fresh_value hd hx hargs)
  | call type callee args =>
    refine returns_id h (fun _ hx => fresh_value hd hx (fun y hy => hargs y ?_))
    simpa [Call.args] using hy
  | phi type incoming => exact returns_id h (fun _ hx => fresh_phi hd hx hargs)
  | selectionMerge merge =>
    refine returns_nothing h ?_
    intro _ hu
    obtain ⟨l, hl, happend⟩ := after_label hd hu
    exact fresh_note hd happend rfl (fun y hy => .inr (List.mem_singleton.mp hy ▸ hl))
  | loopMerge merge next =>
    refine returns_nothing h ?_
    intro _ hu
    obtain ⟨l₁, hl₁, hu⟩ := after_label hd hu
    obtain ⟨l₂, hl₂, happend⟩ := after_label hd hu
    refine fresh_note hd happend rfl ?_
    intro y hy
    rcases List.mem_pair.mp hy with rfl | rfl
    · exact .inr hl₁
    · exact .inr hl₂
  | branch target =>
    refine returns_nothing h ?_
    intro _ hu
    obtain ⟨l, hl, happend⟩ := after_label hd hu
    exact fresh_note hd happend rfl (fun y hy => .inr (List.mem_singleton.mp hy ▸ hl))
  | branchConditional cond ifTrue ifFalse =>
    refine returns_nothing h ?_
    intro _ hu
    obtain ⟨l₁, hl₁, hu⟩ := after_label hd hu
    obtain ⟨l₂, hl₂, happend⟩ := after_label hd hu
    refine fresh_note hd happend rfl ?_
    intro y hy
    rcases List.mem_cons.mp hy with rfl | hy
    · exact hargs y (by simp [args])
    · rcases List.mem_pair.mp hy with rfl | rfl
      · exact .inr hl₁
      · exact .inr hl₂
  | switch selector default cases =>
    exact returns_nothing h (fun _ hu =>
      fresh_switch hd hu (hargs selector (by simp [args])))
  | ret => exact returns_nothing h (fun _ hu => fresh_note hd hu rfl hargs)
  | kill => exact returns_nothing h (fun _ hu => fresh_note hd hu rfl hargs)
  | unreachable => exact returns_nothing h (fun _ hu => fresh_note hd hu rfl hargs)

end FunctionBuilder
end ShaderIR
