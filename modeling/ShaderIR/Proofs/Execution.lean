import Mathlib.Data.List.Find
import ShaderIR.Proofs.Function.Unique
import ShaderIR.Proofs.Instruction.Renaming

/-!
# What a function does when it runs

A machine that runs the body of a function, one instruction or one jump at a time.  It has a value
for every id and a memory.  What an ordinary instruction does is left to an `Interpretation`, which
gets its opcode, its type, its arguments and the memory, and may return anything.

* `Instruction.exit`: where a terminator sends control;
* `Function.enter`: the phis of a block take their values all at once, by the block control comes
  from;
* `Function.step`, `Function.run`: the machine;
* `Function.observe`: what can be seen of it, which is everything but the values of the ids that the
  next instruction does not read.
-/

namespace ShaderIR

universe u v

/-! ## 1. Values -/

/-- A value: a boolean, a word, or one that no branch looks into. -/
inductive Value (α : Type u) where
  | bool (b : Bool)
  | word (w : UInt32)
  | other (a : α)

/-- What an instruction is applied to. -/
inductive Argument (α : Type u) where
  | value (v : Value α)
  | literal (w : UInt32)
  | string (s : String)

/-- The value of every id. -/
abbrev Environment (α : Type u) := Id → Value α

/-- What ordinary instructions compute, and what they do to the memory. -/
abbrev Interpretation (α : Type u) (σ : Type v) :=
  Opcode → Option Id → List (Argument α) → σ → Value α × σ

variable {α : Type u} {σ : Type v}

/-- Gives a value to the result of an instruction, if it has one. -/
def Environment.define (env : Environment α) (x? : Option Id) (v : Value α) : Environment α :=
  fun y => if x? = some y then v else env y

/-- The values before the first step: the known constants are what they are known to be. -/
def ConstantTable.environment (T : ConstantTable) (given : Environment α) : Environment α :=
  fun x => match T.bool? x, T.int? x with
    | some b, _ => .bool b
    | none, some w => .word w
    | none, none => given x

/-- What an operand stands for. -/
def Operand.argument (env : Environment α) : Operand → Argument α
  | .ref id => .value (env id)
  | .literal w => .literal w
  | .string s => .string s

namespace Instruction

/-- What the operands stand for. -/
def arguments (i : Instruction) (env : Environment α) : List (Argument α) :=
  i.operands.map (Operand.argument env)

/-! ## 2. Steering -/

/-- The id whose value a phi takes when control comes from a block: that of the first pair with the
label of the block. -/
def valueFrom? (phi : Instruction) (from? : Option Id) : Option Id :=
  from?.bind (fun l => (phi.phiIncoming.find? (fun p => p.2 = l)).map Prod.fst)

end Instruction

/-- What a terminator does. -/
inductive Exit where
  | goto (label : Id)
  | stop
  | stuck
deriving DecidableEq

/-- Goes to a label, if there is one. -/
def Exit.ofLabel? : Option Id → Exit
  | some label => .goto label
  | none => .stuck

namespace Instruction

/-- Where a terminator sends control.  A conditional branch needs a boolean and a switch a word. -/
def exit (t : Instruction) (env : Environment α) : Exit :=
  match t.opcode with
  | .branch => .ofLabel? (t.idOperand? 0)
  | .branchConditional =>
    match (t.idOperand? 0).map env with
    | some (.bool b) => .ofLabel? (t.idOperand? (if b then 1 else 2))
    | _ => .stuck
  | .switch =>
    match (t.idOperand? 0).map env with
    | some (.word w) =>
      .ofLabel? ((ConstantTable.caseLabel? t.switchCases w).or (t.idOperand? 1))
    | _ => .stuck
  | _ => .stop

end Instruction

/-! ## 3. The machine -/

/-- What is left to run of a block once its phis are done.  A merge declaration does nothing. -/
def Block.code (k : Block) : List Instruction := k.afterPhis.filter (fun i => !i.opcode.isMerge)

/-- The values after the phis of a block have taken theirs. -/
def Block.entryValues (k : Block) (from? : Option Id) (env : Environment α) : Environment α :=
  fun x => (((k.phis.find? (fun phi => phi.result? = some x)).bind
    (fun phi => phi.valueFrom? from?)).map env).getD (env x)

/-- A state of the machine. -/
inductive Execution (α : Type u) (σ : Type v) where
  | running (block : BlockKey) (code : List Instruction) (env : Environment α) (memory : σ)
  | stopped (opcode : Opcode) (arguments : List (Argument α)) (memory : σ)
  | stuck

/-- What can be seen of a state: the instruction about to be run with the values it reads, the jump
about to be taken, or the way the run has ended. -/
inductive Observation (α : Type u) (σ : Type v) where
  | executes (block : Option Id) (opcode : Opcode) (type? result? : Option Id)
      (arguments : List (Argument α)) (memory : σ)
  | jumps (block : Option Id) (target : Id) (memory : σ)
  | stops (block : Option Id) (opcode : Opcode) (arguments : List (Argument α)) (memory : σ)
  | stopped (opcode : Opcode) (arguments : List (Argument α)) (memory : σ)
  | stuck

namespace Function

/-- Enters a block.  A phi without a pair for the block control comes from stops everything. -/
def enter (f : Function) (from? : Option Id) (b : BlockKey) (env : Environment α) (memory : σ) :
    Execution α σ :=
  match f.block? b with
  | some k =>
    if k.phis.all (fun phi => (phi.valueFrom? from?).isSome) then
      .running b k.code (k.entryValues from? env) memory
    else .stuck
  | none => .stuck

/-- Goes from a block to the block with a label. -/
def jump (f : Function) (b : BlockKey) (l : Id) (env : Environment α) (memory : σ) :
    Execution α σ :=
  match f.blockOf? l with
  | some c => f.enter (f.label? b) c env memory
  | none => .stuck

/-- One step: an ordinary instruction, or a jump with the phis at its end. -/
def step (f : Function) (meaning : Interpretation α σ) : Execution α σ → Execution α σ
  | .running b (i :: rest) env memory =>
    if i.opcode.isTerminator then
      match i.exit env with
      | .goto l => f.jump b l env memory
      | .stop => .stopped i.opcode (i.arguments env) memory
      | .stuck => .stuck
    else
      let r := meaning i.opcode i.type? (i.arguments env) memory
      .running b rest (env.define i.result? r.1) r.2
  | .running _ [] _ _ => .stuck
  | s => s

/-- The first state: control comes from nowhere. -/
def start (f : Function) (env : Environment α) (memory : σ) : Execution α σ :=
  match f.entry? with
  | some e => f.enter none e env memory
  | none => .stuck

/-- The state after a number of steps. -/
def run (f : Function) (meaning : Interpretation α σ) (env : Environment α) (memory : σ) :
    Nat → Execution α σ
  | 0 => f.start env memory
  | n + 1 => f.step meaning (f.run meaning env memory n)

/-- What can be seen of a state. -/
def observe (f : Function) : Execution α σ → Observation α σ
  | .running b (i :: _) env memory =>
    if i.opcode.isTerminator then
      match i.exit env with
      | .goto l => .jumps (f.label? b) l memory
      | .stop => .stops (f.label? b) i.opcode (i.arguments env) memory
      | .stuck => .stuck
    else .executes (f.label? b) i.opcode i.type? i.result? (i.arguments env) memory
  | .running _ [] _ _ => .stuck
  | .stopped opcode arguments memory => .stopped opcode arguments memory
  | .stuck => .stuck

end Function

/-! ## 4. Values and renaming -/

theorem Environment.define_of_ne (env : Environment α) {x? : Option Id} {y : Id} (v : Value α)
    (h : x? ≠ some y) : env.define x? v y = env y := by
  simp [define, h]

namespace ConstantTable

variable {T T' : ConstantTable} {given : Environment α} {x : Id}

theorem environment_of_bool? {b : Bool} (h : T.bool? x = some b) :
    T.environment given x = .bool b := by
  simp [environment, h]

theorem environment_of_int? {w : UInt32} (hb : T.bool? x = none) (h : T.int? x = some w) :
    T.environment given x = .word w := by
  simp [environment, hb, h]

theorem environment_congr (hb : T'.bool? x = T.bool? x) (hi : T'.int? x = T.int? x) :
    T'.environment given x = T.environment given x := by
  simp only [environment, hb, hi]

end ConstantTable

namespace Instruction

variable {g : Id → Id} {i t : Instruction} {env env' : Environment α} {l : Id}

theorem arguments_mapRefs
    (h : ∀ x ∈ i.operands.filterMap Operand.id?, env' (g x) = env x) :
    (i.mapRefs g).arguments env' = i.arguments env := by
  simp only [arguments, mapRefs, List.map_map]
  refine List.map_congr_left (fun o ho => ?_)
  cases o with
  | ref x =>
    have hx : env' (g x) = env x := h x (List.mem_filterMap.mpr ⟨_, ho, rfl⟩)
    simp [Operand.mapRef, Operand.argument, hx]
  | literal w => rfl
  | string s => rfl

theorem caseLabel?_map (g : Id → Id) (cases : List (Operand × Operand)) (w : UInt32) :
    ConstantTable.caseLabel? (cases.map (Prod.map (Operand.mapRef g) (Operand.mapRef g))) w =
      (ConstantTable.caseLabel? cases w).map g := by
  simp only [ConstantTable.caseLabel?, List.find?_map, Function.comp_def, Prod.map_fst,
    Operand.literal?_mapRef]
  cases cases.find? (fun c => decide (c.1.literal? = some w)) with
  | none => rfl
  | some c => simp

/-! ## 5. Where terminators go -/

theorem ofLabel?_eq_goto {l? : Option Id} : Exit.ofLabel? l? = .goto l ↔ l? = some l := by
  cases l? <;> simp [Exit.ofLabel?]

/-- **A terminator sends control to one of its targets.** -/
theorem mem_branchTargets_of_exit (h : t.exit env = .goto l) : l ∈ t.branchTargets := by
  unfold exit at h
  split at h
  · rename_i ho
    simp [branchTargets, ho, ofLabel?_eq_goto.mp h]
  · rename_i ho
    split at h
    · exact mem_branchTargets_of_idOperand? ho (ofLabel?_eq_goto.mp h)
    · cases h
  · rename_i ho
    split at h
    · exact mem_branchTargets_of_case ho (ofLabel?_eq_goto.mp h)
    · cases h
  · cases h

/-- A renaming that leaves the labels alone and respects the value looked at changes nothing. -/
theorem exit_mapRefs (hl : ∀ l ∈ t.branchTargets, g l = l)
    (hx : ∀ x, t.idOperand? 0 = some x → env' (g x) = env x) :
    (t.mapRefs g).exit env' = t.exit env := by
  have hfix : ∀ l? : Option Id, (∀ l, l? = some l → l ∈ t.branchTargets) → l?.map g = l? := by
    intro l? hmem
    cases l? with
    | none => rfl
    | some l => simp [hl l (hmem l rfl)]
  have hval : ((t.idOperand? 0).map g).map env' = (t.idOperand? 0).map env := by
    cases h0 : t.idOperand? 0 with
    | none => rfl
    | some x => simp [hx x h0]
  simp only [exit, opcode_mapRefs, idOperand?_mapRefs, switchCases_mapRefs, caseLabel?_map, hval]
  split
  · rename_i ho
    rw [hfix _ (fun l h => by simp [branchTargets, ho, h])]
  · rename_i ho
    split
    · rw [hfix _ (fun l h => mem_branchTargets_of_idOperand? ho h)]
    · rfl
  · rename_i ho
    split
    · rw [← Option.map_or, hfix _ (fun l h => mem_branchTargets_of_case ho h)]
    · rfl
  · rfl

/-- **A branch on a known constant goes where the table says.** -/
theorem exit_of_takenTarget? {T : ConstantTable}
    (hbool : ∀ x v, t.idOperand? 0 = some x → T.bool? x = some v → env x = .bool v)
    (hint : ∀ x w, t.idOperand? 0 = some x → T.int? x = some w → env x = .word w)
    (h : T.takenTarget? t = some l) : t.exit env = .goto l := by
  unfold ConstantTable.takenTarget? at h
  split at h
  · rename_i ho
    obtain ⟨x, hx, h⟩ := Option.bind_eq_some_iff.mp h
    obtain ⟨v, hv, h⟩ := Option.bind_eq_some_iff.mp h
    simp [exit, ho, hx, hbool x v hx hv, h, Exit.ofLabel?]
  · rename_i ho
    obtain ⟨x, hx, h⟩ := Option.bind_eq_some_iff.mp h
    obtain ⟨w, hw, h⟩ := Option.bind_eq_some_iff.mp h
    simp [exit, ho, hx, hint x w hx hw, h, Exit.ofLabel?]
  · cases h

theorem exit_branch (l : Id) (env : Environment α) : (branch l).exit env = .goto l := rfl

theorem exit_branchConditional {c : Id} {b : Bool} (h : env c = .bool b) (l₁ l₂ : Id) :
    (branchConditional c l₁ l₂).exit env = .goto (if b then l₁ else l₂) := by
  cases b <;> simp [exit, branchConditional, idOperand?, Operand.id?, h, Exit.ofLabel?]

theorem valueFrom?_eq_some {phi : Instruction} {v : Id} (h : phi.valueFrom? (some l) = some v) :
    (v, l) ∈ phi.phiIncoming := by
  obtain ⟨p, hp, rfl⟩ := Option.map_eq_some_iff.mp h
  have hl : p.2 = l := by simpa using List.find?_some hp
  exact hl ▸ List.mem_of_find?_eq_some hp

theorem exists_valueFrom? {phi : Instruction} (h : ∃ p ∈ phi.phiIncoming, p.2 = l) :
    ∃ v, phi.valueFrom? (some l) = some v := by
  obtain ⟨p, hp, hl⟩ := h
  have hfind : (phi.phiIncoming.find? (fun p => p.2 = l)).isSome :=
    List.find?_isSome.mpr ⟨p, hp, by simpa using hl⟩
  obtain ⟨q, hq⟩ := Option.isSome_iff_exists.mp hfind
  exact ⟨q.1, by simp [valueFrom?, hq]⟩

/-- Without a block to come from, no phi has a value. -/
theorem all_valueFrom?_none (phis : List Instruction) :
    phis.all (fun phi => (phi.valueFrom? none).isSome) = phis.isEmpty := by
  cases phis <;> simp [valueFrom?]

theorem valueFrom?_mapRefs {phi : Instruction} (h : ∀ p ∈ phi.phiIncoming, g p.2 = p.2)
    (from? : Option Id) : (phi.mapRefs g).valueFrom? from? = (phi.valueFrom? from?).map g := by
  cases from? with
  | none => rfl
  | some l =>
    have hfind : phi.phiIncoming.find? (fun p => g p.2 = l) =
        phi.phiIncoming.find? (fun p => p.2 = l) :=
      List.find?_congr (fun p hp => by rw [h p hp])
    simp only [valueFrom?, Option.bind_some, phiIncoming_mapRefs, List.find?_map, Function.comp_def,
      Prod.map_snd, hfind, Option.map_map]
    cases phi.phiIncoming.find? (fun p => p.2 = l) <;> rfl

end Instruction

/-! ## 6. Entering a block -/

namespace Block

variable {k : Block} {body : List Instruction} {merge? : Option Instruction} {t : Instruction}
  {from? : Option Id} {env : Environment α} {x v : Id}

theorem Parts.code_eq (h : k.Parts body merge? t) :
    k.code = body.dropWhile (fun i => i.opcode.isPhi) ++ [t] := by
  have hbody : (body.dropWhile (fun i => i.opcode.isPhi)).filter (fun i => !i.opcode.isMerge) =
      body.dropWhile (fun i => i.opcode.isPhi) := by
    refine List.filter_eq_self.mpr (fun i hi => ?_)
    simp [(h.body i (List.dropWhile_subset _ hi)).2]
  have hmerge : merge?.toList.filter (fun i => !i.opcode.isMerge) = [] := by
    refine List.filter_eq_nil_iff.mpr (fun i hi => ?_)
    simp [h.merge i (Option.mem_toList.mp hi)]
  have hlast : t.opcode.isMerge = false := by
    cases hm : t.opcode.isMerge with
    | false => rfl
    | true => exact absurd h.last (by simp [Opcode.isTerminator_of_isMerge hm])
  simp [code, h.afterPhis_eq, List.filter_append, hbody, hmerge, hlast]

theorem entryValues_of_phi {phi : Instruction} (hphi : phi ∈ k.phis) (hx : phi.result? = some x)
    (honly : ∀ phi' ∈ k.phis, phi'.result? = some x → phi' = phi)
    (hv : phi.valueFrom? from? = some v) : k.entryValues from? env x = env v := by
  have hfind : k.phis.find? (fun phi => phi.result? = some x) = some phi := by
    cases hf : k.phis.find? (fun phi => phi.result? = some x) with
    | none => exact absurd hx (by simpa using List.find?_eq_none.mp hf phi hphi)
    | some phi' =>
      have hx' : phi'.result? = some x := by simpa using List.find?_some hf
      rw [honly phi' (List.mem_of_find?_eq_some hf) hx']
  simp [entryValues, hfind, hv]

theorem entryValues_of_not_mem (h : ∀ phi ∈ k.phis, phi.result? ≠ some x) :
    k.entryValues from? env x = env x := by
  have hfind : k.phis.find? (fun phi => phi.result? = some x) = none :=
    List.find?_eq_none.mpr (fun phi hphi => by simpa using h phi hphi)
  simp [entryValues, hfind]

end Block

/-! ## 7. What a run depends on -/

namespace Function

variable {f : Function} {b c : BlockKey} {env env' : Environment α} {x l : Id}

/-- Two states in the same place whose values agree wherever the body looks. -/
inductive Alike (f : Function) : Execution α σ → Execution α σ → Prop
  | running {b : BlockKey} {code : List Instruction} {env env' : Environment α} {memory : σ}
      (layout : b ∈ f.layout) (code_mem : ∀ i ∈ code, i ∈ f.instructions b)
      (same : ∀ x ∈ f.bodyUses, env' x = env x) :
      Alike f (.running b code env memory) (.running b code env' memory)
  | stopped (opcode : Opcode) (arguments : List (Argument α)) (memory : σ) :
      Alike f (.stopped opcode arguments memory) (.stopped opcode arguments memory)
  | stuck : Alike f .stuck .stuck

theorem arguments_congr {i : Instruction} (hb : b ∈ f.layout) (hi : i ∈ f.instructions b)
    (h : ∀ x ∈ f.bodyUses, env' x = env x) : i.arguments env' = i.arguments env := by
  have hsame : (i.mapRefs (fun x => x)).arguments env' = i.arguments env :=
    Instruction.arguments_mapRefs
      (fun x hx => h x (mem_bodyUses.mpr ⟨b, hb, i, hi, List.mem_append_right _ hx⟩))
  rwa [Instruction.mapRefs_id] at hsame

theorem exit_congr {t : Instruction} (hb : b ∈ f.layout) (ht : t ∈ f.instructions b)
    (h : ∀ x ∈ f.bodyUses, env' x = env x) : t.exit env' = t.exit env := by
  have hsame : (t.mapRefs (fun x => x)).exit env' = t.exit env :=
    Instruction.exit_mapRefs (fun _ _ => rfl)
      (fun x hx => h x (mem_bodyUses.mpr ⟨b, hb, t, ht, Instruction.mem_uses_of_idOperand? hx⟩))
  rwa [Instruction.mapRefs_id] at hsame

theorem alike_enter (hc : c ∈ f.layout) (from? : Option Id) (memory : σ)
    (h : ∀ x ∈ f.bodyUses, env' x = env x) :
    Alike f (f.enter from? c env memory) (f.enter from? c env' memory) := by
  unfold enter
  cases hk : f.block? c with
  | none => exact .stuck
  | some k =>
    have hinst := instructions_of_block? hk
    dsimp only
    split
    · refine .running hc (fun i hi => ?_) (fun x hx => ?_)
      · rw [hinst]
        exact List.dropWhile_subset _ (List.mem_filter.mp hi).1
      · simp only [Block.entryValues]
        cases hv : (k.phis.find? (fun phi => phi.result? = some x)).bind
            (fun phi => phi.valueFrom? from?) with
        | none => exact h x hx
        | some v =>
          obtain ⟨phi, hphi, hval⟩ := Option.bind_eq_some_iff.mp hv
          obtain ⟨l, rfl, -⟩ := Option.bind_eq_some_iff.mp hval
          have hmem : phi ∈ f.instructions c :=
            hinst ▸ List.takeWhile_subset _ (List.mem_of_find?_eq_some hphi)
          exact h v (mem_bodyUses.mpr ⟨c, hc, phi, hmem,
            (Instruction.mem_uses_of_mem_phiIncoming (Instruction.valueFrom?_eq_some hval)).1⟩)
    · exact .stuck

theorem Alike.step (hf : f.Coherent) (meaning : Interpretation α σ) {s s' : Execution α σ}
    (h : Alike f s s') : Alike f (f.step meaning s) (f.step meaning s') := by
  cases h with
  | stopped opcode arguments memory => exact .stopped opcode arguments memory
  | stuck => exact .stuck
  | @running b code env env' memory hb hcode hsame =>
    cases code with
    | nil => exact .stuck
    | cons i rest =>
      have hi := hcode i (by simp)
      simp only [Function.step, exit_congr hb hi hsame, arguments_congr hb hi hsame]
      split
      · cases i.exit env with
        | goto l =>
          simp only [jump]
          cases hl : f.blockOf? l with
          | none => exact .stuck
          | some c => exact alike_enter (hf.indexed l c hl).1 _ memory hsame
        | stop => exact .stopped _ _ _
        | stuck => exact .stuck
      · refine .running hb (fun j hj => hcode j (by simp [hj])) (fun x hx => ?_)
        simp only [Environment.define, hsame x hx]

theorem Alike.observe {s s' : Execution α σ} (h : Alike f s s') : f.observe s' = f.observe s := by
  cases h with
  | stopped opcode arguments memory => rfl
  | stuck => rfl
  | @running b code env env' memory hb hcode hsame =>
    cases code with
    | nil => rfl
    | cons i rest =>
      have hi := hcode i (by simp)
      simp only [Function.observe, exit_congr hb hi hsame, arguments_congr hb hi hsame]

/-- **A run depends on the values of the ids that the body uses, and on no others.** -/
theorem observe_run_congr (hf : f.Coherent) (meaning : Interpretation α σ) (memory : σ)
    (h : ∀ x ∈ f.bodyUses, env' x = env x) (n : Nat) :
    f.observe (f.run meaning env' memory n) = f.observe (f.run meaning env memory n) := by
  have hrun : ∀ n, Alike f (f.run meaning env memory n) (f.run meaning env' memory n) := by
    intro n
    induction n with
    | zero =>
      simp only [run, start]
      cases he : f.entry? with
      | none => exact .stuck
      | some e => exact alike_enter (List.mem_of_head? he) none memory h
    | succ n ih => exact ih.step hf meaning
  exact (hrun n).observe

end Function
end ShaderIR
