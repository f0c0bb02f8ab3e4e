import ShaderIR.Proofs.Block.Parts
import ShaderIR.Proofs.Function.Flow
import ShaderIR.Proofs.Instruction.Operands
import ShaderIR.Proofs.Validity.Notes

/-!
# The rules of a module

The rules that the check enforces, one by one and without notes: what a block may look like
(`Function.SoundBlock`), what a function may look like (`Function.Sound`), and how the ids of a
module hang together (`Module.Accepted`).

* `Module.check_eq_ok_nil_iff`: the check finds nothing in exactly the accepted modules.
-/

namespace ShaderIR

/-! ## 1. Blocks -/

/-- A merge declaration and the terminator behind it go together. -/
def MergeFits (merge? : Option Instruction) (t : Instruction) : Prop :=
  ∀ i, merge? = some i →
    (i.opcode = .selectionMerge → t.opcode = .branchConditional ∨ t.opcode = .switch) ∧
    (i.opcode = .loopMerge → t.opcode = .branch ∨ t.opcode = .branchConditional)

namespace Block

/-- Terminators and merge declarations stand in their places. -/
def EndsInPlace (b : Block) : Prop :=
  b.terminator?.isSome ∧
    ∀ n i, b.instructions[n]? = some i →
      (i.opcode.isTerminator = true → n + 1 = b.instructions.length) ∧
      (i.opcode.isMerge = true → n + 2 = b.instructions.length)

variable {b : Block} {body : List Instruction} {merge? : Option Instruction} {t : Instruction}

/-- In front of the last instruction there is no terminator, and a merge declaration only directly
before it. -/
theorem EndsInPlace.front (h : b.EndsInPlace) {front : List Instruction}
    (hb : b.instructions = front ++ [t]) {n : Nat} {i : Instruction} (hn : front[n]? = some i) :
    i.opcode.isTerminator = false ∧ (i.opcode.isMerge = true → n + 1 = front.length) := by
  have hlt := (List.getElem?_eq_some_iff.mp hn).1
  have hplaces := h.2 n i (by rw [hb, List.getElem?_append_left hlt, hn])
  simp only [hb, List.length_append, List.length_singleton] at hplaces
  constructor
  · refine Bool.eq_false_iff.mpr ?_
    intro ht
    have := hplaces.1 ht
    omega
  · intro hm
    have := hplaces.2 hm
    omega

/-- Where terminators and merge declarations stand in their places, the block has the three
parts. -/
theorem EndsInPlace.exists_parts (h : b.EndsInPlace) : ∃ body merge? t, b.Parts body merge? t := by
  obtain ⟨t, ht⟩ := Option.isSome_iff_exists.mp h.1
  obtain ⟨hlast, hisT⟩ := Option.filter_eq_some_iff.mp ht
  obtain ⟨front, hfront⟩ := List.getLast?_eq_some_iff.mp hlast
  rcases List.eq_nil_or_concat' front with rfl | ⟨body, m, rfl⟩
  · exact ⟨[], none, t, ⟨by simpa using hfront, by simp, by simp, hisT⟩⟩
  · have hbody : ∀ i ∈ body, i.opcode.isTerminator = false ∧ i.opcode.isMerge = false := by
      intro i hi
      obtain ⟨n, hn⟩ := List.mem_iff_getElem?.mp hi
      have hlt := (List.getElem?_eq_some_iff.mp hn).1
      have hi' := h.front hfront (by rw [List.getElem?_append_left hlt, hn])
      refine ⟨hi'.1, Bool.eq_false_iff.mpr ?_⟩
      intro hm
      have := hi'.2 hm
      rw [List.length_append, List.length_singleton] at this
      omega
    -- what stands directly before the terminator is the merge declaration or belongs to the body
    by_cases hm : m.opcode.isMerge = true
    · refine ⟨body, some m, t, ⟨hfront, hbody, ?_, hisT⟩⟩
      rintro i ⟨⟩
      exact hm
    · refine ⟨body ++ [m], none, t, ⟨by simpa using hfront, ?_, by simp, hisT⟩⟩
      have hfirst := (h.front hfront List.getElem?_concat_length).1
      exact List.forall_mem_append.mpr
        ⟨hbody, List.forall_mem_singleton.mpr ⟨hfirst, by simpa using hm⟩⟩

/-- In a block with the three parts, terminators and merge declarations stand in their places. -/
theorem Parts.endsInPlace (h : b.Parts body merge? t) : b.EndsInPlace := by
  refine ⟨by simp [h.terminator?_eq], fun n i hn => ?_⟩
  have hlen : b.instructions.length = body.length + merge?.toList.length + 1 := by
    simp [h.eq, Nat.add_assoc]
  rw [h.eq] at hn
  rcases Nat.lt_trichotomy n (body ++ merge?.toList).length with hlt | heq | hgt
  · rw [List.getElem?_append_left hlt] at hn
    rcases Nat.lt_or_ge n body.length with hlt' | hge
    · rw [List.getElem?_append_left hlt'] at hn
      have := h.body i (List.mem_of_getElem? hn)
      simp [this]
    · rw [List.getElem?_append_right hge] at hn
      cases merge? with
      | none => simp at hn
      | some m =>
        have hn0 : n - body.length = 0 := by
          simp only [List.length_append, Option.toList_some, List.length_singleton] at hlt
          omega
        rw [hn0] at hn
        obtain rfl : m = i := by simpa using hn
        have := Opcode.isTerminator_of_isMerge (h.merge m rfl)
        simp only [Option.toList_some, List.length_singleton] at hlen
        exact ⟨fun ht => by simp [this] at ht, fun _ => by omega⟩
  · subst heq
    obtain rfl : t = i := by simpa using hn
    refine ⟨fun _ => by simp [hlen], fun hm => ?_⟩
    have := Opcode.isTerminator_of_isMerge hm
    rw [h.last] at this
    cases this
  · rw [List.getElem?_eq_none (by simp at hgt ⊢; omega)] at hn
    cases hn

end Block

theorem Instruction.mem_blockRefs {i : Instruction} {l : Id} :
    l ∈ i.blockRefs ↔ l ∈ i.branchTargets ∨
      (∃ p, i.mergeTargets? = some p ∧ (l = p.1 ∨ p.2 = some l)) ∨
      (i.opcode.isPhi = true ∧ ∃ p ∈ i.phiIncoming, p.2 = l) := by
  unfold blockRefs
  cases i.mergeTargets? with
  | none => cases i.opcode.isPhi <;> simp
  | some p =>
    obtain ⟨m, c?⟩ := p
    cases i.opcode.isPhi <;> simp [or_assoc]

theorem Instruction.mem_uses_of_mem_blockRefs {i : Instruction} {l : Id} (h : l ∈ i.blockRefs) :
    l ∈ i.uses := by
  rcases mem_blockRefs.mp h with h | ⟨p, hp, hl⟩ | ⟨-, p, hp, rfl⟩
  · exact mem_uses_of_mem_branchTargets h
  · exact mem_uses_of_mergeTargets? hp hl
  · exact (mem_uses_of_mem_phiIncoming hp).2

/-- A phi with a result has nothing but phis before it. -/
def PhisLead (is : List Instruction) : Prop :=
  is.Pairwise (fun j i => i.opcode.isPhi = true → i.result?.isSome → j.opcode.isPhi = true)

theorem phisLead_iff {is : List Instruction} :
    PhisLead is ↔ ∀ n i, is[n]? = some i → i.opcode.isPhi = true → i.result?.isSome →
      ∀ j ∈ is.take n, j.opcode.isPhi = true := by
  rw [PhisLead, List.pairwise_iff_getElem]
  constructor
  · intro h n i hn hphi hr j hj
    obtain ⟨hlt, rfl⟩ := List.getElem?_eq_some_iff.mp hn
    obtain ⟨m, hm, rfl⟩ := List.mem_take_iff_getElem.mp hj
    exact h m n (by omega) hlt (by omega) hphi hr
  · intro h m n hm hn hmn hphi hr
    refine h n is[n] (List.getElem?_eq_getElem hn) hphi hr _ (List.mem_take_iff_getElem.mpr ?_)
    exact ⟨m, by omega, rfl⟩

/-- What follows the phis does not matter. -/
theorem phisLead_append_iff {is js : List Instruction} (hjs : ∀ j ∈ js, j.opcode.isPhi = false) :
    PhisLead (is ++ js) ↔ PhisLead is := by
  have hskip : ∀ i, ∀ j ∈ js, j.opcode.isPhi = true → j.result?.isSome → i = true := by
    intro i j hj hphi
    rw [hjs j hj] at hphi
    cases hphi
  rw [PhisLead, List.pairwise_append]
  refine ⟨fun h => h.1, fun h => ⟨h, ?_, fun i _ j hj => hskip _ j hj⟩⟩
  exact List.pairwise_of_forall_mem_list (fun i _ j hj => hskip _ j hj)

namespace Function

variable {f : Function} {b : Block} {k : BlockKey}

/-- The rules for one block: it has its parts, a merge declaration fits the terminator, a phi with
a result has nothing but phis before it, and the labels it names are labels of the function. -/
structure SoundBlock (f : Function) (b : Block) : Prop where
  parts : ∃ body merge? t, b.Parts body merge? t ∧ MergeFits merge? t
  phis : PhisLead b.instructions
  refs : ∀ i ∈ b.instructions, ∀ l ∈ i.blockRefs, (f.blockOf? l).isSome

/-- The blocks of a function are sound. -/
def SoundBlocks (f : Function) : Prop :=
  ∀ k ∈ f.layout, ∀ b, f.block? k = some b → f.SoundBlock b

/-- The blocks of a function have their parts. -/
def HasParts (f : Function) : Prop :=
  ∀ k ∈ f.layout, ∀ b, f.block? k = some b → ∃ body merge? t, b.Parts body merge? t

theorem SoundBlocks.hasParts (h : f.SoundBlocks) : f.HasParts := by
  intro k hk b hb
  obtain ⟨body, merge?, t, hp, -⟩ := (h k hk b hb).parts
  exact ⟨body, merge?, t, hp⟩

/-- A block goes where the terminator in it goes. -/
theorem HasParts.targets (h : f.HasParts) (hk : k ∈ f.layout) {t : Instruction}
    (ht : t ∈ f.instructions k) (hlast : t.opcode.isTerminator = true) :
    f.targets k = t.branchTargets := by
  cases hb : f.block? k with
  | none => simp [instructions, hb] at ht
  | some b =>
    obtain ⟨body, merge?, t', hp⟩ := h k hk b hb
    rw [targets_of_block? hb, hp.targets_eq, hp.eq_last (instructions_of_block? hb ▸ ht) hlast]

theorem SameFrame.soundBlock_iff {g : Function} (h : f.SameFrame g) :
    g.SoundBlock b ↔ f.SoundBlock b := by
  constructor
  · rintro ⟨hparts, hphis, hrefs⟩
    exact ⟨hparts, hphis, fun i hi l hl => h.blockOf? l ▸ hrefs i hi l hl⟩
  · rintro ⟨hparts, hphis, hrefs⟩
    exact ⟨hparts, hphis, fun i hi l hl => (h.blockOf? l).symm ▸ hrefs i hi l hl⟩

theorem unbroken_endNotes {body : List Instruction} {merge? : Option Instruction} {t : Instruction}
    (h : b.Parts body merge? t) : Unbroken b.endNotes ↔ MergeFits merge? t := by
  unfold Block.endNotes MergeFits
  rw [h.terminator?_eq, h.mergeInstruction?_eq]
  cases merge? with
  | none => simp
  | some m =>
    rcases Opcode.isMerge_iff.mp (h.merge m rfl) with ho | ho <;> simp [ho]

theorem unbroken_instructionNotes {n : Nat} {i : Instruction} :
    Unbroken (f.instructionNotes b n i) ↔
      (i.opcode.isTerminator = true → n + 1 = b.instructions.length) ∧
      (i.opcode.isMerge = true → n + 2 = b.instructions.length) ∧
      (i.opcode.isPhi = true → i.result?.isSome →
        ∀ j ∈ b.instructions.take n, j.opcode.isPhi = true) ∧
      ∀ l ∈ i.blockRefs, (f.blockOf? l).isSome := by
  have himp : ∀ (p : Bool) (q : Prop), (p = false ∨ q) ↔ (p = true → q) := by
    intro p q
    cases p <;> simp
  unfold instructionNotes
  cases hr : i.result? with
  | none => simp [himp]
  | some phi => simp [himp]

theorem unbroken_blockNotes : Unbroken (f.blockNotes b) ↔ f.SoundBlock b := by
  have hmem : ∀ {P : Nat → Instruction → Prop},
      (∀ e ∈ b.instructions.zipIdx, P e.2 e.1) ↔ ∀ n i, b.instructions[n]? = some i → P n i := by
    intro P
    constructor
    · intro h n i hn
      exact h (i, n) (List.mk_mem_zipIdx_iff_getElem?.mpr hn)
    · rintro h ⟨i, n⟩ he
      exact h n i (List.mk_mem_zipIdx_iff_getElem?.mp he)
  have hdef : Unbroken [Note.defines b.label] := by simp [Unbroken]
  have hsplit : f.blockNotes b =
      [.defines b.label] ++ b.instructions.zipIdx.flatMap (fun e => f.instructionNotes b e.2 e.1)
        ++ b.endNotes := rfl
  rw [hsplit, unbroken_append, unbroken_append, unbroken_flatMap,
    hmem (P := fun n i => Unbroken (f.instructionNotes b n i))]
  simp only [unbroken_instructionNotes]
  constructor
  · rintro ⟨⟨-, hall⟩, hend⟩
    have hterm : b.terminator?.isSome := by
      cases ht : b.terminator? with
      | some t => rfl
      | none =>
        rw [Block.endNotes, ht] at hend
        exact absurd (List.mem_singleton.mpr rfl) (hend (.missingTerminator b.label))
    have hends : b.EndsInPlace := ⟨hterm, fun n i hn => ⟨(hall n i hn).1, (hall n i hn).2.1⟩⟩
    obtain ⟨body, merge?, t, hp⟩ := hends.exists_parts
    refine ⟨⟨body, merge?, t, hp, (unbroken_endNotes hp).mp hend⟩,
      phisLead_iff.mpr (fun n i hn => (hall n i hn).2.2.1), fun i hi => ?_⟩
    obtain ⟨n, hn⟩ := List.mem_iff_getElem?.mp hi
    exact (hall n i hn).2.2.2
  · intro h
    obtain ⟨body, merge?, t, hp, hfits⟩ := h.parts
    have hplaces := hp.endsInPlace.2
    refine ⟨⟨hdef, fun n i hn => ?_⟩, (unbroken_endNotes hp).mpr hfits⟩
    exact ⟨(hplaces n i hn).1, (hplaces n i hn).2, phisLead_iff.mp h.phis n i hn,
      h.refs i (List.mem_of_getElem? hn)⟩

/-! ## 2. Functions -/

/-- The parents that a phi names branch to its block. -/
def ParentsBranch (f : Function) (k : BlockKey) (phi : Instruction) : Prop :=
  ∀ p ∈ phi.phiIncoming, ∀ a, f.blockOf? p.2 = some a → k ∈ f.resolve (f.targets a)

/-- A phi has a pair for a block. -/
def HasPairFor (f : Function) (phi : Instruction) (a : BlockKey) : Prop :=
  ∀ l, f.label? a = some l → ∃ p ∈ phi.phiIncoming, p.2 = l

/-- The rules for one function: the entry is not branched to, every block is sound, and the phis of
the reachable blocks have pairs for the predecessors and for nothing else. -/
structure Sound (f : Function) : Prop where
  entry : ∀ e, f.entry? = some e → ∀ a ∈ f.layout, e ∉ f.resolve (f.targets a)
  block : f.SoundBlocks
  phi : ∀ k, f.Reached k → ∀ b, f.block? k = some b → ∀ phi ∈ b.phis, phi.result?.isSome →
    f.ParentsBranch k phi ∧
      ∀ a ∈ f.layout, k ∈ f.resolve (f.targets a) → f.HasPairFor phi a

theorem unbroken_phiNotes (hf : f.Coherent) (phi : Instruction) :
    Unbroken (f.phiNotes (FlowGraph.ofFunction f) k b phi) ↔
      (phi.result?.isSome → f.ParentsBranch k phi ∧
        ∀ a ∈ f.layout, k ∈ f.resolve (f.targets a) → f.HasPairFor phi a) := by
  unfold phiNotes
  cases phi.result? with
  | none => simp
  | some result =>
    simp only [unbroken_append, unbroken_flatMap, unbroken_unless, Option.isSome_some,
      forall_const]
    refine and_congr ?_ ?_
    · unfold ParentsBranch
      refine forall_congr' (fun p => imp_congr_right (fun _ => ?_))
      rw [Option.all_eq_true]
      refine forall_congr' (fun a => imp_congr_right (fun ha => ?_))
      rw [FlowGraph.isPredecessor_iff]
      exact ⟨fun h => h.2, fun h => ⟨(hf.indexed _ _ ha).1, h⟩⟩
    · simp only [mem_labelsOf, FlowGraph.mem_predecessors_iff, List.any_eq_true, decide_eq_true_eq,
        HasPairFor]
      refine ⟨fun h a ha hk l hl => h l ⟨a, ⟨ha, hk⟩, hl⟩, ?_⟩
      rintro h l ⟨a, ⟨ha, hk⟩, hl⟩
      exact h a ha hk l hl

theorem unbroken_notes_iff (hf : f.Coherent) : Unbroken f.notes ↔ f.Sound := by
  unfold notes
  rw [unbroken_append, unbroken_flatMap, unbroken_flatMap]
  simp only [Instruction.unbroken_notes, implies_true, true_and, Option.mem_toList]
  cases he : f.entry? with
  | none =>
    have hnil : f.layout = [] := List.head?_eq_none_iff.mp he
    simp only [reduceCtorEq, false_implies, implies_true, true_iff]
    refine ⟨fun e h => by simp [he] at h, fun k hk => by simp [hnil] at hk, fun k hk => ?_⟩
    obtain ⟨e, h, -⟩ := hk
    simp [he] at h
  | some e =>
    have hmem : e ∈ f.layout := List.mem_of_mem_head? he
    obtain ⟨l, hl, -⟩ := hf.named e hmem
    have hnil : (((FlowGraph.ofFunction f).predecessors e).isEmpty = true) ↔
        ∀ a ∈ f.layout, e ∉ f.resolve (f.targets a) := by
      rw [List.isEmpty_iff, List.eq_nil_iff_forall_not_mem]
      simp only [FlowGraph.mem_predecessors_iff, not_and]
    simp only [Option.some.injEq, forall_eq', layoutNotes, hl, unbroken_append, unbroken_unless,
      hnil, unbroken_flatMap, Option.mem_toList, unbroken_blockNotes, phisNotes]
    constructor
    · rintro ⟨hentry, hblocks⟩
      refine ⟨fun e' he' => ?_, fun k hk b hb => (hblocks k hk b hb).1, fun k hk b hb => ?_⟩
      · rw [he] at he'
        cases he'
        exact hentry
      · have h := (hblocks k (hk.mem_layout hf) b hb).2
        rw [if_pos ((contains_reachable_iff hf).mpr hk), unbroken_flatMap] at h
        exact fun phi hphi => (unbroken_phiNotes hf phi).mp (h phi hphi)
    · intro h
      refine ⟨h.entry e he, fun k hk b hb => ⟨h.block k hk b hb, ?_⟩⟩
      split
      · rename_i hlive
        rw [unbroken_flatMap]
        exact fun phi hphi => (unbroken_phiNotes hf phi).mpr
          (h.phi k ((contains_reachable_iff hf).mp hlive) b hb phi hphi)
      · exact unbroken_nil

/-- The ids that a function defines in its body: labels and results. -/
def bodyIds (f : Function) : List Id :=
  f.layout.flatMap (fun k => (f.label? k).toList ++ (f.instructions k).filterMap Instruction.result?)

/-- The ids that a function uses in its body. -/
def bodyUses (f : Function) : List Id :=
  f.layout.flatMap (fun k => (f.instructions k).flatMap Instruction.uses)

/-- The instructions before the body. -/
def heading (f : Function) : List Instruction := f.definition :: f.params

theorem definedIn_blockNotes : definedIn (f.blockNotes b) = b.label :: b.results := by
  have hend : definedIn b.endNotes = [] := by
    unfold Block.endNotes
    split
    · rfl
    · split <;> first | rfl | exact definedIn_unless _ _
  have hinstr : ∀ n i, definedIn (f.instructionNotes b n i) = i.result?.toList := by
    intro n i
    unfold instructionNotes
    cases hr : i.result? <;> simp [hr]
  have hsplit : f.blockNotes b =
      [.defines b.label] ++ b.instructions.zipIdx.flatMap (fun e => f.instructionNotes b e.2 e.1)
        ++ b.endNotes := rfl
  rw [hsplit, definedIn_append, definedIn_append, definedIn_flatMap, hend, List.append_nil]
  simp only [hinstr]
  have hres : b.instructions.zipIdx.flatMap (fun e => e.1.result?.toList) = b.results := by
    rw [Block.results, List.filterMap_eq_flatMap_toList]
    conv_rhs => rw [← List.zipIdx_map_fst 0 b.instructions]
    rw [List.flatMap_map]
  rw [hres]
  rfl

theorem usedIn_blockNotes : usedIn (f.blockNotes b) = b.instructions.flatMap Instruction.uses := by
  have hend : usedIn b.endNotes = [] := by
    unfold Block.endNotes
    split
    · rfl
    · split <;> first | rfl | exact usedIn_unless _ _
  have hinstr : ∀ n i, usedIn (f.instructionNotes b n i) = i.uses := by
    intro n i
    unfold instructionNotes
    cases hr : i.result? <;> simp
  have hsplit : f.blockNotes b =
      [.defines b.label] ++ b.instructions.zipIdx.flatMap (fun e => f.instructionNotes b e.2 e.1)
        ++ b.endNotes := rfl
  rw [hsplit, usedIn_append, usedIn_append, usedIn_flatMap, hend, List.append_nil]
  simp only [hinstr]
  conv_rhs => rw [← List.zipIdx_map_fst 0 b.instructions]
  rw [List.flatMap_map]
  rfl

theorem notIn_phisNotes {g : FlowGraph} {live : KeySet BlockKey} :
    definedIn (f.phisNotes g live k b) = [] ∧ usedIn (f.phisNotes g live k b) = [] := by
  have hphi : ∀ phi, definedIn (f.phiNotes g k b phi) = [] ∧ usedIn (f.phiNotes g k b phi) = [] := by
    intro phi
    unfold phiNotes
    split <;> simp
  unfold phisNotes
  split
  · simp [hphi]
  · exact ⟨rfl, rfl⟩

theorem definedIn_notes (f : Function) :
    definedIn f.notes = f.heading.filterMap Instruction.result? ++ f.bodyIds := by
  have hhead : definedIn (f.heading.flatMap Instruction.notes) =
      f.heading.filterMap Instruction.result? := by
    rw [definedIn_flatMap, List.filterMap_eq_flatMap_toList]
    simp
  have hblock : ∀ k, definedIn ((f.block? k).toList.flatMap (fun b =>
      f.blockNotes b ++ f.phisNotes (FlowGraph.ofFunction f) f.reachable k b)) =
        (f.label? k).toList ++ (f.instructions k).filterMap Instruction.result? := by
    intro k
    cases hk : f.block? k with
    | none => simp [label?, instructions, hk]
    | some b =>
      simp [definedIn_blockNotes, notIn_phisNotes, label?, instructions, hk, Block.results]
  unfold notes
  rw [definedIn_append]
  refine congrArg₂ _ hhead ?_
  cases he : f.entry? with
  | none => simp [bodyIds, List.head?_eq_none_iff.mp he]
  | some e =>
    have hentry : ∀ ls : List Id, definedIn (ls.flatMap (fun l =>
        Note.unless ((FlowGraph.ofFunction f).predecessors e).isEmpty (.entryIsBranchTarget l))) =
          [] := by
      simp
    simp only [Option.toList_some, List.flatMap_singleton, layoutNotes, definedIn_append, hentry,
      List.nil_append, bodyIds]
    rw [definedIn_flatMap]
    simp only [hblock]

theorem usedIn_notes (f : Function) :
    usedIn f.notes = f.heading.flatMap Instruction.uses ++ f.bodyUses := by
  have hhead : usedIn (f.heading.flatMap Instruction.notes) =
      f.heading.flatMap Instruction.uses := by
    rw [usedIn_flatMap]
    simp
  have hblock : ∀ k, usedIn ((f.block? k).toList.flatMap (fun b =>
      f.blockNotes b ++ f.phisNotes (FlowGraph.ofFunction f) f.reachable k b)) =
        (f.instructions k).flatMap Instruction.uses := by
    intro k
    cases hk : f.block? k with
    | none => simp [instructions, hk]
    | some b => simp [usedIn_blockNotes, notIn_phisNotes, instructions, hk]
  unfold notes
  rw [usedIn_append]
  refine congrArg₂ _ hhead ?_
  cases he : f.entry? with
  | none => simp [bodyUses, List.head?_eq_none_iff.mp he]
  | some e =>
    have hentry : ∀ ls : List Id, usedIn (ls.flatMap (fun l =>
        Note.unless ((FlowGraph.ofFunction f).predecessors e).isEmpty (.entryIsBranchTarget l))) =
          [] := by
      simp
    simp only [Option.toList_some, List.flatMap_singleton, layoutNotes, usedIn_append, hentry,
      List.nil_append, bodyUses]
    rw [usedIn_flatMap]
    simp only [hblock]

/-- The targets of every branch in the function can be read. -/
def Readable (f : Function) : Prop :=
  ∀ b ∈ f.layout, ∀ i ∈ f.instructions b, i.hasReadableTargets = true

instance (f : Function) : Decidable f.Readable :=
  inferInstanceAs (Decidable (∀ b ∈ f.layout, ∀ i ∈ f.instructions b, i.hasReadableTargets = true))

theorem Readable.requireReadable (h : f.Readable) {bs : List BlockKey}
    (hbs : ∀ b ∈ bs, b ∈ f.layout) : f.requireReadable bs = .ok () := by
  refine if_pos (List.all_eq_true.mpr (fun b hb => ?_))
  refine (Option.all_eq_true _ _).mpr (fun k hk => (Option.all_eq_true _ _).mpr (fun t ht => ?_))
  refine h b (hbs b hb) t ?_
  rw [instructions_of_block? hk]
  unfold Block.terminator? at ht
  exact List.mem_of_getLast? (Option.filter_eq_some_iff.mp ht).1

theorem Readable.requireReadable_reachable (h : f.Readable) (hf : f.Coherent) :
    f.requireReadable f.reachable.keys = .ok () :=
  h.requireReadable (fun _ hb => ((mem_keys_reachableBy_iff hf).mp hb).mem_layout hf)

theorem Readable.readStructuredOrder_eq_ok (h : f.Readable) :
    f.readStructuredOrder = .ok f.structuredOrder :=
  bind_eq_ok.mpr ⟨(), h.requireReadable (fun _ hb => hb), rfl⟩

end Function

/-! ## 3. Modules -/

theorem Section.mem_all (s : Section) : s ∈ Section.all := by
  cases s <;> decide

namespace Module

/-- The functions of the module, those beyond the reach of keys included. -/
def functionList (m : Module) : List Function := m.functions.slots.toList

/-- Every id that the module defines, in the order of the definitions. -/
def definedIds (m : Module) : List Id :=
  m.header.filterMap Instruction.result? ++
    m.functionList.flatMap (fun f => f.heading.filterMap Instruction.result? ++ f.bodyIds)

/-- Every id that the module uses, in the order of the uses. -/
def usedIds (m : Module) : List Id :=
  m.header.flatMap Instruction.uses ++
    m.functionList.flatMap (fun f => f.heading.flatMap Instruction.uses ++ f.bodyUses)

/-- The globals stand at the end of the header. -/
theorem header_eq (m : Module) :
    m.header = Section.all.dropLast.flatMap m.inSection ++ m.globals := by
  simp [header, Section.all, inSection]

theorem mem_header {m : Module} {i : Instruction} : i ∈ m.header ↔ ∃ s, i ∈ m.inSection s := by
  simp only [header, List.mem_flatMap, Section.mem_all, true_and]

theorem mem_definedIds {m : Module} {x : Id} : x ∈ m.definedIds ↔
    (∃ s, ∃ i ∈ m.inSection s, i.result? = some x) ∨
      (∃ f ∈ m.functionList, x ∈ f.heading.filterMap Instruction.result?) ∨
      ∃ f ∈ m.functionList, x ∈ f.bodyIds := by
  simp only [definedIds, List.mem_append, List.mem_filterMap, List.mem_flatMap, mem_header]
  grind

theorem mem_usedIds {m : Module} {x : Id} : x ∈ m.usedIds ↔
    (∃ s, ∃ i ∈ m.inSection s, x ∈ i.uses) ∨
      (∃ f ∈ m.functionList, x ∈ f.heading.flatMap Instruction.uses) ∨
      ∃ f ∈ m.functionList, x ∈ f.bodyUses := by
  simp only [usedIds, List.mem_append, List.mem_flatMap, mem_header]
  grind

/-- The functions of the module were put together block by block. -/
def Coherent (m : Module) : Prop := ∀ f ∈ m.functionList, f.Coherent

instance (m : Module) : Decidable m.Coherent :=
  inferInstanceAs (Decidable (∀ f ∈ m.functionList, f.Coherent))

theorem isReadable_iff {m : Module} :
    m.isReadable = true ↔ ∀ f ∈ m.functionList, f.Readable := by
  simp only [isReadable, functionList, ← Array.all_toList, List.all_eq_true, Function.Readable]
  refine forall₂_congr (fun f _ => ⟨fun h b hb i hi => ?_, fun h e he => ?_⟩)
  · exact h (b, i) (Function.mem_body.mpr ⟨hb, hi⟩)
  · obtain ⟨hb, hi⟩ := Function.mem_body.mp he
    exact h e.1 hb e.2 hi

/-- The module is coherent and keeps the rules: branches can be read, no id is defined twice, ids
lie below the bound, every id that is used is defined, and the functions are sound. -/
structure Accepted (m : Module) : Prop where
  coherent : m.Coherent
  readable : m.isReadable = true
  nodup : m.definedIds.Nodup
  below : ∀ id ∈ m.definedIds, id.word < m.bound
  defined : ∀ id ∈ m.usedIds, id ∈ m.definedIds
  sound : ∀ f ∈ m.functionList, f.Sound

/-- **The check finds nothing in exactly the accepted modules.** -/
theorem check_eq_ok_nil_iff {m : Module} (hm : m.Coherent) : m.check = .ok [] ↔ m.Accepted := by
  have hdef : definedIn m.notes = m.definedIds := by
    unfold notes definedIds functionList
    rw [definedIn_append, definedIn_flatMap, definedIn_flatMap, List.filterMap_eq_flatMap_toList]
    simp [Function.definedIn_notes]
  have hused : usedIn m.notes = m.usedIds := by
    unfold notes usedIds functionList
    rw [usedIn_append, usedIn_flatMap, usedIn_flatMap]
    simp [Function.usedIn_notes]
  have hunbroken : Unbroken m.notes ↔ ∀ f ∈ m.functionList, f.Sound := by
    unfold notes
    rw [unbroken_append, unbroken_flatMap, unbroken_flatMap]
    simp only [Instruction.unbroken_notes, implies_true, true_and]
    exact forall_congr' (fun f => imp_congr_right (fun hf => Function.unbroken_notes_iff (hm f hf)))
  rw [check_eq_ok_nil_iff_notes, hdef, hused, hunbroken]
  constructor
  · rintro ⟨hr, hs, hn, hb, hu⟩
    exact ⟨hm, hr, hn, hb, hu, hs⟩
  · rintro ⟨-, hr, hn, hb, hu, hs⟩
    exact ⟨hr, hs, hn, hb, hu⟩

end Module
end ShaderIR
