import ShaderIR.Proofs.Validity.Rules

/-!
# Lawful modules

`Module.Accepted` says what the check enforces in the terms that proofs need: the parts of a block,
the index of the labels.  Here the rules are said from the text alone: which instruction stands
before which, which labels the blocks of the layout have, and where they branch to.  The check goes
through a module once and leaves some reports out where it has made others; neither makes a
difference to whether it finds anything.

* `Block.endsOnce_and_mergesLast_iff`, `phisFirst_iff`: the rules for a block;
* `Function.sound_iff_lawful`: the rules for a function;
* `Module.check_accepts_lawful`: the check finds nothing in exactly the lawful modules.
-/

namespace ShaderIR

/-! ## 1. Blocks -/

namespace Block

variable {b : Block}

/-- The block ends in a terminator and has none earlier. -/
def EndsOnce (b : Block) : Prop :=
  ∃ (front : List Instruction) (t : Instruction), b.instructions = front ++ [t] ∧
    t.opcode.isTerminator = true ∧ ∀ i ∈ front, i.opcode.isTerminator = false

/-- A merge declaration is the last but one instruction, and the last one suits it. -/
def MergesLast (b : Block) : Prop :=
  ∀ (front : List Instruction) (i : Instruction) (rest : List Instruction),
    b.instructions = front ++ i :: rest → i.opcode.isMerge = true →
    ∃ t : Instruction, rest = [t] ∧
      (i.opcode = .selectionMerge → t.opcode = .branchConditional ∨ t.opcode = .switch) ∧
      (i.opcode = .loopMerge → t.opcode = .branch ∨ t.opcode = .branchConditional)

/-- A phi with a result has only phis before it. -/
def PhisFirst (b : Block) : Prop :=
  ∀ (front : List Instruction) (i : Instruction) (rest : List Instruction),
    b.instructions = front ++ i :: rest → i.opcode.isPhi = true → i.result?.isSome →
    ∀ j ∈ front, j.opcode.isPhi = true

/-- An instruction at a place has others before and after it. -/
theorem exists_split_at {is : List Instruction} {n : Nat} {i : Instruction} (h : is[n]? = some i) :
    is = is.take n ++ i :: is.drop (n + 1) ∧ (is.take n).length = n := by
  obtain ⟨hlt, rfl⟩ := List.getElem?_eq_some_iff.mp h
  rw [List.getElem_cons_drop, List.take_append_drop]
  exact ⟨rfl, List.length_take_of_le (Nat.le_of_lt hlt)⟩

theorem phisFirst_iff : b.PhisFirst ↔ PhisLead b.instructions := by
  rw [phisLead_iff]
  constructor
  · intro h n i hn
    exact h _ i _ (exists_split_at hn).1
  · intro h front i rest hsplit hphi hres j hj
    refine h front.length i (by simp [hsplit]) hphi hres j ?_
    rw [hsplit, List.take_left]
    exact hj

theorem EndsOnce.endsInPlace (h : b.EndsOnce) (hm : b.MergesLast) : b.EndsInPlace := by
  obtain ⟨front, t, heq, ht, hfront⟩ := h
  refine ⟨by simp [terminator?, heq, ht], fun n i hn => ?_⟩
  obtain ⟨hsplit, hlen⟩ := exists_split_at hn
  have hlength : n + ((b.instructions.drop (n + 1)).length + 1) = b.instructions.length := by
    conv_rhs => rw [hsplit]
    rw [List.length_append, hlen, List.length_cons]
  constructor
  · intro hisT
    by_contra hearly
    have hlt : n < front.length := by
      have hn' := (List.getElem?_eq_some_iff.mp hn).1
      have hall : b.instructions.length = front.length + 1 := by simp [heq]
      omega
    rw [heq, List.getElem?_append_left hlt] at hn
    rw [hfront i (List.mem_of_getElem? hn)] at hisT
    cases hisT
  · intro hisM
    obtain ⟨t', hrest, -⟩ := hm _ i _ hsplit hisM
    rw [hrest, List.length_singleton] at hlength
    omega

/-- **What stands at the end of a block**, said in two ways. -/
theorem endsOnce_and_mergesLast_iff : b.EndsOnce ∧ b.MergesLast ↔
    ∃ body merge? t, b.Parts body merge? t ∧ MergeFits merge? t := by
  constructor
  · rintro ⟨hends, hmerges⟩
    obtain ⟨body, merge?, t, hp⟩ := (hends.endsInPlace hmerges).exists_parts
    refine ⟨body, merge?, t, hp, fun i hi => ?_⟩
    have hsplit : b.instructions = body ++ i :: [t] := by simp [hp.eq, hi]
    obtain ⟨t', ht', hfits⟩ := hmerges body i [t] hsplit (hp.merge i hi)
    cases ht'
    exact hfits
  · rintro ⟨body, merge?, t, hp, hfits⟩
    refine ⟨⟨body ++ merge?.toList, t, hp.eq, hp.last, fun i hi => ?_⟩,
      fun front i rest hsplit hisM => ?_⟩
    · rcases List.mem_append.mp hi with hi | hi
      · exact (hp.body i hi).1
      · exact Opcode.isTerminator_of_isMerge (hp.merge i (Option.mem_toList.mp hi))
    · have hmerge : merge? = some i := by
        rcases hp.mem_instructions_iff.mp (by simp [hsplit] : i ∈ b.instructions) with hi | hi | hi
        · rw [(hp.body i hi).2] at hisM
          cases hisM
        · exact hi
        · have hlast := hp.last
          rw [← hi, Opcode.isTerminator_of_isMerge hisM] at hlast
          cases hlast
      -- the place of the declaration leaves room for one instruction, the terminator
      have hplace := (hp.endsInPlace.2 front.length i (by simp [hsplit])).2 hisM
      rw [hsplit, List.length_append, List.length_cons] at hplace
      obtain ⟨t', rfl⟩ := List.length_eq_one_iff.mp (by omega : rest.length = 1)
      have hlast : b.instructions.getLast? = some t := by simp [hp.eq]
      obtain rfl : t' = t := by simpa [hsplit] using hlast
      exact ⟨t', rfl, hfits i hmerge⟩

end Block

/-! ## 2. Functions -/

/-- The instruction names a label as that of a block: a branch target, a merge block, a continue
target, or the parent of a phi. -/
def Instruction.NamesBlock (i : Instruction) (l : Id) : Prop :=
  l ∈ i.branchTargets ∨ (∃ p, i.mergeTargets? = some p ∧ (l = p.1 ∨ p.2 = some l)) ∨
    (i.opcode = .phi ∧ ∃ p ∈ i.phiIncoming, p.2 = l)

theorem Instruction.mem_blockRefs_iff {i : Instruction} {l : Id} :
    l ∈ i.blockRefs ↔ i.NamesBlock l := by
  rw [mem_blockRefs, NamesBlock, Opcode.isPhi_iff]

namespace Function

variable {f : Function} {k : BlockKey} {l : Id}

/-- A block of the layout has the label. -/
def HasLabel (f : Function) (l : Id) : Prop := ∃ k ∈ f.layout, f.label? k = some l

theorem Coherent.hasLabel_iff (hf : f.Coherent) : f.HasLabel l ↔ (f.blockOf? l).isSome := by
  rw [Option.isSome_iff_exists]
  exact exists_congr (fun k => hf.blockOf?_eq_some_iff.symm)

/-- A block is branched to by its label. -/
theorem Coherent.mem_resolve_iff (hf : f.Coherent) (hk : k ∈ f.layout) (hl : f.label? k = some l)
    {ls : List Id} : k ∈ f.resolve ls ↔ l ∈ ls := by
  rw [mem_resolve]
  constructor
  · rintro ⟨l', hl', hk'⟩
    obtain rfl : l' = l := Option.some.inj ((hf.indexed l' k hk').2.symm.trans hl)
    exact hl'
  · exact fun hmem => ⟨l, hmem, hf.blockOf?_eq_some_iff.mpr ⟨hk, hl⟩⟩

/-- The rules for a function. -/
structure Lawful (f : Function) : Prop where
  ends : ∀ k ∈ f.layout, ∀ b, f.block? k = some b → b.EndsOnce
  merges : ∀ k ∈ f.layout, ∀ b, f.block? k = some b → b.MergesLast
  phisFirst : ∀ k ∈ f.layout, ∀ b, f.block? k = some b → b.PhisFirst
  labels : ∀ k ∈ f.layout, ∀ b, f.block? k = some b → ∀ i ∈ b.instructions, ∀ l,
    i.NamesBlock l → f.HasLabel l
  /-- No block branches to the entry. -/
  entry : ∀ e l, f.entry? = some e → f.label? e = some l → ∀ a ∈ f.layout, l ∉ f.targets a
  /-- The parents of a phi in a reachable block are the labels of the blocks that branch to it. -/
  phis : ∀ k, f.Reached k → ∀ b, f.block? k = some b → ∀ phi ∈ b.phis, phi.result?.isSome →
    ∀ l, (∃ p ∈ phi.phiIncoming, p.2 = l) ↔
      ∃ a ∈ f.layout, f.label? a = some l ∧ b.label ∈ f.targets a

section Coherent

variable (hf : f.Coherent)
include hf

theorem soundBlock_iff {b : Block} :
    f.SoundBlock b ↔ (b.EndsOnce ∧ b.MergesLast) ∧ b.PhisFirst ∧
      ∀ i ∈ b.instructions, ∀ l, i.NamesBlock l → f.HasLabel l := by
  rw [Block.endsOnce_and_mergesLast_iff, Block.phisFirst_iff]
  simp only [← Instruction.mem_blockRefs_iff, hf.hasLabel_iff]
  exact ⟨fun h => ⟨h.parts, h.phis, h.refs⟩, fun h => ⟨h.1, h.2.1, h.2.2⟩⟩

/-- **The parents of a phi are the predecessors**, said in two ways. -/
theorem parents_iff (hk : k ∈ f.layout) {b : Block} (hb : f.block? k = some b) {phi : Instruction}
    (hknown : ∀ p ∈ phi.phiIncoming, f.HasLabel p.2) :
    (f.ParentsBranch k phi ∧ ∀ a ∈ f.layout, k ∈ f.resolve (f.targets a) → f.HasPairFor phi a) ↔
      ∀ l, (∃ p ∈ phi.phiIncoming, p.2 = l) ↔
        ∃ a ∈ f.layout, f.label? a = some l ∧ b.label ∈ f.targets a := by
  have hedge : ∀ a, k ∈ f.resolve (f.targets a) ↔ b.label ∈ f.targets a := fun a =>
    hf.mem_resolve_iff hk (label?_of_block? hb)
  constructor
  · rintro ⟨hparents, hpairs⟩ l
    constructor
    · rintro ⟨p, hp, rfl⟩
      obtain ⟨a, ha, hla⟩ := hknown p hp
      have hindex := hf.blockOf?_eq_some_iff.mpr ⟨ha, hla⟩
      exact ⟨a, ha, hla, (hedge a).mp (hparents p hp a hindex)⟩
    · rintro ⟨a, ha, hla, hbranch⟩
      exact hpairs a ha ((hedge a).mpr hbranch) l hla
  · intro h
    refine ⟨fun p hp a ha => ?_, fun a ha hbranch l hla => (h l).mpr ⟨a, ha, hla, ?_⟩⟩
    · obtain ⟨a', ha', hla', hbranch⟩ := (h p.2).mp ⟨p, hp, rfl⟩
      obtain ⟨hlayout, hla⟩ := hf.indexed p.2 a ha
      obtain rfl := hf.eq_of_label? ha' hlayout hla' hla
      exact (hedge a').mpr hbranch
    · exact (hedge a).mp hbranch

/-- **A function is sound if it is lawful.** -/
theorem sound_iff_lawful : f.Sound ↔ f.Lawful := by
  have hphis : ∀ {k b}, f.Reached k → f.block? k = some b →
      (∀ i ∈ b.instructions, ∀ l, i.NamesBlock l → f.HasLabel l) → ∀ phi ∈ b.phis,
      ((f.ParentsBranch k phi ∧ ∀ a ∈ f.layout, k ∈ f.resolve (f.targets a) → f.HasPairFor phi a) ↔
        ∀ l, (∃ p ∈ phi.phiIncoming, p.2 = l) ↔
          ∃ a ∈ f.layout, f.label? a = some l ∧ b.label ∈ f.targets a) := by
    intro k b hk hb hnames phi hphi
    obtain ⟨hmem, hisphi⟩ := Block.mem_of_mem_phis hphi
    refine parents_iff hf (hk.mem_layout hf) hb (fun p hp => hnames phi hmem p.2 ?_)
    exact .inr (.inr ⟨Opcode.isPhi_iff.mp hisphi, p, hp, rfl⟩)
  constructor
  · intro h
    have hblocks := fun k hk b hb => (soundBlock_iff hf).mp (h.block k hk b hb)
    refine ⟨fun k hk b hb => (hblocks k hk b hb).1.1, fun k hk b hb => (hblocks k hk b hb).1.2,
      fun k hk b hb => (hblocks k hk b hb).2.1, fun k hk b hb => (hblocks k hk b hb).2.2,
      fun e l he hl a ha hmem => ?_, fun k hk b hb phi hphi hres => ?_⟩
    · exact h.entry e he a ha ((hf.mem_resolve_iff (List.mem_of_mem_head? he) hl).mpr hmem)
    · exact (hphis hk hb (hblocks k (hk.mem_layout hf) b hb).2.2 phi hphi).mp
        (h.phi k hk b hb phi hphi hres)
  · intro h
    refine ⟨fun e he a ha hmem => ?_, fun k hk b hb => ?_, fun k hk b hb phi hphi hres => ?_⟩
    · have hlayout : e ∈ f.layout := List.mem_of_mem_head? he
      obtain ⟨l, hl, -⟩ := hf.named e hlayout
      exact h.entry e l he hl a ha ((hf.mem_resolve_iff hlayout hl).mp hmem)
    · exact (soundBlock_iff hf).mpr ⟨⟨h.ends k hk b hb, h.merges k hk b hb⟩,
        h.phisFirst k hk b hb, h.labels k hk b hb⟩
    · exact (hphis hk hb (h.labels k (hk.mem_layout hf) b hb) phi hphi).mpr
        (h.phis k hk b hb phi hphi hres)

end Coherent

end Function

/-! ## 3. Modules -/

namespace Module

variable {m : Module}

/-- The rules for a module. -/
structure Lawful (m : Module) : Prop where
  /-- No id is defined twice: in the sections, the headings of the functions and their bodies. -/
  distinct : m.definedIds.Nodup
  below : ∀ x, x ∈ m.definedIds ∨ x ∈ m.usedIds → x.word < m.bound
  defined : ∀ x ∈ m.usedIds, x ∈ m.definedIds
  functions : ∀ f ∈ m.functionList, f.Lawful

theorem accepted_iff_lawful (hm : m.Coherent) (hread : m.isReadable = true) :
    m.Accepted ↔ m.Lawful := by
  constructor
  · intro h
    refine ⟨h.nodup, fun x hx => ?_, h.defined,
      fun f hf => (Function.sound_iff_lawful (hm f hf)).mp (h.sound f hf)⟩
    exact h.below x (hx.elim id (h.defined x))
  · intro h
    exact ⟨hm, hread, h.distinct, fun x hx => h.below x (.inl hx), h.defined,
      fun f hf => (Function.sound_iff_lawful (hm f hf)).mpr (h.functions f hf)⟩

/-- **The check finds nothing in exactly the lawful modules**, where every conditional branch has an
operand. -/
theorem check_accepts_lawful (hm : m.Coherent)
    (hread : ∀ f ∈ m.functionList, ∀ k ∈ f.layout, ∀ i ∈ f.instructions k,
      ¬ (i.opcode = .branchConditional ∧ i.operands = [])) :
    ∃ found, m.check = .ok found ∧ (found = [] ↔ m.Lawful) := by
  have hreadable : m.isReadable = true := isReadable_iff.mpr (fun f hf k hk i hi =>
    Instruction.hasReadableTargets_iff.mpr (hread f hf k hk i hi))
  have hcheck : m.check = .ok m.violations := if_pos hreadable
  refine ⟨m.violations, hcheck, ?_⟩
  rw [← accepted_iff_lawful hm hreadable, ← check_eq_ok_nil_iff hm, hcheck, Except.ok.injEq]

/-- A loop whose header has a phi with the given pairs. -/
def loopFunction (incoming : List (Id × Id)) : Function := .ofBlocks ⟨1⟩ ⟨2⟩ ⟨3⟩ [
  ⟨⟨10⟩, [.branch ⟨11⟩]⟩,
  ⟨⟨11⟩, [.phi ⟨4⟩ ⟨14⟩ incoming, .loopMerge ⟨13⟩ ⟨12⟩, .branchConditional ⟨14⟩ ⟨12⟩ ⟨13⟩]⟩,
  ⟨⟨12⟩, [⟨.logicalNot, some ⟨4⟩, some ⟨15⟩, [.ref ⟨14⟩]⟩, .branch ⟨11⟩]⟩,
  ⟨⟨13⟩, [.ret]⟩]

/-- The module of the loop.  The name and the decoration stand before what they are about. -/
def loopWith (incoming : List (Id × Id)) : Module :=
  { Module.empty with
    debug := [⟨.name, none, none, [.ref ⟨11⟩, .string "head"]⟩]
    annotations := [⟨.decorate, none, none, [.ref ⟨14⟩, .literal 0]⟩]
    globals := [⟨.typeVoid, none, some ⟨2⟩, []⟩, ⟨.typeFunction, none, some ⟨3⟩, [.ref ⟨2⟩]⟩,
      ⟨.typeBool, none, some ⟨4⟩, []⟩, ⟨.constantTrue, some ⟨4⟩, some ⟨5⟩, []⟩]
    functions := ⟨#[loopFunction incoming]⟩
    bound := 16 }

/-- With a pair for each way into the header the loop is lawful, without one it is not. -/
theorem check_accepts_lawful_loopWith :
    (loopWith [(⟨5⟩, ⟨10⟩), (⟨15⟩, ⟨12⟩)]).Coherent ∧ (loopWith [(⟨5⟩, ⟨10⟩)]).Coherent ∧
      (loopWith [(⟨5⟩, ⟨10⟩), (⟨15⟩, ⟨12⟩)]).Lawful ∧ ¬ (loopWith [(⟨5⟩, ⟨10⟩)]).Lawful := by
  have hwhole : (loopWith [(⟨5⟩, ⟨10⟩), (⟨15⟩, ⟨12⟩)]).Coherent := by decide
  have hlacks : (loopWith [(⟨5⟩, ⟨10⟩)]).Coherent := by decide
  obtain ⟨found, hcheck, hiff⟩ := check_accepts_lawful hwhole (by decide)
  obtain ⟨found', hcheck', hiff'⟩ := check_accepts_lawful hlacks (by decide)
  have hnone : (loopWith [(⟨5⟩, ⟨10⟩), (⟨15⟩, ⟨12⟩)]).check = .ok [] := by cbv
  have hone : (loopWith [(⟨5⟩, ⟨10⟩)]).check = .ok [.phiMissingPredecessor ⟨11⟩ ⟨14⟩ ⟨12⟩] := by cbv
  refine ⟨hwhole, hlacks, hiff.mp (Except.ok.inj (hcheck.symm.trans hnone)), fun hlawful => ?_⟩
  rw [hiff'.mpr hlawful, hone] at hcheck'
  cases hcheck'

end Module
end ShaderIR
