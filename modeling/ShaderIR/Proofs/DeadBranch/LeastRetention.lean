import ShaderIR.Proofs.DeadBranch.Removal

/-!
# The least retention

What a removal may leave of the dead blocks is said here without the search for it, by the rules of
an inductive family `Keeps`: ids that are used are needed, a needed label keeps its block, a needed
result its instruction, and a block that is kept keeps its end.  Nothing holds but by these rules, so
dead blocks that only mention each other are not kept.

* `keeps_block_iff`, `keeps_instruction_iff`: the sites that the search finds keep exactly that;
* `removal_keeps_least`: a removal leaves exactly that.
-/

namespace ShaderIR

/-- What is kept: the meaning of an id, a dead block, or an instruction of one, by its position. -/
inductive Keepable
  | id (x : Id)
  | block (b : BlockKey)
  | instruction (b : BlockKey) (n : Nat)

namespace Function

/-- **The least retention.** -/
inductive Keeps (f : Function) : Keepable → Prop
  /-- What an instruction of a reachable block uses is needed. -/
  | live {b : BlockKey} {i : Instruction} {x : Id} : f.Reached b → i ∈ f.instructions b →
    x ∈ i.uses → Keeps f (.id x)
  /-- What a kept instruction uses is needed. -/
  | used {b : BlockKey} {n : Nat} {i : Instruction} {x : Id} : Keeps f (.instruction b n) →
    (f.instructions b)[n]? = some i → x ∈ i.uses → Keeps f (.id x)
  /-- A dead block is kept if its label is needed. -/
  | named {b : BlockKey} {x : Id} : f.Dead b → f.label? b = some x → Keeps f (.id x) →
    Keeps f (.block b)
  /-- A dead block is kept if one of its instructions is. -/
  | around {b : BlockKey} {n : Nat} : Keeps f (.instruction b n) → Keeps f (.block b)
  /-- A block that is kept keeps its terminator. -/
  | terminator {b : BlockKey} {rest : List Instruction} {t : Instruction} : Keeps f (.block b) →
    f.instructions b = rest ++ [t] → t.opcode.isTerminator = true →
    Keeps f (.instruction b rest.length)
  /-- It keeps the merge declaration right before the terminator. -/
  | merge {b : BlockKey} {rest : List Instruction} {m t : Instruction} : Keeps f (.block b) →
    f.instructions b = rest ++ [m, t] → m.opcode.isMerge = true → t.opcode.isTerminator = true →
    Keeps f (.instruction b rest.length)
  /-- An instruction of a dead block is kept if its result is needed. -/
  | result {b : BlockKey} {n : Nat} {i : Instruction} {x : Id} : f.Dead b →
    (f.instructions b)[n]? = some i → i.result? = some x → Keeps f (.id x) →
    Keeps f (.instruction b n)

variable {f f' : Function} {b : BlockKey} {x : Id} {n : Nat} {s : Site} {k : Keepable}
  {killed killed' : SortedSet Id} {changed : Bool}

/-! ## 1. The sites that are found -/

/-- The sites that the search finds account for what is kept. -/
def Accounts (f : Function) : Keepable → Prop
  | .id x => ∀ s, f.StandsFor x s → s ∈ f.sites
  | .block b => isRetained f.sites b = true
  | .instruction b n => f.isKept f.sites b n = true

/-- The end of a block that is kept is kept. -/
theorem isKept_end (hb : isRetained f.sites b = true) {front fin : List Instruction}
    (hfin : Block.IsEnd fin) (hsplit : f.instructions b = front ++ fin)
    (hle : front.length ≤ n) (hlt : n < (front ++ fin).length) :
    f.isKept f.sites b n = true := by
  obtain ⟨s, hs, rfl⟩ := isRetained_iff.mp hb
  refine isKept_iff.mpr ⟨s, hs, rfl, List.mem_append_right _ ?_⟩
  cases hk : f.block? s.block with
  | none =>
    rw [instructions, hk, Option.map_none, Option.getD_none] at hsplit
    rw [← hsplit] at hlt
    cases hlt
  | some k =>
    obtain ⟨l, is⟩ := k
    obtain rfl : is = front ++ fin := (instructions_of_block? hk).symm.trans hsplit
    exact hfin.mem_endPositions hle hlt

/-- What a needed id stands for is kept. -/
theorem Keeps.block_of_standsFor (hx : f.Keeps (.id x)) (hs : f.StandsFor x s) :
    f.Keeps (.block s.block) := by
  obtain ⟨b, n?⟩ := s
  obtain ⟨hb, hn⟩ := hs
  cases n? with
  | none => exact .named hb hn hx
  | some n =>
    obtain ⟨i, hi, hix⟩ := hn
    exact .around (.result hb hi hix hx)

/-- So is every position that its site keeps. -/
theorem Keeps.of_mem_keptBy (hx : f.Keeps (.id x)) (hs : f.StandsFor x s) (hn : n ∈ f.keptBy s) :
    f.Keeps (.instruction s.block n) := by
  have hblock := hx.block_of_standsFor hs
  rcases List.mem_append.mp hn with hown | hend
  · obtain ⟨b, n?⟩ := s
    obtain rfl : n? = some n := by simpa using hown
    obtain ⟨hb, i, hi, hix⟩ := hs
    exact .result hb hi hix hx
  · cases hk : f.block? s.block with
    | none => simp [hk] at hend
    | some k =>
      obtain ⟨front, fin, hsplit⟩ := k.exists_split
      have heq := (instructions_of_block? hk).trans hsplit.eq
      obtain ⟨hle, hlt⟩ := hsplit.within n (by simpa [hk] using hend)
      rw [hsplit.eq, List.length_append] at hlt
      cases hsplit.isEnd with
      | none =>
        simp only [List.length_nil] at hlt
        omega
      | terminator ht =>
        obtain rfl : n = front.length := by
          simp only [List.length_singleton] at hlt
          omega
        exact .terminator hblock heq ht
      | @merge m t hm ht =>
        obtain rfl | rfl : n = front.length ∨ n = (front ++ [m]).length := by
          simp only [List.length_cons, List.length_nil, List.length_append] at hlt ⊢
          omega
        · exact .merge hblock heq hm ht
        · exact .terminator hblock (heq.trans (by simp)) ht

open Classical in
/-- The kept instructions of a block, in their order. -/
noncomputable def keptInstructions (f : Function) (b : BlockKey) : List Instruction :=
  ((f.instructions b).zipIdx.filter (fun e => f.Keeps (.instruction b e.2))).map Prod.fst

section Coherent

variable (hf : f.Coherent) (hu : f.Unique)
include hf hu

/-- **Nothing that has to be kept is missed.**  One case for each rule. -/
theorem Keeps.accounts (h : f.Keeps k) : f.Accounts k := by
  induction h with
  | live hb hi hx => exact fun s hs => mem_sites_of_live hf hu hb hi hx hs
  | used _ hi hx ih => exact fun s hs => mem_sites_of_kept hf hu ih hi hx hs
  | @named b x hb hl _ ih => exact isRetained_iff.mpr ⟨⟨b, none⟩, ih _ ⟨hb, hl⟩, rfl⟩
  | around _ ih => exact isRetained_of_isKept ih
  | terminator _ hsplit ht ih =>
    exact isKept_end ih (.terminator ht) hsplit (Nat.le_refl _) (by simp)
  | merge _ hsplit hm ht ih =>
    exact isKept_end ih (.merge hm ht) hsplit (Nat.le_refl _) (by simp)
  | @result b n i x hb hi hix _ ih =>
    exact isKept_iff.mpr ⟨⟨b, some n⟩, ih _ ⟨hb, i, hi, hix⟩, rfl, by simp [keptBy]⟩

/-- **Nothing is needed but by the rules.** -/
theorem keeps_of_mem_needed (hx : x ∈ f.needed f.reachable) : f.Keeps (.id x) := by
  refine needed_induct hf hu (P := fun x => f.Keeps (.id x)) ?_ ?_ hx
  · exact fun b hb i hi x hx => .live hb hi hx
  · intro x s hx hs y hy
    obtain ⟨n, hn, i, hi, hyi⟩ := mem_usesOf.mp hy
    exact .used (hx.of_mem_keptBy hs hn) hi hyi

theorem keeps_block_iff : f.Keeps (.block b) ↔ isRetained f.sites b = true := by
  refine ⟨fun h => h.accounts hf hu, fun h => ?_⟩
  obtain ⟨s, hs, rfl⟩ := isRetained_iff.mp h
  obtain ⟨x, hx, hxs⟩ := (mem_sites hf hu).mp hs
  exact (keeps_of_mem_needed hf hu hx).block_of_standsFor hxs

theorem keeps_instruction_iff : f.Keeps (.instruction b n) ↔ f.isKept f.sites b n = true := by
  refine ⟨fun h => h.accounts hf hu, fun h => ?_⟩
  obtain ⟨s, hs, rfl, hn⟩ := isKept_iff.mp h
  obtain ⟨x, hx, hxs⟩ := (mem_sites hf hu).mp hs
  exact (keeps_of_mem_needed hf hu hx).of_mem_keptBy hxs hn

/-- Only dead blocks are said to be kept. -/
theorem Keeps.dead (h : f.Keeps (.block b)) : f.Dead b := by
  obtain ⟨s, hs, rfl⟩ := isRetained_iff.mp ((keeps_block_iff hf hu).mp h)
  obtain ⟨x, -, hxs⟩ := (mem_sites hf hu).mp hs
  exact hxs.1

theorem keptInstructions_eq : f.keptInstructions b = f.splitKept f.sites b true := by
  simp only [keptInstructions, splitKept, keeps_instruction_iff hf hu]

end Coherent

/-! ## 2. The removal -/

/-- The id is the label of a dead block that is not kept, or the result of an instruction of a dead
block that is not kept. -/
def Drops (f : Function) (x : Id) : Prop :=
  ∃ b, f.Dead b ∧ ((f.label? b = some x ∧ ¬ f.Keeps (.block b)) ∨
    ∃ n i, (f.instructions b)[n]? = some i ∧ i.result? = some x ∧ ¬ f.Keeps (.instruction b n))

open Classical in
/-- What is left is the least retention, and the rest is accounted for. -/
structure KeepsLeast (f : Function) (killed : SortedSet Id) (f' : Function)
    (killed' : SortedSet Id) (changed : Bool) : Prop where
  /-- The blocks that can be reached are untouched. -/
  live : ∀ b, f.Reached b → f'.block? b = f.block? b
  /-- They stay in their places, and so do the dead blocks that are kept. -/
  layout : f'.layout = f.layout.filter (fun b => f.Reached b ∨ f.Keeps (.block b))
  /-- A dead block that is kept has its label and its kept instructions. -/
  dead : ∀ b, f.Keeps (.block b) →
    f'.label? b = f.label? b ∧ f'.instructions b = f.keptInstructions b
  /-- The ids that are gone are added to those killed before. -/
  killed : ∀ x, killed'.contains x = true ↔ killed.contains x = true ∨ f.Drops x
  /-- A change is a block or an instruction that is gone. -/
  changed : changed = true ↔ ∃ b, f.Dead b ∧ (¬ f.Keeps (.block b) ∨
    ∃ n, n < (f.instructions b).length ∧ ¬ f.Keeps (.instruction b n))

theorem KeepsLeast.mem_layout (h : f.KeepsLeast killed f' killed' changed) :
    b ∈ f'.layout ↔ b ∈ f.layout ∧ (f.Reached b ∨ f.Keeps (.block b)) := by
  simp [h.layout]

open Classical in
theorem Removed.layout_eq (hu : f.Unique) (h : f.Removed killed f' killed') :
    f'.layout = f.layout.filter (fun b => f.Reached b ∨ f.Keeps (.block b)) := by
  rw [h.layout]
  refine List.filter_congr (fun b _ => ?_)
  rw [Bool.eq_iff_iff, decide_eq_true_eq, stays, Bool.or_eq_true, contains_reachable_iff h.source,
    keeps_block_iff h.source hu]

/-- A removal that is not marked as a change has left everything in place. -/
theorem changed_eq_false_iff (hf : f.Coherent) (hu : f.Unique)
    (hread : f.requireReadable f.reachable.keys = .ok ())
    (h : f.removeUnreachable killed = .ok (f', killed', changed)) :
    changed = false ↔ ∀ b, f.Dead b → f.Keeps (.block b) ∧
      ∀ n, n < (f.instructions b).length → f.Keeps (.instruction b n) := by
  have hall : (f.RetainsDead ∧ f.NeedsAll) ↔ ∀ b, f.Dead b → f.Keeps (.block b) ∧
      ∀ n, n < (f.instructions b).length → f.Keeps (.instruction b n) := by
    simp only [keeps_block_iff hf hu, keeps_instruction_iff hf hu]
    constructor
    · exact fun hall b hb => ⟨hall.1 b hb, fun n hn => hall.2 b hb n _ (List.getElem?_eq_getElem hn)⟩
    · exact fun hall => ⟨fun b hb => (hall b hb).1, fun b hb n i hi =>
        (hall b hb).2 n (List.getElem?_eq_some_iff.mp hi).1⟩
  rw [← hall, ← removeUnreachable_eq_self_iff hf killed hread, h]
  constructor
  · rintro rfl
    obtain ⟨rfl, rfl⟩ := removeUnreachable_quiet h
    rfl
  · intro heq
    simp only [Except.ok.injEq, Prod.mk.injEq] at heq
    exact heq.2.2

theorem removeUnreachable_keepsLeast (hf : f.Coherent) (hu : f.Unique)
    (hread : f.requireReadable f.reachable.keys = .ok ())
    (h : f.removeUnreachable killed = .ok (f', killed', changed)) :
    f.KeepsLeast killed f' killed' changed := by
  have hr := removeUnreachable_spec hf h
  refine ⟨fun b hb => hr.block?_of_reached hb, hr.layout_eq hu, fun b hb => ?_, fun x => ?_, ?_⟩
  · have hdead := hb.dead hf hu
    have hb' : b ∈ f'.layout := (hr.dead_iff.mpr ⟨hdead, (keeps_block_iff hf hu).mp hb⟩).1
    refine ⟨hr.label? hb', ?_⟩
    rw [hr.instructions hb', remains_of_not_reached hf hdead.2, keptInstructions_eq hf hu]
  · rw [hr.killed, or_comm, Drops]
    refine or_congr_right (exists_congr (fun b => and_congr_right (fun hb => ?_)))
    obtain ⟨k, hk, -⟩ := hf.exists_block hb.1
    rw [mem_lostIn_iff hk]
    simp only [keeps_block_iff hf hu, keeps_instruction_iff hf hu, Bool.not_eq_true, and_comm]
  · rw [← Bool.not_eq_false, not_iff_comm, changed_eq_false_iff hf hu hread h]
    push Not
    rfl

theorem requireReadable_reachable (hf : f.Coherent)
    (h : ∀ b, f.Reached b → f.hasReadableTargets b = true) :
    f.requireReadable f.reachable.keys = .ok () :=
  if_pos (List.all_eq_true.mpr (fun b hb => h b ((mem_keys_reachableBy_iff hf).mp hb)))

theorem removeUnreachable_eq_error (hf : f.Coherent) (hb : f.Reached b)
    (hread : f.hasReadableTargets b = false) :
    f.removeUnreachable killed = .error .noBranchOperands := by
  have hkeys : ¬ f.reachable.keys.all f.hasReadableTargets = true := by
    intro hall
    rw [List.all_eq_true.mp hall b ((mem_keys_reachableBy_iff hf).mpr hb)] at hread
    cases hread
  rw [removeUnreachable, readReachable, requireReadable, if_neg hkeys]
  rfl

/-- **A removal leaves the least retention.**  It only fails where the targets of a reachable block
cannot be read. -/
theorem removal_keeps_least (hf : f.Coherent) (hn : f.bodyIds.Nodup) (killed : SortedSet Id) :
    ((∀ b, f.Reached b → f.hasReadableTargets b = true) →
      ∃ f' killed' changed, f.removeUnreachable killed = .ok (f', killed', changed) ∧
        f.KeepsLeast killed f' killed' changed) ∧
    ((∃ b, f.Reached b ∧ f.hasReadableTargets b = false) →
      f.removeUnreachable killed = .error .noBranchOperands) := by
  constructor
  · intro hread
    have hkeys := requireReadable_reachable hf hread
    obtain ⟨⟨f', killed', changed⟩, h⟩ := exists_removeUnreachable hf killed hkeys
    exact ⟨f', killed', changed, h,
      removeUnreachable_keepsLeast hf (unique_of_nodup hn) hkeys h⟩
  · rintro ⟨b, hb, hread⟩
    exact removeUnreachable_eq_error hf hb hread

/-- Only `%10` can be reached.  Its phi needs `%21` and block `%12`, which goes on to `%13`.  Blocks
`%14` and `%15` mention each other, and nothing else mentions them. -/
def deadCycle : Function := .ofBlocks ⟨1⟩ ⟨2⟩ ⟨3⟩ [
  ⟨⟨10⟩, [.phi ⟨4⟩ ⟨20⟩ [(⟨21⟩, ⟨12⟩)], .ret]⟩,
  ⟨⟨12⟩, [⟨.iAdd, some ⟨4⟩, some ⟨21⟩, [.ref ⟨5⟩, .ref ⟨5⟩]⟩,
    ⟨.iAdd, some ⟨4⟩, some ⟨22⟩, [.ref ⟨21⟩, .ref ⟨5⟩]⟩, .branch ⟨13⟩]⟩,
  ⟨⟨13⟩, [⟨.iAdd, some ⟨4⟩, some ⟨23⟩, [.ref ⟨22⟩, .ref ⟨5⟩]⟩, .ret]⟩,
  ⟨⟨14⟩, [⟨.iAdd, some ⟨4⟩, some ⟨24⟩, [.ref ⟨25⟩, .ref ⟨5⟩]⟩, .branch ⟨15⟩]⟩,
  ⟨⟨15⟩, [⟨.iAdd, some ⟨4⟩, some ⟨25⟩, [.ref ⟨24⟩, .ref ⟨5⟩]⟩, .branch ⟨14⟩]⟩]

theorem removal_keeps_least_deadCycle :
    deadCycle.Coherent ∧ deadCycle.bodyIds.Nodup ∧
      (∀ b, deadCycle.Reached b → deadCycle.hasReadableTargets b = true) ∧
      ∃ f' killed', deadCycle.removeUnreachable .empty = .ok (f', killed', true) ∧
        deadCycle.KeepsLeast .empty f' killed' true ∧ f'.layout = [⟨0⟩, ⟨1⟩, ⟨2⟩] ∧
        deadCycle.Keeps (.block ⟨2⟩) ∧ ¬ deadCycle.Keeps (.block ⟨3⟩) := by
  have hco : deadCycle.Coherent := by decide
  have hn : deadCycle.bodyIds.Nodup := by decide
  have hlayout : ∀ b ∈ deadCycle.layout, deadCycle.hasReadableTargets b = true := by decide
  have hread : ∀ b, deadCycle.Reached b → deadCycle.hasReadableTargets b = true :=
    fun b hb => hlayout b (hb.mem_layout hco)
  have hrun : (deadCycle.removeUnreachable .empty).toOption.map (fun r => (r.1.layout, r.2.2)) =
      some ([⟨0⟩, ⟨1⟩, ⟨2⟩], true) := by cbv
  have hdead : deadCycle.reachable.contains ⟨2⟩ = false := by cbv
  obtain ⟨f', killed', changed, h, hleast⟩ := (removal_keeps_least hco hn .empty).1 hread
  rw [h] at hrun
  obtain ⟨hleft, rfl⟩ : f'.layout = [⟨0⟩, ⟨1⟩, ⟨2⟩] ∧ changed = true := by
    simpa [Except.toOption] using hrun
  refine ⟨hco, hn, hread, f', killed', h, hleast, hleft, ?_, fun hkeeps => ?_⟩
  · have hmem : (⟨2⟩ : BlockKey) ∈ f'.layout := by simp [hleft]
    refine (hleast.mem_layout.mp hmem).2.resolve_left (fun hb => ?_)
    rw [(contains_reachable_iff hco).mpr hb] at hdead
    cases hdead
  · have hmem : (⟨3⟩ : BlockKey) ∈ f'.layout := hleast.mem_layout.mpr ⟨by decide, .inr hkeeps⟩
    rw [hleft] at hmem
    exact absurd hmem (by decide)

end Function
end ShaderIR
