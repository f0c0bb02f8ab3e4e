import ShaderIR.Proofs.DeadBranch.Collapse
import ShaderIR.Proofs.Execution

/-!
# Running a function before and after

The machine runs a function before its dead branches are eliminated and after, side by side.  Both
are always in the same block, with the same memory.  They differ in the values of the phis that have
given way to other values, and in the code only by the renaming of those phis and by the terminators
of folded headers, which send control to the same place.

* `Agree`: what is known about the values on both sides while a block is run;
* `Agree.read`: an operand and its renaming have the same value;
* `Agree.define`, `Agree.enter`: what an instruction and a jump keep;
* `Agree.exit`: both terminators send control to the same place;
* `Related.step`: one step on both sides; `observe_run`: any number of steps.
-/

namespace ShaderIR.Function

open PhiRepair

universe u v

variable {α : Type u} {σ : Type v} {f f' : Function} {w w' : Workspace} {folded : Folding}
  {repaired : PhiRepair} {mended : BlockKey → List Instruction} {b c : BlockKey} {r : Id × Id}
  {x l : Id} {phi : Instruction} {env env' : Environment α}

/-! ## 1. A block and what becomes of it -/

/-- The mended phis of a block that do not give way. -/
def leftPhis (folded : Folding) (repaired : PhiRepair) (mended : BlockKey → List Instruction)
    (b : BlockKey) : List Instruction :=
  (mended b).filter (isLeft (folded.function.phiParents b) repaired.pruned)

/-- A block that control still reaches, before folding, after folding, and in the end. -/
structure Kept (f : Function) (w : Workspace) (f' : Function) (folded : Folding)
    (repaired : PhiRepair) (mended : BlockKey → List Instruction) (b : BlockKey) (k k' : Block)
    (body : List Instruction) (t t' : Instruction) : Prop where
  block : f.block? b = some k
  block' : f'.block? b = some k'
  label : k'.label = k.label
  parts : ∃ merge?, k.Parts body merge? t
  ends : ∃ merge? merge?', Folding.EndsAs w.constants w.ids folded.constants merge? t merge?' t'
  stays : ∀ i, i ∈ body ∨ i = t' → i ∈ folded.function.instructions b
  last : t'.opcode.isTerminator = true
  phis : k'.phis = (leftPhis folded repaired mended b).map (Instruction.mapRefs
    (rename repaired.replacements))
  code : k'.code = (body.dropWhile (fun i => i.opcode.isPhi) ++ [t']).map
    (Instruction.mapRefs (rename repaired.replacements))

theorem Kept.phi_mem {k k' : Block} {body : List Instruction} {t t' : Instruction}
    (hkept : Kept f w f' folded repaired mended b k k' body t t') (hphi : phi ∈ k.phis) :
    phi ∈ f.instructions b ∧ phi ∈ folded.function.instructions b ∧ phi.opcode.isPhi = true := by
  obtain ⟨merge?, hp⟩ := hkept.parts
  obtain ⟨hmem, hisphi⟩ := Block.mem_of_mem_phis hphi
  rw [hp.phis_eq] at hphi
  exact ⟨instructions_of_block? hkept.block ▸ hmem,
    hkept.stays phi (.inl (List.takeWhile_subset _ hphi)), hisphi⟩

section
variable (hf : f.Ready w) (h : Phases f w f' w' folded repaired mended)
include hf h

theorem exists_kept (hb : folded.function.Reached b) :
    ∃ k k' body t t', Kept f w f' folded repaired mended b k k' body t t' := by
  have hw := h.wellFormed_folded
  have hlayout := hb.mem_layout hw.coherent
  have hlayout₀ : b ∈ f.layout := h.fold.frame.layout ▸ hlayout
  obtain ⟨k, hk, -⟩ := hf.wellFormed.coherent.exists_block hlayout₀
  obtain ⟨k₁, hk₁, hlabel₁, body, merge?, t, merge?', t', hp, hp₁, hends⟩ :=
    h.fold.block b hlayout₀ k hk
  obtain ⟨k', hk', hlabel', hp'⟩ := h.repair.parts hlayout hk₁ hp₁
  have hreach : repaired.function.Reached b := (h.repair.reached_iff hw.sound).mpr hb
  have hbody : Repaired.leftBody folded.function repaired mended b body =
      leftPhis folded repaired mended b ++ body.dropWhile (fun i => i.opcode.isPhi) :=
    Repaired.leftBody_of_reached hw.coherent hb
  have hphis : ∀ i ∈ leftPhis folded repaired mended b, i.opcode.isPhi = true := fun i hi =>
    Opcode.isPhi_iff.mpr (h.repair.opcode_of_mem_mended hb hk₁ (List.mem_filter.mp hi).1)
  refine ⟨k, k', body, t, t', hk, ?_, hlabel'.trans hlabel₁, ⟨_, hp⟩, ⟨_, _, hends⟩, ?_, hp₁.last,
    ?_, ?_⟩
  · rw [h.remove.block?_of_reached hreach, hk']
  · intro i hi
    rw [instructions_of_block? hk₁, hp₁.mem_instructions_iff]
    rcases hi with hi | hi
    · exact .inl hi
    · exact .inr (.inr hi)
  · rw [hp'.phis_eq, hbody, List.takeWhile_map]
    exact congrArg _ (phis_append_dropWhile hphis).1
  · rw [hp'.code_eq, hbody, List.dropWhile_map, List.map_append]
    exact congrArg (· ++ _) (congrArg _ (phis_append_dropWhile hphis).2)

/-! ## 2. Values on both sides -/

omit hf in
theorem mem_bodyIds_folded {i : Instruction} (hb : b ∈ f.layout)
    (hi : i ∈ folded.function.instructions b) (hx : i.result? = some x) : x ∈ f.bodyIds := by
  refine h.fold.bodyIds_sublist.subset (mem_bodyIds.mpr (.inr ⟨b, ?_, i, hi, hx⟩))
  rwa [h.fold.frame.layout]

end

/-- **What is known about the values on both sides while a block is run.**  The known constants have
their values, the ids of the body have one value on both sides unless they were replaced, and
wherever a replaced id is available, the id that took its place has its value. -/
structure Agree (f : Function) (w w' : Workspace) (folded : Folding) (repaired : PhiRepair)
    (b : BlockKey) (env env' : Environment α) : Prop where
  bool : ∀ x ∈ f.bodyUses, ∀ v, w.constants.bool? x = some v → env x = .bool v
  int : ∀ x ∈ f.bodyUses, ∀ n, w.constants.int? x = some n → env x = .word n
  bool' : ∀ x v, w'.constants.bool? x = some v → env' x = .bool v
  same : ∀ x ∈ f.bodyUses, x ∉ repaired.replacements.map Prod.fst → env' x = env x
  replaced : ∀ r ∈ repaired.replacements,
    folded.function.AvailableBy folded.function.targets r.1 b →
      r.2 ∈ f.bodyUses ∧ env r.2 = env r.1

section
variable (hf : f.Ready w) (h : Phases f w f' w' folded repaired mended)
include hf h

/-- **An operand and its renaming have the same value.** -/
theorem Agree.read (ha : Agree f w w' folded repaired b env env') (hx : x ∈ f.bodyUses)
    (havail : folded.function.InOrderBy folded.function.targets →
      folded.function.AvailableBy folded.function.targets x b) :
    env' (rename repaired.replacements x) = env x := by
  by_cases hnone : repaired.replacements = []
  · have hid : rename repaired.replacements x = x := by
      rw [hnone]
      exact rename_of_not_mem (by simp)
    rw [hid]
    exact ha.same x hx (by simp [hnone])
  · obtain ⟨r₀, hr₀⟩ := List.exists_mem_of_ne_nil _ hnone
    have hsound := @rename_sound _ repaired.replacements env
      (fun y => folded.function.AvailableBy folded.function.targets y b ∧ y ∈ f.bodyUses) ?_ x
      ⟨havail (h.inOrder hf hr₀), hx⟩
    · rw [← hsound.2]
      exact ha.same _ hsound.1.2 (h.rename_not_mem hf x)
    · intro r hr hr1
      obtain ⟨phi, c, a, hc⟩ := h.collapses hf hr
      obtain ⟨hused, hval⟩ := ha.replaced r hr hr1.1
      exact ⟨⟨hc.availableBy hr1.1, hused⟩, hval⟩

/-- A known constant is not defined in the body. -/
theorem known_not_defined {i : Instruction} (hb : b ∈ f.layout)
    (hi : i ∈ folded.function.instructions b) :
    (∀ x v, w.constants.bool? x = some v → i.result? ≠ some x) ∧
      (∀ x n, w.constants.int? x = some n → i.result? ≠ some x) ∧
      ∀ x v, w'.constants.bool? x = some v → i.result? ≠ some x := by
  have hapart := hf.apart _ _ _ (ConstantTable.Grows.refl (P := fun _ => False))
  have hapart' := hf.apart _ _ _ h.grows
  refine ⟨fun x v hx hr => ?_, fun x n hx hr => ?_, fun x v hx hr => ?_⟩
  · exact hapart.bool x v hx (mem_bodyIds_folded h hb hi hr)
  · exact (hapart.int x n hx).1 (mem_bodyIds_folded h hb hi hr)
  · exact hapart'.bool x v hx (mem_bodyIds_folded h hb hi hr)

/-- **An ordinary instruction keeps the agreement.** -/
theorem Agree.define (ha : Agree f w w' folded repaired b env env') {i : Instruction}
    (hb : folded.function.Reached b) (hi : i ∈ folded.function.instructions b)
    (hphi : i.opcode.isPhi = false) (v : Value α) :
    Agree f w w' folded repaired b (env.define i.result? v) (env'.define i.result? v) := by
  have hw := h.wellFormed_folded
  have hlayout := hb.mem_layout hw.coherent
  obtain ⟨hbool, hint, hbool'⟩ := known_not_defined hf h (h.fold.frame.layout ▸ hlayout) hi
  refine ⟨fun x hu b hx => ?_, fun x hu n hx => ?_, fun x b hx => ?_, fun x hx hnot => ?_,
    fun r hr havail => ?_⟩
  · rw [env.define_of_ne v (hbool x b hx), ha.bool x hu b hx]
  · rw [env.define_of_ne v (hint x n hx), ha.int x hu n hx]
  · rw [env'.define_of_ne v (hbool' x b hx), ha.bool' x b hx]
  · simp only [Environment.define, ha.same x hx hnot]
  · obtain ⟨phi, c, a, hc⟩ := h.collapses hf hr
    obtain ⟨hused, hval⟩ := ha.replaced r hr havail
    have hcdef := hc.definedIn?
    -- the replaced id is a phi, and its value is not defined where the phi is available
    have hne₁ : i.result? ≠ some r.1 := by
      intro hres
      obtain ⟨k, hk, hmem⟩ := hc.mem
      obtain ⟨hin, hisphi⟩ := Block.mem_of_mem_phis hmem
      rw [← instructions_of_block? hk] at hin
      obtain ⟨-, rfl⟩ := hw.unique.result hlayout (hc.reached.mem_layout hw.coherent) hi hin hres
        hc.result
      simp [hphi] at hisphi
    have hne₂ : i.result? ≠ some r.2 := by
      intro hres
      exact hc.not_dominated (hw.unique.definedIn?_eq_some_iff.mpr ⟨hlayout, i, hi, hres⟩)
        (havail c hcdef)
    rw [env.define_of_ne v hne₁, env.define_of_ne v hne₂]
    exact ⟨hused, hval⟩

/-! ## 3. Entering a block -/

variable {k k' : Block} {body : List Instruction} {t t' phi' : Instruction}

omit hf in
theorem mends_kept (hc : folded.function.Reached c)
    (hkept : Kept f w f' folded repaired mended c k k' body t t') :
    List.Forall₂ (Mends repaired.constants (folded.function.phiParents c)) k.phis (mended c) := by
  have hw := h.wellFormed_folded
  have hlayout := hc.mem_layout hw.coherent
  obtain ⟨k₁, hk₁, -⟩ := hw.coherent.exists_block hlayout
  obtain ⟨k₀, hk₀, hphis, -⟩ :=
    h.phis_folded hk₁ (h.fold.frame.layout ▸ hlayout)
  obtain rfl := Option.some.inj (hk₀.symm.trans hkept.block)
  rw [← hphis]
  exact h.repair.mends c hc k₁ hk₁

/-- A phi whose result was not replaced is left, mended. -/
theorem exists_left (hc : folded.function.Reached c)
    (hkept : Kept f w f' folded repaired mended c k k' body t t') (hphi : phi ∈ k.phis)
    (hx : phi.result? = some x) (hnot : x ∉ repaired.replacements.map Prod.fst) :
    ∃ phi' ∈ leftPhis folded repaired mended c,
      Mends repaired.constants (folded.function.phiParents c) phi phi' := by
  have hmends := mends_kept h hc hkept
  have hmem : x ∈ (mended c).filterMap Instruction.result? := by
    rw [Repaired.results_mended hmends]
    exact List.mem_filterMap.mpr ⟨phi, hphi, hx⟩
  obtain ⟨phi', hphi', hx'⟩ := List.mem_filterMap.mp hmem
  obtain ⟨phi₀, hphi₀, hm⟩ := exists_of_mem_right hmends hphi'
  have hlayout : c ∈ f.layout :=
    h.fold.frame.layout ▸ hc.mem_layout h.wellFormed_folded.coherent
  obtain rfl : phi₀ = phi := by
    exact (hf.wellFormed.unique.result hlayout hlayout (hkept.phi_mem hphi₀).1
      (hkept.phi_mem hphi).1 (hm.same.2.2.symm.trans hx') hx).2
  refine ⟨phi', List.mem_filter.mpr ⟨hphi', isLeft_iff_collapsed?.mpr ?_⟩, hm⟩
  cases hcol : collapsed? (folded.function.phiParents c) repaired.pruned phi' with
  | none => rfl
  | some r =>
    have hr : r ∈ repaired.replacements :=
      (h.repair.mem_replacements r).mpr ⟨c, hc, phi', hphi', hcol⟩
    have hrx : r.1 = x :=
      Option.some.inj ((collapsed?_eq_some_iff.mp hcol).1.symm.trans hx')
    exact absurd (List.mem_map.mpr ⟨r, hr, hrx⟩) hnot

omit hf h in
/-- A mended phi takes the value it took, if control comes from a parent. -/
theorem valueFrom?_mends {parents : PhiParents} {T : ConstantTable} {v : Id}
    (hm : Mends T parents phi phi') (hl : l ∈ parents.all)
    (hv : phi.valueFrom? (some l) = some v) : phi'.valueFrom? (some l) = some v := by
  obtain ⟨supplied, rfl, -, -⟩ := hm
  obtain ⟨p, hp, rfl⟩ := Option.map_eq_some_iff.mp hv
  have hfind : (phi.phiIncoming.filter (fun p => parents.all.contains p.2)).find?
      (fun p => p.2 = l) = some p := by
    rw [List.find?_filter, ← hp]
    refine List.find?_congr (fun q _ => ?_)
    by_cases hq : q.2 = l <;> simp [hq, hl]
  simp only [Instruction.valueFrom?, Option.bind_some, phiIncoming_mended, List.find?_append, hfind,
    Option.some_or, Option.map_some]

omit hf in
/-- A phi that is left takes the renamed value. -/
theorem valueFrom?_left {v : Id} (hc : folded.function.Reached c)
    (hphi' : phi' ∈ leftPhis folded repaired mended c)
    (hm : Mends repaired.constants (folded.function.phiParents c) phi phi')
    (hl : l ∈ (folded.function.phiParents c).all) (hv : phi.valueFrom? (some l) = some v) :
    (phi'.mapRefs (rename repaired.replacements)).valueFrom? (some l) =
      some (rename repaired.replacements v) := by
  have hw := h.wellFormed_folded
  obtain ⟨k₁, hk₁, -⟩ := hw.coherent.exists_block (hc.mem_layout hw.coherent)
  have hfix : ∀ p ∈ phi'.phiIncoming, rename repaired.replacements p.2 = p.2 := by
    intro p hp
    have hlabel := h.repair.blockOf?_of_mended hc hk₁
      (hw.sound c (hc.mem_layout hw.coherent) k₁ hk₁) (List.mem_filter.mp hphi').1 hp
    obtain ⟨a, ha⟩ := Option.isSome_iff_exists.mp hlabel
    exact h.repair.rename_label ha
  rw [Instruction.valueFrom?_mapRefs hfix, valueFrom?_mends hm hl hv]
  rfl

/-- A phi takes the same value on both sides. -/
theorem Agree.read_phi {v : Id} (ha : Agree f w w' folded repaired b env env')
    (hb : folded.function.Reached b) (hc : folded.function.Reached c)
    (hkept : Kept f w f' folded repaired mended c k k' body t t') (hphi : phi ∈ k.phis)
    (hl : folded.function.blockOf? l = some b) (hv : phi.valueFrom? (some l) = some v) :
    v ∈ f.bodyUses ∧ env' (rename repaired.replacements v) = env v := by
  have hw := h.wellFormed_folded
  have hlayout : c ∈ f.layout := h.fold.frame.layout ▸ hc.mem_layout hw.coherent
  obtain ⟨hmem, hin, hisphi⟩ := hkept.phi_mem hphi
  have hpair := Instruction.valueFrom?_eq_some hv
  have hused : v ∈ f.bodyUses :=
    mem_bodyUses.mpr ⟨c, hlayout, phi, hmem, (Instruction.mem_uses_of_mem_phiIncoming hpair).1⟩
  exact ⟨hused, ha.read hf h hused (fun horder => (horder c hc phi hin).phi hisphi _ hpair b hl hb)⟩

/-- The values after the phis of a block, on the side before and on the side after. -/
theorem entryValues_of_phi (env env' : Environment α) {v : Id}
    (hc : folded.function.Reached c)
    (hkept : Kept f w f' folded repaired mended c k k' body t t')
    (hl : l ∈ (folded.function.phiParents c).all) (hphi : phi ∈ k.phis)
    (hx : phi.result? = some x) (hv : phi.valueFrom? (some l) = some v) :
    k.entryValues (some l) env x = env v ∧ (x ∉ repaired.replacements.map Prod.fst →
      k'.entryValues (some l) env' x = env' (rename repaired.replacements v)) := by
  have hw := h.wellFormed_folded
  have hw' := h.wellFormed_result
  have hlayout : c ∈ f.layout := h.fold.frame.layout ▸ hc.mem_layout hw.coherent
  have hlayout' := (h.reached_iff.mpr hc).mem_layout hw'.coherent
  constructor
  · refine Block.entryValues_of_phi hphi hx (fun phi₂ hphi₂ hx₂ => ?_) hv
    exact (hf.wellFormed.unique.result hlayout hlayout (hkept.phi_mem hphi₂).1
      (hkept.phi_mem hphi).1 hx₂ hx).2
  · intro hnot
    obtain ⟨phi', hphi', hm⟩ := exists_left hf h hc hkept hphi hx hnot
    have hmem : phi'.mapRefs (rename repaired.replacements) ∈ k'.phis :=
      hkept.phis ▸ List.mem_map_of_mem hphi'
    have hx' : phi'.result? = some x := hm.same.2.2.trans hx
    refine Block.entryValues_of_phi hmem hx' (fun phi₂ hphi₂ hx₂ => ?_)
      (valueFrom?_left h hc hphi' hm hl hv)
    have hin : ∀ i ∈ k'.phis, i ∈ f'.instructions c := fun i hi =>
      instructions_of_block? hkept.block' ▸ (Block.mem_of_mem_phis hi).1
    exact (hw'.unique.result hlayout' hlayout' (hin _ hphi₂) (hin _ hmem) hx₂ hx').2

omit hf in
/-- What is no phi of the block keeps its value. -/
theorem entryValues_of_not_mem (env env' : Environment α) (hc : folded.function.Reached c)
    (hkept : Kept f w f' folded repaired mended c k k' body t t')
    (hx : ∀ phi ∈ k.phis, phi.result? ≠ some x) (from? : Option Id) :
    k.entryValues from? env x = env x ∧ k'.entryValues from? env' x = env' x := by
  refine ⟨Block.entryValues_of_not_mem hx, Block.entryValues_of_not_mem (fun phi₂ hphi₂ => ?_)⟩
  rw [hkept.phis] at hphi₂
  obtain ⟨phi', hphi', rfl⟩ := List.mem_map.mp hphi₂
  obtain ⟨phi, hphi, hm⟩ :=
    exists_of_mem_right (mends_kept h hc hkept) (List.mem_filter.mp hphi').1
  rw [Instruction.result?_mapRefs, hm.same.2.2]
  exact hx phi hphi

omit hf in
theorem definedIn?_of_phi (hc : folded.function.Reached c)
    (hkept : Kept f w f' folded repaired mended c k k' body t t') (hphi : phi ∈ k.phis)
    (hx : phi.result? = some x) : folded.function.definedIn? x = some c := by
  have hw := h.wellFormed_folded
  exact hw.unique.definedIn?_eq_some_iff.mpr
    ⟨hc.mem_layout hw.coherent, phi, (hkept.phi_mem hphi).2.1, hx⟩

/-- Past a jump, what took the place of a phi has its value. -/
theorem Agree.replaced_enter (ha : Agree f w w' folded repaired b env env')
    (hb : folded.function.Reached b) (hedge : c ∈ folded.function.resolve (folded.function.targets b))
    (hkept : Kept f w f' folded repaired mended c k k' body t t')
    (hl : folded.function.blockOf? l = some b)
    (hvalues : ∀ phi ∈ k.phis, ∃ v, phi.valueFrom? (some l) = some v)
    (hr : r ∈ repaired.replacements)
    (havail : folded.function.AvailableBy folded.function.targets r.1 c) :
    r.2 ∈ f.bodyUses ∧ k.entryValues (some l) env r.2 = k.entryValues (some l) env r.1 := by
  have hw := h.wellFormed_folded
  have hc : folded.function.Reached c := hb.step hedge
  obtain ⟨phi, d, a, hcol⟩ := h.collapses hf hr
  have hd := hcol.definedIn?
  have hdc := havail d hd
  -- the value of a phi that is available here is not defined here
  have hvalue : k.entryValues (some l) env r.2 = env r.2 :=
    Block.entryValues_of_not_mem (fun phi₂ hphi₂ hres₂ =>
      hcol.not_dominated (definedIn?_of_phi h hc hkept hphi₂ hres₂) hdc)
  rw [hvalue]
  by_cases hdc' : d = c
  · -- control enters the block of the phi, from its only parent
    subst hdc'
    obtain ⟨k₁, hk₁, hphi₁⟩ := hcol.mem
    obtain ⟨k₀, hk₀, hphis, -⟩ := h.phis_folded hk₁
      (h.fold.frame.layout ▸ hc.mem_layout hw.coherent)
    obtain rfl := Option.some.inj (hk₀.symm.trans hkept.block)
    have hphi : phi ∈ k₀.phis := hphis ▸ hphi₁
    have hall : l ∈ (folded.function.phiParents d).all :=
      (mem_phiParents_all hw.coherent).mpr ⟨b, hl, hedge⟩
    obtain ⟨v, hv⟩ := hvalues phi hphi
    have hval : v = r.2 := hcol.value _ (Instruction.valueFrom?_eq_some hv) hall
    rw [(entryValues_of_phi hf h env env' hc hkept hall hphi hcol.result hv).1, hval]
    exact ⟨hval ▸ (ha.read_phi hf h hb hc hkept hphi hl hv).1, rfl⟩
  · -- control was past the phi before
    have hphi : k.entryValues (some l) env r.1 = env r.1 :=
      Block.entryValues_of_not_mem (fun phi₂ hphi₂ hres₂ =>
        hdc' (Option.some.inj (hd.symm.trans (definedIn?_of_phi h hc hkept hphi₂ hres₂))))
    rw [hphi]
    refine ha.replaced r hr (fun d' hd' => ?_)
    obtain rfl := Option.some.inj (hd.symm.trans hd')
    exact hdc.of_edge hdc' hb hedge

/-- **A jump keeps the agreement.** -/
theorem Agree.enter (ha : Agree f w w' folded repaired b env env')
    (hb : folded.function.Reached b) (hedge : c ∈ folded.function.resolve (folded.function.targets b))
    (hkept : Kept f w f' folded repaired mended c k k' body t t')
    (hl : folded.function.blockOf? l = some b)
    (hvalues : ∀ phi ∈ k.phis, ∃ v, phi.valueFrom? (some l) = some v) :
    Agree f w w' folded repaired c (k.entryValues (some l) env) (k'.entryValues (some l) env') := by
  have hw := h.wellFormed_folded
  have hc : folded.function.Reached c := hb.step hedge
  have hall : l ∈ (folded.function.phiParents c).all :=
    (mem_phiParents_all hw.coherent).mpr ⟨b, hl, hedge⟩
  have hknown : ∀ phi ∈ k.phis, _ := fun phi hphi => known_not_defined hf h
    (h.fold.frame.layout ▸ hc.mem_layout hw.coherent) (hkept.phi_mem hphi).2.1
  refine ⟨fun x hu v hx => ?_, fun x hu n hx => ?_, fun x v hx => ?_, fun x hx hnot => ?_,
    fun r hr havail => ha.replaced_enter hf h hb hedge hkept hl hvalues hr havail⟩
  · rw [Block.entryValues_of_not_mem (fun phi hphi => (hknown phi hphi).1 x v hx), ha.bool x hu v hx]
  · rw [Block.entryValues_of_not_mem (fun phi hphi => (hknown phi hphi).2.1 x n hx), ha.int x hu n hx]
  · rw [(entryValues_of_not_mem h env env' hc hkept
      (fun phi hphi => (hknown phi hphi).2.2 x v hx) _).2, ha.bool' x v hx]
  · by_cases hphi : ∃ phi ∈ k.phis, phi.result? = some x
    · obtain ⟨phi, hphi, hres⟩ := hphi
      obtain ⟨v, hv⟩ := hvalues phi hphi
      obtain ⟨h₁, h₂⟩ := entryValues_of_phi hf h env env' hc hkept hall hphi hres hv
      rw [h₁, h₂ hnot]
      exact (ha.read_phi hf h hb hc hkept hphi hl hv).2
    · have hno : ∀ phi ∈ k.phis, phi.result? ≠ some x := fun phi hmem hres =>
        hphi ⟨phi, hmem, hres⟩
      obtain ⟨h₁, h₂⟩ := entryValues_of_not_mem h env env' hc hkept hno (some l)
      rw [h₁, h₂, ha.same x hx hnot]

end

/-! ## 4. The code ahead -/

/-- What is left to run of a block, before and after: the same instructions up to renaming, and
terminators as folding relates them. -/
inductive Ahead (f : Function) (w : Workspace) (folded : Folding) (repaired : PhiRepair)
    (b : BlockKey) : List Instruction → List Instruction → Prop
  | last {t t' : Instruction} {merge? merge?' : Option Instruction} (mem : t ∈ f.instructions b)
      (mem' : t' ∈ folded.function.instructions b) (isLast : t.opcode.isTerminator = true)
      (isLast' : t'.opcode.isTerminator = true)
      (ends : Folding.EndsAs w.constants w.ids folded.constants merge? t merge?' t') :
      Ahead f w folded repaired b [t] [t'.mapRefs (rename repaired.replacements)]
  | next {i : Instruction} {code code' : List Instruction} (mem : i ∈ f.instructions b)
      (mem' : i ∈ folded.function.instructions b) (notPhi : i.opcode.isPhi = false)
      (notLast : i.opcode.isTerminator = false) (rest : Ahead f w folded repaired b code code') :
      Ahead f w folded repaired b (i :: code) (i.mapRefs (rename repaired.replacements) :: code')

section
variable (hf : f.Ready w) (h : Phases f w f' w' folded repaired mended)
  {k k' : Block} {body : List Instruction} {t t' : Instruction}
include hf h

theorem ahead_code (hb : folded.function.Reached b)
    (hkept : Kept f w f' folded repaired mended b k k' body t t') :
    Ahead f w folded repaired b k.code k'.code := by
  have hw := h.wellFormed_folded
  have hlayout : b ∈ f.layout := h.fold.frame.layout ▸ hb.mem_layout hw.coherent
  obtain ⟨merge?, hp⟩ := hkept.parts
  obtain ⟨_, _, hends⟩ := hkept.ends
  have hin : ∀ i, i ∈ body ∨ i = t → i ∈ f.instructions b := by
    intro i hi
    rw [instructions_of_block? hkept.block, hp.mem_instructions_iff]
    rcases hi with hi | hi
    · exact .inl hi
    · exact .inr (.inr hi)
  have hphi : ∀ i ∈ body.dropWhile (fun i => i.opcode.isPhi), i.opcode.isPhi = false := by
    intro i hi
    refine (hf.sound.block b hlayout k hkept.block).phis.dropWhile (fun j hj hjphi => ?_) (i := i) ?_
    · exact (hf.phis b hlayout j (instructions_of_block? hkept.block ▸ hj) hjphi).result
    · have hafter : i ∈ k.afterPhis := by
        rw [hp.afterPhis_eq]
        exact List.mem_append_left _ (List.mem_append_left _ hi)
      exact hafter
  rw [hp.code_eq, hkept.code, List.map_append]
  have hsub : ∀ i ∈ body.dropWhile (fun i => i.opcode.isPhi), i ∈ body := fun i hi =>
    List.dropWhile_subset _ hi
  generalize body.dropWhile (fun i => i.opcode.isPhi) = rest at hphi hsub
  induction rest with
  | nil => exact .last (hin t (.inr rfl)) (hkept.stays t' (.inr rfl)) hp.last hkept.last hends
  | cons i rest ih =>
    have hi := hsub i (by simp)
    exact .next (hin i (.inl hi)) (hkept.stays i (.inl hi)) (hphi i (by simp)) (hp.body i hi).1
      (ih (fun j hj => hphi j (by simp [hj])) (fun j hj => hsub j (by simp [hj])))

/-- The operands of an instruction have the same values on both sides. -/
theorem Agree.read_use {i : Instruction} (ha : Agree f w w' folded repaired b env env')
    (hb : folded.function.Reached b) (hi : i ∈ f.instructions b)
    (hi' : i ∈ folded.function.instructions b) (hphi : i.opcode.isPhi = false) (hx : x ∈ i.uses) :
    env' (rename repaired.replacements x) = env x := by
  have hw := h.wellFormed_folded
  have hlayout : b ∈ f.layout := h.fold.frame.layout ▸ hb.mem_layout hw.coherent
  exact ha.read hf h (mem_bodyUses.mpr ⟨b, hlayout, i, hi, hx⟩)
    (fun horder => (horder b hb i hi').other hphi x hx)

theorem Agree.arguments {i : Instruction} (ha : Agree f w w' folded repaired b env env')
    (hb : folded.function.Reached b) (hi : i ∈ f.instructions b)
    (hi' : i ∈ folded.function.instructions b) (hphi : i.opcode.isPhi = false) :
    (i.mapRefs (rename repaired.replacements)).arguments env' = i.arguments env :=
  Instruction.arguments_mapRefs (fun _ hx =>
    ha.read_use hf h hb hi hi' hphi (List.mem_append_right _ hx))

omit hf in
/-- The renaming leaves the targets of a terminator alone. -/
theorem rename_targets (hb : folded.function.Reached b) (ht' : t' ∈ folded.function.instructions b)
    (hl : l ∈ t'.branchTargets) :
    rename repaired.replacements l = l ∧ ∃ c, folded.function.blockOf? l = some c := by
  have hw := h.wellFormed_folded
  have hlayout := hb.mem_layout hw.coherent
  obtain ⟨k, hk, -⟩ := hw.coherent.exists_block hlayout
  have href := (hw.sound b hlayout k hk).refs t' (instructions_of_block? hk ▸ ht') l
    (Instruction.mem_blockRefs.mpr (.inl hl))
  obtain ⟨c, hc⟩ := Option.isSome_iff_exists.mp href
  exact ⟨h.repair.rename_label hc, c, hc⟩

omit h in
/-- A branch that folding knows to take one way takes it. -/
theorem Agree.exit_of_taken {T : ConstantTable} {ids : IdSupply}
    (ha : Agree f w w' folded repaired b env env') (hb : b ∈ f.layout) (ht : t ∈ f.instructions b)
    (hgrows : w.constants.Grows (fun _ => False) w.ids T ids) (htaken : T.takenTarget? t = some l) :
    t.exit env = .goto l := by
  have hused : ∀ x, t.idOperand? 0 = some x → x ∈ f.bodyUses := fun x hx =>
    mem_bodyUses.mpr ⟨b, hb, t, ht, Instruction.mem_uses_of_idOperand? hx⟩
  have hsame : ∀ x, t.idOperand? 0 = some x →
      T.bool? x = w.constants.bool? x ∧ T.int? x = w.constants.int? x := fun x hx =>
    hgrows.known_of_lt.2 x (hf.below x (hused x hx))
  refine Instruction.exit_of_takenTarget? (fun x v hx hv => ?_) (fun x n hx hn => ?_) htaken
  · exact ha.bool x (hused x hx) v ((hsame x hx).1 ▸ hv)
  · exact ha.int x (hused x hx) n ((hsame x hx).2 ▸ hn)

/-- A known constant is not renamed. -/
theorem rename_known {v : Bool} (hx : w'.constants.bool? x = some v) :
    rename repaired.replacements x = x :=
  h.rename_of_not_mem_bodyIds ((hf.apart _ _ _ h.grows).bool x v hx)

/-- **Both terminators send control to the same place.**  One that stops is the same on both
sides. -/
theorem Agree.exit {merge? merge?' : Option Instruction}
    (ha : Agree f w w' folded repaired b env env') (hb : folded.function.Reached b)
    (ht : t ∈ f.instructions b) (ht' : t' ∈ folded.function.instructions b)
    (hlast : t.opcode.isTerminator = true)
    (hends : Folding.EndsAs w.constants w.ids folded.constants merge? t merge?' t') :
    (t'.mapRefs (rename repaired.replacements)).exit env' = t.exit env ∧
      (t.exit env = .stop → t' = t) := by
  have hw := h.wellFormed_folded
  have hlayout : b ∈ f.layout := h.fold.frame.layout ▸ hb.mem_layout hw.coherent
  have hfix : ∀ l ∈ t'.branchTargets, rename repaired.replacements l = l := fun l hl =>
    (rename_targets h hb ht' hl).1
  cases hends with
  | same =>
    refine ⟨Instruction.exit_mapRefs hfix (fun x hx => ?_), fun _ => rfl⟩
    exact ha.read_use hf h hb ht ht' (Opcode.isPhi_of_isTerminator hlast)
      (Instruction.mem_uses_of_idOperand? hx)
  | @fold T₁ ids₁ live merge hgrows htaken hdecl =>
    have hexit := ha.exit_of_taken hf hlayout ht hgrows htaken
    refine ⟨?_, fun hstop => by simp [hexit] at hstop⟩
    calc ((Instruction.branch live).mapRefs (rename repaired.replacements)).exit env'
      _ = (Instruction.branch live).exit env' := Instruction.exit_mapRefs hfix (fun x hx => by
          rw [hfix x (by simpa [Instruction.branchTargets, Instruction.branch] using hx)])
      _ = .goto live := Instruction.exit_branch live env'
      _ = t.exit env := hexit.symm
  | @narrow T₁ ids₁ live merge cond value hgrows htaken hdecl hcond =>
    have hexit := ha.exit_of_taken hf hlayout ht hgrows htaken
    refine ⟨?_, fun hstop => by simp [hexit] at hstop⟩
    have hknown : w'.constants.bool? cond = some value := by
      rcases hcond with ⟨hop, hval⟩ | ⟨rfl, htrue⟩
      · have hlt := hf.below cond
          (mem_bodyUses.mpr ⟨b, hlayout, t, ht, Instruction.mem_uses_of_idOperand? hop⟩)
        rw [(h.grows.known_of_lt.2 cond hlt).1, ← (hgrows.known_of_lt.2 cond hlt).1, hval]
      · refine (hf.apart _ _ _ h.grows).isTrue cond ?_
        rw [h.constants]
        exact h.repair.grows.true?_mono htrue
    generalize hl₁ : (if value then live else merge) = l₁ at hfix
    generalize hl₂ : (if value then merge else live) = l₂ at hfix
    calc
      ((Instruction.branchConditional cond l₁ l₂).mapRefs (rename repaired.replacements)).exit env'
      _ = (Instruction.branchConditional cond l₁ l₂).exit env' :=
          Instruction.exit_mapRefs hfix (fun x hx => by
            have hx : x = cond := by
              simpa [Instruction.branchConditional, Instruction.idOperand?, Operand.id?] using hx.symm
            rw [hx, rename_known hf h hknown])
      _ = .goto (if value then l₁ else l₂) :=
          Instruction.exit_branchConditional (ha.bool' cond value hknown) l₁ l₂
      _ = .goto live := by cases value <;> simp [← hl₁, ← hl₂]
      _ = t.exit env := hexit.symm

/-! ## 5. Running both sides -/

omit hf in
/-- The result has the labels of the function before. -/
theorem label?_result (hb : folded.function.Reached b) : f'.label? b = f.label? b := by
  have hlayout := (h.reached_iff.mpr hb).mem_layout h.wellFormed_result.coherent
  rw [h.remove.label? hlayout, h.repair.frame.label?, h.fold.frame.label?]

omit hf in
theorem blockOf?_result (hc : folded.function.Reached c) (hl : f.blockOf? l = some c) :
    f'.blockOf? l = some c := by
  have hw := h.wellFormed_folded
  have hw₂ := h.wellFormed_repaired
  refine h.remove.blockOf?_eq_some_iff.mpr ⟨?_, ?_⟩
  · rw [h.repair.frame.blockOf?, h.fold.frame.blockOf?, hl]
  · exact stays_of_reached hw₂.coherent ((h.repair.reached_iff hw.sound).mpr hc)

end

/-- **The states of both machines that belong together.** -/
inductive Related (f : Function) (w w' : Workspace) (folded : Folding) (repaired : PhiRepair) :
    Execution α σ → Execution α σ → Prop
  | running {b : BlockKey} {code code' : List Instruction} {env env' : Environment α} {memory : σ}
      (before : f.Reached b) (live : folded.function.Reached b)
      (agree : Agree f w w' folded repaired b env env')
      (ahead : Ahead f w folded repaired b code code') :
      Related f w w' folded repaired (.running b code env memory) (.running b code' env' memory)
  | stopped (opcode : Opcode) (arguments : List (Argument α)) (memory : σ) :
      Related f w w' folded repaired (.stopped opcode arguments memory)
        (.stopped opcode arguments memory)
  | stuck : Related f w w' folded repaired .stuck .stuck

/-- Values to start with, on both sides: the known constants have theirs, and the ids of the body
have the same. -/
structure Fits (f : Function) (w w' : Workspace) (env env' : Environment α) : Prop where
  bool : ∀ x ∈ f.bodyUses, ∀ v, w.constants.bool? x = some v → env x = .bool v
  int : ∀ x ∈ f.bodyUses, ∀ n, w.constants.int? x = some n → env x = .word n
  bool' : ∀ x v, w'.constants.bool? x = some v → env' x = .bool v
  same : ∀ x ∈ f.bodyUses, env' x = env x

section
variable (hf : f.Ready w) (h : Phases f w f' w' folded repaired mended)
  {memory : σ} {s s' : Execution α σ} {t t' : Instruction}
include hf h

omit h in
/-- Every phi of the block control gets to has a pair for the block it comes from. -/
theorem exists_value {k : Block} (hb : b ∈ f.layout) (hc : f.Reached c) (hk : f.block? c = some k)
    (hedge : c ∈ f.resolve (f.targets b)) (hl : f.label? b = some l) (hphi : phi ∈ k.phis) :
    ∃ v, phi.valueFrom? (some l) = some v := by
  have hlayout := hc.mem_layout hf.wellFormed.coherent
  obtain ⟨hmem, hisphi⟩ := Block.mem_of_mem_phis hphi
  have hres := (hf.phis c hlayout phi (instructions_of_block? hk ▸ hmem) hisphi).result
  exact Instruction.exists_valueFrom? ((hf.sound.phi c hc k hk phi hphi hres).2 b hb hedge l hl)

theorem Agree.jump (hb : f.Reached b) (hlive : folded.function.Reached b)
    (ha : Agree f w w' folded repaired b env env')
    (ht : t ∈ f.instructions b) (ht' : t' ∈ folded.function.instructions b)
    (hlast : t.opcode.isTerminator = true) (hlast' : t'.opcode.isTerminator = true)
    (hl : l ∈ t.branchTargets) (hl' : l ∈ t'.branchTargets) :
    Related f w w' folded repaired (f.jump b l env memory) (f'.jump b l env' memory) := by
  have hw := h.wellFormed_folded
  have hlayout := hb.mem_layout hf.wellFormed.coherent
  obtain ⟨-, c, hlc⟩ := rename_targets h hlive ht' hl'
  have hlc₀ : f.blockOf? l = some c := h.fold.frame.blockOf? l ▸ hlc
  have hedge : c ∈ folded.function.resolve (folded.function.targets b) := by
    rw [hw.sound.hasParts.targets (hlive.mem_layout hw.coherent) ht' hlast']
    exact mem_resolve.mpr ⟨l, hl', hlc⟩
  have hedge₀ : c ∈ f.resolve (f.targets b) := by
    rw [hf.wellFormed.sound.hasParts.targets hlayout ht hlast]
    exact mem_resolve.mpr ⟨l, hl, hlc₀⟩
  have hc₀ : f.Reached c := hb.step hedge₀
  have hc : folded.function.Reached c := hlive.step hedge
  obtain ⟨lb, hlabel, hnamed⟩ := hf.wellFormed.coherent.named b hlayout
  obtain ⟨k, k', body, e, e', hkept⟩ := exists_kept hf h hc
  have hvalues : ∀ phi ∈ k.phis, ∃ v, phi.valueFrom? (some lb) = some v := fun phi hphi =>
    exists_value hf hlayout hc₀ hkept.block hedge₀ hlabel hphi
  have hlb : folded.function.blockOf? lb = some b := by rw [h.fold.frame.blockOf?, hnamed]
  have hall : k.phis.all (fun phi => (phi.valueFrom? (some lb)).isSome) = true := by
    simp only [List.all_eq_true]
    intro phi hphi
    obtain ⟨v, hv⟩ := hvalues phi hphi
    simp [hv]
  have hall' : k'.phis.all (fun phi => (phi.valueFrom? (some lb)).isSome) = true := by
    simp only [List.all_eq_true, hkept.phis, List.mem_map]
    rintro _ ⟨phi', hphi', rfl⟩
    obtain ⟨phi, hphi, hm⟩ :=
      exists_of_mem_right (mends_kept h hc hkept) (List.mem_filter.mp hphi').1
    obtain ⟨v, hv⟩ := hvalues phi hphi
    simp [valueFrom?_left h hc hphi' hm ((mem_phiParents_all hw.coherent).mpr ⟨b, hlb, hedge⟩) hv]
  simp only [Function.jump, Function.enter, hlc₀, blockOf?_result h hc hlc₀,
    label?_result h hlive, hlabel, hkept.block, hkept.block', hall, hall', if_true]
  exact .running hc₀ hc (ha.enter hf h hlive hedge hkept hlb hvalues) (ahead_code hf h hc hkept)

/-- **One step on both sides.** -/
theorem Related.step (meaning : Interpretation α σ) (hs : Related f w w' folded repaired s s') :
    Related f w w' folded repaired (f.step meaning s) (f'.step meaning s') := by
  cases hs with
  | stopped opcode arguments memory => exact .stopped opcode arguments memory
  | stuck => exact .stuck
  | running hb hlive ha hahead =>
    cases hahead with
    | next hi hi' hphi hnot hrest =>
      simp only [Function.step, Instruction.opcode_mapRefs, Instruction.type?_mapRefs,
        Instruction.result?_mapRefs, hnot, Bool.false_eq_true, if_false,
        ha.arguments hf h hlive hi hi' hphi]
      exact .running hb hlive (ha.define hf h hlive hi' hphi _) hrest
    | @last t t' _ _ ht ht' hlast hlast' hends =>
      obtain ⟨hexit, hstop⟩ := ha.exit hf h hlive ht ht' hlast hends
      simp only [Function.step, Instruction.opcode_mapRefs, hlast, hlast', if_true, hexit]
      cases he : t.exit _ with
      | goto l =>
        have hl' : l ∈ (t'.mapRefs (rename repaired.replacements)).branchTargets :=
          Instruction.mem_branchTargets_of_exit (hexit.trans he)
        rw [Instruction.branchTargets_mapRefs] at hl'
        obtain ⟨l', hmem, hren⟩ := List.mem_map.mp hl'
        rw [(rename_targets h hlive ht' hmem).1] at hren
        exact ha.jump hf h hb hlive ht ht' hlast hlast' (Instruction.mem_branchTargets_of_exit he)
          (hren ▸ hmem)
      | stop =>
        obtain rfl := hstop he
        rw [ha.arguments hf h hlive ht ht' (Opcode.isPhi_of_isTerminator hlast)]
        exact .stopped _ _ _
      | stuck => exact .stuck

/-- Related states look the same. -/
theorem Related.observe (hs : Related f w w' folded repaired s s') :
    f'.observe s' = f.observe s := by
  cases hs with
  | stopped opcode arguments memory => rfl
  | stuck => rfl
  | running hb hlive ha hahead =>
    cases hahead with
    | next hi hi' hphi hnot hrest =>
      simp only [Function.observe, Instruction.opcode_mapRefs, Instruction.type?_mapRefs,
        Instruction.result?_mapRefs, hnot, Bool.false_eq_true, if_false,
        ha.arguments hf h hlive hi hi' hphi, label?_result h hlive]
    | @last t t' _ _ ht ht' hlast hlast' hends =>
      obtain ⟨hexit, hstop⟩ := ha.exit hf h hlive ht ht' hlast hends
      simp only [Function.observe, Instruction.opcode_mapRefs, hlast, hlast', if_true, hexit,
        label?_result h hlive]
      cases he : t.exit _ with
      | goto l => rfl
      | stop =>
        obtain rfl := hstop he
        rw [ha.arguments hf h hlive ht ht' (Opcode.isPhi_of_isTerminator hlast)]
      | stuck => rfl

/-- No phi of the entry was replaced. -/
theorem not_replaced_of_entry {e d : BlockKey} (he : f.entry? = some e)
    (hr : r ∈ repaired.replacements) (hd : folded.function.definedIn? r.1 = some d) : d ≠ e := by
  obtain ⟨phi, b, a, hc⟩ := h.collapses hf hr
  obtain rfl := Option.some.inj (hc.definedIn?.symm.trans hd)
  rintro rfl
  exact hc.notEntry (by rw [h.fold.frame.entry?, he])

/-- Where control starts, nothing that was replaced is available. -/
theorem not_available_of_entry {e : BlockKey} (he : f.entry? = some e)
    (hr : r ∈ repaired.replacements) :
    ¬ folded.function.AvailableBy folded.function.targets r.1 e := by
  intro havail
  obtain ⟨phi, b, a, hc⟩ := h.collapses hf hr
  have hb := hc.definedIn?
  obtain ⟨e', he', hdom⟩ := havail b hb
  obtain rfl : e' = e := Option.some.inj (he'.symm.trans (h.fold.frame.entry? ▸ he))
  have hbe : b = e' := by simpa using hdom.2 _ .start
  exact not_replaced_of_entry hf h he hr hb hbe

/-- The entry has phis before if it has phis afterwards, and the other way round. -/
theorem phis_entry_eq_nil_iff {e : BlockKey} {k k' : Block} {body : List Instruction}
    {t t' : Instruction} (he : f.entry? = some e) (hlive : folded.function.Reached e)
    (hkept : Kept f w f' folded repaired mended e k k' body t t') : k'.phis = [] ↔ k.phis = [] := by
  constructor
  · intro hnone
    by_contra hne
    obtain ⟨phi, hphi⟩ := List.exists_mem_of_ne_nil _ hne
    have hlayout : e ∈ f.layout := h.fold.frame.layout ▸
      hlive.mem_layout h.wellFormed_folded.coherent
    obtain ⟨hmem, -, hisphi⟩ := hkept.phi_mem hphi
    obtain ⟨x, hx⟩ := Option.isSome_iff_exists.mp (hf.phis e hlayout phi hmem hisphi).result
    have hnot : x ∉ repaired.replacements.map Prod.fst := by
      intro hold
      obtain ⟨r, hr, rfl⟩ := List.mem_map.mp hold
      exact not_replaced_of_entry hf h he hr (definedIn?_of_phi h hlive hkept hphi hx) rfl
    obtain ⟨phi', hphi', -⟩ := exists_left hf h hlive hkept hphi hx hnot
    rw [hkept.phis] at hnone
    exact List.ne_nil_of_mem (List.mem_map_of_mem hphi') hnone
  · intro hnone
    have hmends := mends_kept h hlive hkept
    rw [hnone, List.forall₂_nil_left_iff] at hmends
    rw [hkept.phis, leftPhis, hmends]
    rfl

theorem related_start (hfits : Fits f w w' env env') (memory : σ) :
    Related f w w' folded repaired (f.start env memory) (f'.start env' memory) := by
  have hentry : f'.entry? = f.entry? := by
    rw [h.remove.entry?, h.repair.frame.entry?, h.fold.frame.entry?]
  cases he : f.entry? with
  | none =>
    simp only [Function.start, hentry, he]
    exact .stuck
  | some e =>
    have hlive : folded.function.Reached e := .entry (by rw [h.fold.frame.entry?, he])
    obtain ⟨k, k', body, t, t', hkept⟩ := exists_kept hf h hlive
    simp only [Function.start, Function.enter, hentry, he, hkept.block, hkept.block',
      Instruction.all_valueFrom?_none, List.isEmpty_iff,
      phis_entry_eq_nil_iff hf h he hlive hkept]
    split
    · rename_i hnone
      have hsame : ∀ x, _ := fun x => entryValues_of_not_mem h env env' hlive hkept (x := x)
        (by simp [hnone]) none
      simp only [funext fun x => (hsame x).1, funext fun x => (hsame x).2]
      exact .running (.entry he) hlive ⟨hfits.bool, hfits.int, hfits.bool',
        fun x hx _ => hfits.same x hx,
        fun r hr havail => absurd havail (not_available_of_entry hf h he hr)⟩
        (ahead_code hf h hlive hkept)
    · exact .stuck

/-- **After any number of steps, both sides look the same.** -/
theorem observe_run (hfits : Fits f w w' env env') (meaning : Interpretation α σ) (memory : σ)
    (n : Nat) :
    f'.observe (f'.run meaning env' memory n) = f.observe (f.run meaning env memory n) := by
  have hrel : ∀ n, Related f w w' folded repaired (f.run meaning env memory n)
      (f'.run meaning env' memory n) := by
    intro n
    induction n with
    | zero => exact related_start hf h hfits memory
    | succ n ih => exact ih.step hf h meaning
  exact (hrel n).observe hf h

end
end ShaderIR.Function
