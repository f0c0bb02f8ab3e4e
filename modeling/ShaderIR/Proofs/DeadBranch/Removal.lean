import ShaderIR.Proofs.DeadBranch.Retention
import ShaderIR.Proofs.Runs

/-!
# Removing dead blocks

A removal takes the dead blocks that hold no site out of the function and strips the others down to
what their sites keep.  Nothing that can be reached is touched.

* `removeUnreachable_spec`: the function that is left (`Removed`);
* `Removed.reached_iff`: control gets where it got before;
* `Removed.mem_bodyIds`: no id that is still mentioned has lost its definition;
* `removeUnreachable_quiet`, `removeUnreachable_eq_self_iff`: removals that change nothing;
* `Removed.retainsDead`, `Removed.needsAll`: a second one is among them, whatever shape the blocks
  have.
-/

namespace ShaderIR.Function

variable {f g f' : Function} {b : BlockKey} {x l : Id} {i : Instruction}
  {killed killed' : SortedSet Id} {changed removed : Bool}

/-! ## 1. One block -/

/-- The ids that stop existing when a block is stripped down to its sites, or removed. -/
def lostIn (f : Function) (sites : List Site) (b : BlockKey) : List Id :=
  if isRetained sites b then (f.splitKept sites b false).filterMap Instruction.result?
  else ((f.block? b).map (fun k => k.label :: k.results)).getD []

/-- What is lost in a block is its label, if the block goes, and the results of the instructions
that go. -/
theorem mem_lostIn_iff {sites : List Site} {k : Block} (hk : f.block? b = some k) :
    x ∈ f.lostIn sites b ↔ (isRetained sites b = false ∧ f.label? b = some x) ∨
      ∃ n i, (f.instructions b)[n]? = some i ∧ i.result? = some x ∧
        f.isKept sites b n = false := by
  cases hret : isRetained sites b with
  | true =>
    simp only [lostIn, hret, if_true, List.mem_filterMap, mem_splitKept]
    constructor
    · rintro ⟨i, ⟨n, hi, hn⟩, hix⟩
      exact .inr ⟨n, i, hi, hix, hn⟩
    · rintro (⟨hno, -⟩ | ⟨n, i, hi, hix, hn⟩)
      · cases hno
      · exact ⟨i, ⟨n, hi, hn⟩, hix⟩
  | false =>
    have hnone : ∀ n, f.isKept sites b n = false := by
      intro n
      by_contra hkept
      rw [isRetained_of_isKept (Bool.of_not_eq_false hkept)] at hret
      cases hret
    simp only [lostIn, hret, hk, hnone, label?_of_block? hk, instructions_of_block? hk,
      Block.results, Bool.false_eq_true, if_false, Option.map_some, Option.getD_some,
      List.mem_cons, List.mem_filterMap, Option.some.injEq, and_true, true_and]
    constructor
    · rintro (rfl | ⟨i, hi, hix⟩)
      · exact .inl rfl
      · obtain ⟨n, hn⟩ := List.mem_iff_getElem?.mp hi
        exact .inr ⟨n, i, hn, hix⟩
    · rintro (rfl | ⟨n, i, hn, hix⟩)
      · exact .inl rfl
      · exact .inr ⟨i, List.mem_of_getElem? hn, hix⟩

/-- What sites keep of a block depends on that block only. -/
theorem splitKept_congr {sites : List Site} (h : g.block? b = f.block? b) (keep : Bool) :
    g.splitKept sites b keep = f.splitKept sites b keep := by
  have hkept : ∀ n, g.isKept sites b n = f.isKept sites b n := by
    intro n
    rw [Bool.eq_iff_iff, isKept_iff, isKept_iff]
    constructor <;>
    · rintro ⟨s, hs, rfl, hn⟩
      exact ⟨s, hs, rfl, by simpa [keptBy, h] using hn⟩
  simp only [splitKept, instructions, h, hkept]

/-- One block has been stripped or removed. -/
structure StripsBlock (f : Function) (sites : List Site) (killed : SortedSet Id) (b : BlockKey)
    (f' : Function) (killed' : SortedSet Id) : Prop where
  coherent : f'.Coherent
  heading : f'.id = f.id ∧ f'.definition = f.definition ∧ f'.params = f.params
  layout : f'.layout = f.layout.filter (fun c => c ≠ b || isRetained sites c)
  other : ∀ c, c ≠ b → f'.block? c = f.block? c
  kept : isRetained sites b = true →
    f'.block? b = (f.block? b).map (fun k => { k with instructions := f.splitKept sites b true })
  killed : ∀ x, killed'.contains x = true ↔ x ∈ f.lostIn sites b ∨ killed.contains x = true

section Strip

variable {sites : List Site} (hf : f.Coherent) (hb : b ∈ f.layout)
include hf hb

theorem strip_spec (h : strip sites (f, killed, changed) b = .ok (f', killed', removed)) :
    f.StripsBlock sites killed b f' killed' := by
  cases hr : isRetained sites b with
  | true =>
    simp only [strip, hr, if_true, Except.ok.injEq, Prod.mk.injEq] at h
    obtain ⟨rfl, rfl, -⟩ := h
    have hframe := sameFrame_setInstructions f b (f.splitKept sites b true)
    refine ⟨hframe.coherent hf, ⟨hframe.id, hframe.definition, hframe.params⟩, ?_, ?_, ?_, ?_⟩
    · rw [hframe.layout, eq_comm, List.filter_eq_self]
      intro c _
      by_cases hc : c = b
      · simp [hc, hr]
      · simp [hc]
    · intro c hc
      rw [block?_setInstructions, if_neg hc]
    · intro _
      rw [block?_setInstructions, if_pos rfl]
    · intro x
      simp [lostIn, hr, SortedSet.contains_addAll]
  | false =>
    obtain ⟨k, hk, -⟩ := hf.exists_block hb
    obtain ⟨g, hg, hcoherent, hlayout, hother, -, hheading⟩ := hf.removeBlock hb
    simp only [strip, hr, Bool.false_eq_true, if_false, block_eq_ok_iff.mpr hk, hg, bind, Except.bind,
      Except.ok.injEq, Prod.mk.injEq] at h
    obtain ⟨rfl, rfl, -⟩ := h
    refine ⟨hcoherent, hheading, ?_, hother, ?_, ?_⟩
    · rw [hlayout]
      refine List.filter_congr (fun c _ => ?_)
      by_cases hc : c = b
      · simp [hc, hr]
      · simp [hc]
    · intro h'
      rw [hr] at h'
      cases h'
    · intro x
      simp only [lostIn, hr, hk, SortedSet.contains_addAll, SortedSet.contains_add,
        Bool.or_eq_true, List.contains_iff_mem, decide_eq_true_eq, Bool.false_eq_true, if_false,
        Option.map_some, Option.getD_some, List.mem_cons]
      tauto

/-- A block of the layout can always be stripped. -/
theorem exists_strip (killed : SortedSet Id) (changed : Bool) :
    ∃ r, strip sites (f, killed, changed) b = .ok r := by
  cases hr : isRetained sites b with
  | true => exact ⟨_, if_pos hr⟩
  | false =>
    obtain ⟨k, hk, -⟩ := hf.exists_block hb
    obtain ⟨g, hg, -⟩ := hf.removeBlock hb
    exact ⟨_, (if_neg (by simp [hr])).trans
      (bind_eq_ok.mpr ⟨k, block_eq_ok_iff.mpr hk, bind_eq_ok.mpr ⟨_, hg, rfl⟩⟩)⟩

theorem mem_layout_of_strip {c : BlockKey}
    (h : strip sites (f, killed, changed) b = .ok (f', killed', removed)) (hc : c ∈ f.layout)
    (hne : c ≠ b) : c ∈ f'.layout := by
  rw [(strip_spec hf hb h).layout]
  exact List.mem_filter.mpr ⟨hc, by simp [hne]⟩

end Strip

/-! ## 2. One block after the other -/

/-- A block can only be taken out of the layout once, and it is. -/
theorem exists_strips {sites : List Site} {bs : List BlockKey} (hf : f.Coherent) (hbs : bs.Nodup)
    (hlayout : ∀ b ∈ bs, b ∈ f.layout) :
    ∃ r, bs.foldlM (strip sites) (f, killed, changed) = .ok r := by
  induction bs generalizing f killed changed with
  | nil => exact ⟨_, rfl⟩
  | cons b bs ih =>
    have hb : b ∈ f.layout := hlayout b (by simp)
    obtain ⟨⟨f₁, killed₁, changed₁⟩, hstrip⟩ := exists_strip hf hb killed changed
    obtain ⟨hnew, hbs⟩ := List.nodup_cons.mp hbs
    obtain ⟨r, hr⟩ := ih (strip_spec hf hb hstrip).coherent hbs (fun c hc =>
      mem_layout_of_strip hf hb hstrip (hlayout c (by simp [hc])) (fun he => hnew (he ▸ hc)))
    exact ⟨r, bind_eq_ok.mpr ⟨_, hstrip, hr⟩⟩

/-- The function and the killed ids after the removal has dealt with some blocks. -/
structure Stripped (f : Function) (sites : List Site) (killed : SortedSet Id)
    (done : List BlockKey) (g : Function) (killed' : SortedSet Id) : Prop where
  coherent : g.Coherent
  heading : g.id = f.id ∧ g.definition = f.definition ∧ g.params = f.params
  layout : g.layout = f.layout.filter (fun b => b ∉ done || isRetained sites b)
  todo : ∀ b, b ∉ done → g.block? b = f.block? b
  kept : ∀ b ∈ done, isRetained sites b = true →
    g.block? b = (f.block? b).map (fun k => { k with instructions := f.splitKept sites b true })
  killed : ∀ x, killed'.contains x = true ↔
    (∃ b ∈ done, x ∈ f.lostIn sites b) ∨ killed.contains x = true

theorem Stripped.step {sites : List Site} {done : List BlockKey} {killed₁ : SortedSet Id}
    (hs : Stripped f sites killed done g killed₁) (hb : b ∈ f.layout) (hnew : b ∉ done)
    (h : strip sites (g, killed₁, changed) b = .ok (f', killed', removed)) :
    Stripped f sites killed (done ++ [b]) f' killed' := by
  have hblock := hs.todo b hnew
  have hstep := strip_spec hs.coherent (by simp [hs.layout, hb, hnew]) h
  refine ⟨hstep.coherent, ?_, ?_, ?_, ?_, ?_⟩
  · obtain ⟨hid, hdef, hparams⟩ := hstep.heading
    exact ⟨hid.trans hs.heading.1, hdef.trans hs.heading.2.1, hparams.trans hs.heading.2.2⟩
  · rw [hstep.layout, hs.layout, List.filter_filter]
    refine List.filter_congr (fun c _ => ?_)
    by_cases hc : c = b
    · subst hc
      simp [hnew]
    · simp [hc]
  · intro c hc
    obtain ⟨hcd, hcb⟩ : c ∉ done ∧ c ≠ b := by simpa using hc
    rw [hstep.other c hcb, hs.todo c hcd]
  · intro c hc hr
    by_cases hcb : c = b
    · subst hcb
      rw [hstep.kept hr, hblock, splitKept_congr hblock]
    · rw [hstep.other c hcb]
      exact hs.kept c (by simpa [hcb] using hc) hr
  · intro x
    have hlost : g.lostIn sites b = f.lostIn sites b := by
      simp only [lostIn, splitKept_congr hblock, hblock]
    rw [hstep.killed, hs.killed, hlost]
    simp only [List.mem_append, List.mem_singleton, or_and_right, exists_or, exists_eq_left]
    rw [or_left_comm, or_assoc]

theorem deadBlocks_nodup (hf : f.Coherent) (live : KeySet BlockKey) : (f.deadBlocks live).Nodup :=
  hf.nodup.filter _

/-- A block stays if it can be reached or if something in it is needed. -/
def stays (f : Function) (b : BlockKey) : Bool := f.reachable.contains b || isRetained f.sites b

/-- What is left of a block that stays. -/
def remains (f : Function) (b : BlockKey) : List Instruction :=
  if f.reachable.contains b then f.instructions b else f.splitKept f.sites b true

/-- The function that a removal leaves of a coherent one. -/
structure Removed (f : Function) (killed : SortedSet Id) (f' : Function) (killed' : SortedSet Id) :
    Prop where
  source : f.Coherent
  coherent : f'.Coherent
  heading : f'.id = f.id ∧ f'.definition = f.definition ∧ f'.params = f.params
  layout : f'.layout = f.layout.filter f.stays
  block? : ∀ b ∈ f'.layout,
    f'.block? b = (f.block? b).map (fun k => { k with instructions := f.remains b })
  killed : ∀ x, killed'.contains x = true ↔
    (∃ b, f.Dead b ∧ x ∈ f.lostIn f.sites b) ∨ killed.contains x = true

/-- **What a removal does.** -/
theorem removeUnreachable_spec (hf : f.Coherent)
    (h : f.removeUnreachable killed = .ok (f', killed', removed)) :
    f.Removed killed f' killed' := by
  obtain ⟨live, hlive, hrun⟩ := bind_eq_ok.mp h
  obtain ⟨-, -, hlive⟩ := bind_eq_ok.mp hlive
  obtain rfl : f.reachable = live := Except.ok.inj hlive
  have hnodup := deadBlocks_nodup hf f.reachable
  have hstart : Stripped f f.sites killed [] f killed := by
    refine ⟨hf, ⟨rfl, rfl, rfl⟩, ?_, fun _ _ => rfl, ?_, ?_⟩
    · simp
    · intro b hb
      cases hb
    · simp
  have hend := foldlM_induct_done
    (P := fun done (st : Function × SortedSet Id × Bool) =>
      Stripped f f.sites killed done st.1 st.2.1) hrun hstart (by
    rintro before b after ⟨g, killed₁, changed⟩ ⟨g', killed₂, changed'⟩ hsplit hs hstep
    have hb : f.Dead b := (mem_deadBlocks hf).mp (by simp [hsplit])
    refine hs.step hb.1 ?_ hstep
    rw [hsplit] at hnodup
    have := List.nodup_append.mp hnodup
    intro hmem
    exact this.2.2 b hmem b (by simp) rfl)
  refine ⟨hf, hend.coherent, hend.heading, ?_, ?_, ?_⟩
  · rw [hend.layout]
    refine List.filter_congr (fun b hb => ?_)
    simp [stays, deadBlocks, hb]
  · intro b hb
    rw [hend.layout, List.mem_filter] at hb
    by_cases hr : f.reachable.contains b = true
    · rw [hend.todo b (by simp [deadBlocks, hr])]
      cases hk : f.block? b with
      | none => rfl
      | some k => simp [remains, hr, instructions, hk]
    · have hd : b ∈ f.deadBlocks f.reachable := by simp [deadBlocks, hb.1, hr]
      rw [hend.kept b hd (by simpa [hd] using hb.2)]
      simp [remains, hr]
  · intro x
    simp only [hend.killed, mem_deadBlocks hf]

theorem removeUnreachable_eq (killed : SortedSet Id)
    (hread : f.requireReadable f.reachable.keys = .ok ()) :
    f.removeUnreachable killed =
      (f.deadBlocks f.reachable).foldlM (strip f.sites) (f, killed, false) := by
  rw [removeUnreachable, readReachable, hread]
  rfl

/-- A removal only fails to read the targets of a reachable block. -/
theorem exists_removeUnreachable (hf : f.Coherent) (killed : SortedSet Id)
    (hread : f.requireReadable f.reachable.keys = .ok ()) :
    ∃ r, f.removeUnreachable killed = .ok r := by
  rw [removeUnreachable_eq killed hread]
  exact exists_strips hf (deadBlocks_nodup hf _) (fun b hb => (List.mem_filter.mp hb).1)

/-! ## 3. What is left -/

section Coherent

variable (hf : f.Coherent)
include hf

theorem stays_of_reached (hb : f.Reached b) : f.stays b = true := by
  simp [stays, (contains_reachable_iff hf).mpr hb]

theorem remains_of_reached (hb : f.Reached b) : f.remains b = f.instructions b := by
  simp [remains, (contains_reachable_iff hf).mpr hb]

theorem remains_of_not_reached (hb : ¬ f.Reached b) : f.remains b = f.splitKept f.sites b true := by
  rw [remains, if_neg (fun h => hb ((contains_reachable_iff hf).mp h))]

theorem isRetained_of_stays (hb : ¬ f.Reached b) (hs : f.stays b = true) :
    isRetained f.sites b = true := by
  rcases Bool.or_eq_true _ _ ▸ hs with h | h
  · exact absurd ((contains_reachable_iff hf).mp h) hb
  · exact h

end Coherent

theorem remains_sublist (f : Function) (b : BlockKey) :
    (f.remains b).Sublist (f.instructions b) := by
  unfold remains
  split
  · exact .refl _
  · exact splitKept_sublist f.sites b true

namespace Removed

theorem mem_layout (h : f.Removed killed f' killed') :
    b ∈ f'.layout ↔ b ∈ f.layout ∧ f.stays b = true := by
  rw [h.layout, List.mem_filter]

theorem label? (h : f.Removed killed f' killed') (hb : b ∈ f'.layout) :
    f'.label? b = f.label? b := by
  simp only [Function.label?, h.block? b hb, Option.map_map]
  rfl

theorem instructions (h : f.Removed killed f' killed') (hb : b ∈ f'.layout) :
    f'.instructions b = f.remains b := by
  obtain ⟨k, hk, -⟩ := h.source.exists_block (h.mem_layout.mp hb).1
  rw [instructions_of_block? ((h.block? b hb).trans (by rw [hk]; rfl))]

theorem blockOf?_eq_some_iff (h : f.Removed killed f' killed') :
    f'.blockOf? l = some b ↔ f.blockOf? l = some b ∧ f.stays b = true := by
  rw [h.coherent.blockOf?_eq_some_iff, h.source.blockOf?_eq_some_iff, h.mem_layout]
  constructor
  · rintro ⟨hb, hl⟩
    exact ⟨⟨hb.1, (h.label? (h.mem_layout.mpr hb)).symm.trans hl⟩, hb.2⟩
  · rintro ⟨⟨hb, hl⟩, hs⟩
    exact ⟨⟨hb, hs⟩, (h.label? (h.mem_layout.mpr ⟨hb, hs⟩)).trans hl⟩

/-- Nothing that can be reached is touched. -/
theorem block?_of_reached (h : f.Removed killed f' killed') (hb : f.Reached b) :
    f'.block? b = f.block? b := by
  have hlayout := h.mem_layout.mpr ⟨ReachedBy.mem_layout h.source hb, stays_of_reached h.source hb⟩
  rw [h.block? b hlayout, remains_of_reached h.source hb]
  cases hk : f.block? b with
  | none => rfl
  | some k => simp [instructions_of_block? hk]

theorem targets_of_reached (h : f.Removed killed f' killed') (hb : f.Reached b) :
    f'.targets b = f.targets b := by
  rw [targets, h.block?_of_reached hb, targets]

/-- A block that is left goes where it went. -/
theorem mem_targets (h : f.Removed killed f' killed') (hb : b ∈ f'.layout) (hl : l ∈ f.targets b) :
    l ∈ f'.targets b := by
  by_cases hr : f.Reached b
  · rwa [h.targets_of_reached hr]
  · obtain ⟨hlayout, hstays⟩ := h.mem_layout.mp hb
    obtain ⟨k, hk, -⟩ := h.source.exists_block hlayout
    rw [targets_of_block? hk, Block.targets] at hl
    cases ht : k.terminator? with
    | none => simp [ht] at hl
    | some t =>
      have hlast := getLast?_splitKept hk ht (isRetained_of_stays h.source hr hstays)
      have hk' : f'.block? b = some { k with instructions := f.splitKept f.sites b true } := by
        rw [h.block? b hb, hk, remains_of_not_reached h.source hr]
        rfl
      have ht' : (Block.mk k.label (f.splitKept f.sites b true)).terminator? = some t := by
        rw [Block.terminator?, hlast]
        exact Option.filter_eq_some_iff.mpr ⟨rfl, (Option.filter_eq_some_iff.mp ht).2⟩
      rwa [targets_of_block? hk', Block.targets, ht', ← ht]

theorem entry? (h : f.Removed killed f' killed') : f'.entry? = f.entry? := by
  unfold Function.entry?
  rw [h.layout]
  cases hlayout : f.layout with
  | nil => rfl
  | cons e rest =>
    have he : f.Reached e := .entry (by simp [Function.entry?, hlayout])
    rw [List.filter_cons_of_pos (stays_of_reached h.source he)]
    rfl

/-- **Control gets where it got before.** -/
theorem reached_iff (h : f.Removed killed f' killed') : f'.Reached b ↔ f.Reached b := by
  constructor
  · refine ReachedBy.induct (fun e he => .entry (h.entry? ▸ he)) (fun a c _ ha hc => ha.step ?_)
    obtain ⟨l, hl, hlc⟩ := mem_resolve.mp hc
    rw [h.targets_of_reached ha] at hl
    exact mem_resolve.mpr ⟨l, hl, (h.blockOf?_eq_some_iff.mp hlc).1⟩
  · intro hb
    refine ReachedBy.induct (fun e he => .entry (h.entry?.trans he))
      (fun a c ha ha' hc => ha'.step ?_) hb
    have hc' : f.Reached c := ReachedBy.step ha hc
    obtain ⟨l, hl, hlc⟩ := mem_resolve.mp hc
    rw [h.targets_of_reached ha]
    exact mem_resolve.mpr ⟨l, hl, h.blockOf?_eq_some_iff.mpr ⟨hlc, stays_of_reached h.source hc'⟩⟩

theorem dead_iff (h : f.Removed killed f' killed') :
    f'.Dead b ↔ f.Dead b ∧ isRetained f.sites b = true := by
  rw [Dead, Dead, h.reached_iff, h.mem_layout]
  constructor
  · rintro ⟨⟨hb, hs⟩, hr⟩
    exact ⟨⟨hb, hr⟩, isRetained_of_stays h.source hr hs⟩
  · rintro ⟨⟨hb, hr⟩, hret⟩
    exact ⟨⟨hb, by simp [stays, hret]⟩, hr⟩

/-- **A block that is left has the end it had**, and part of its body. -/
theorem parts (h : f.Removed killed f' killed') (hb : b ∈ f'.layout) {k : Block}
    {body : List Instruction} {merge? : Option Instruction} {t : Instruction}
    (hk : f.block? b = some k) (hp : k.Parts body merge? t) :
    ∃ body', body'.Sublist body ∧
      f'.block? b = some ⟨k.label, body' ++ merge?.toList ++ [t]⟩ ∧
      (Block.mk k.label (body' ++ merge?.toList ++ [t])).Parts body' merge? t := by
  have hsub : ∃ body', body'.Sublist body ∧ f.remains b = body' ++ merge?.toList ++ [t] := by
    by_cases hr : f.Reached b
    · exact ⟨body, .refl _, by rw [remains_of_reached h.source hr, instructions_of_block? hk, hp.eq]⟩
    · refine ⟨namedBody f.sites b body, namedBody_sublist _ _ _, ?_⟩
      rw [remains_of_not_reached h.source hr, List.append_assoc]
      exact splitKept_eq hk hp.split (isRetained_of_stays h.source hr (h.mem_layout.mp hb).2)
  obtain ⟨body', hbody, hrem⟩ := hsub
  refine ⟨body', hbody, ?_, rfl, fun i hi => hp.body i (hbody.subset hi), hp.merge, hp.last⟩
  rw [h.block? b hb, hk, hrem]
  rfl

theorem bodyIds_sublist (h : f.Removed killed f' killed') : f'.bodyIds.Sublist f.bodyIds := by
  refine Function.bodyIds_sublist (by rw [h.layout]; exact List.filter_sublist)
    (fun b hb => h.label? hb) (fun b hb => ?_)
  rw [h.instructions hb]
  exact (remains_sublist f b).filterMap _

end Removed

/-! ## 4. Nothing that is mentioned is lost -/

theorem mem_sites_of_remains (hf : f.Coherent) (hu : f.Unique) (hi : i ∈ f.remains b)
    (hx : x ∈ i.uses) {s : Site} (hs : f.StandsFor x s) : s ∈ f.sites := by
  by_cases hr : f.Reached b
  · rw [remains_of_reached hf hr] at hi
    exact mem_sites_of_live hf hu hr hi hx hs
  · rw [remains_of_not_reached hf hr] at hi
    obtain ⟨n, hn, hkept⟩ := mem_splitKept.mp hi
    exact mem_sites_of_kept hf hu hkept hn hx hs

/-- **A label that is still mentioned names its block.** -/
theorem Removed.blockOf?_of_mem_uses (hu : f.Unique) (h : f.Removed killed f' killed')
    (hi : i ∈ f.remains b) (hl : l ∈ i.uses) {c : BlockKey} (hc : f.blockOf? l = some c) :
    f'.blockOf? l = some c := by
  refine h.blockOf?_eq_some_iff.mpr ⟨hc, ?_⟩
  by_cases hr : f.Reached c
  · exact stays_of_reached h.source hr
  · obtain ⟨hcl, hlc⟩ := h.source.indexed l c hc
    have hsite := mem_sites_of_remains h.source hu hi hl (s := ⟨c, none⟩) ⟨⟨hcl, hr⟩, hlc⟩
    simp [stays, isRetained_iff.mpr ⟨_, hsite, rfl⟩]

/-- Blocks stay sound. -/
theorem Removed.soundBlocks (hu : f.Unique) (hs : f.SoundBlocks) (h : f.Removed killed f' killed') :
    f'.SoundBlocks := by
  intro b hb k' hk'
  obtain ⟨hbl, -⟩ := h.mem_layout.mp hb
  obtain ⟨k, hk, -⟩ := h.source.exists_block hbl
  have hks := hs b hbl k hk
  obtain ⟨body, merge?, t, hp, hfits⟩ := hks.parts
  obtain ⟨body', hsub, hblock, hp'⟩ := h.parts hb hk hp
  obtain rfl := Option.some.inj (hblock.symm.trans hk')
  refine ⟨⟨_, _, _, hp', hfits⟩, ?_, fun i hi l hl => ?_⟩
  · have hphis := hks.phis
    rw [hp.eq, List.append_assoc, phisLead_append_iff hp.end_not_phi] at hphis
    rw [hp'.eq, List.append_assoc, phisLead_append_iff hp'.end_not_phi]
    exact List.Pairwise.sublist hsub hphis
  · rw [← instructions_of_block? hblock, h.instructions hb] at hi
    have hmem := (remains_sublist f b).subset hi
    rw [instructions_of_block? hk] at hmem
    obtain ⟨c, hc⟩ := Option.isSome_iff_exists.mp (hks.refs i hmem l hl)
    simp [h.blockOf?_of_mem_uses hu hi (Instruction.mem_uses_of_mem_blockRefs hl) hc]

/-- An id of a body stands for something there, unless it is that of a live block. -/
theorem live_or_standsFor (hx : x ∈ f.bodyIds) :
    (∃ b, f.Reached b ∧ (f.label? b = some x ∨ ∃ i ∈ f.instructions b, i.result? = some x)) ∨
      ∃ s, f.StandsFor x s := by
  rcases mem_bodyIds.mp hx with ⟨b, hb, hl⟩ | ⟨b, hb, i, hi, hix⟩
  · by_cases hr : f.Reached b
    · exact .inl ⟨b, hr, .inl hl⟩
    · exact .inr ⟨⟨b, none⟩, ⟨hb, hr⟩, hl⟩
  · by_cases hr : f.Reached b
    · exact .inl ⟨b, hr, .inr ⟨i, hi, hix⟩⟩
    · obtain ⟨n, hn⟩ := List.mem_iff_getElem?.mp hi
      exact .inr ⟨⟨b, some n⟩, ⟨hb, hr⟩, i, hn, hix⟩

theorem Removed.mem_bodyIds_of_live (h : f.Removed killed f' killed') (hb : f.Reached b)
    (hx : f.label? b = some x ∨ ∃ i ∈ f.instructions b, i.result? = some x) : x ∈ f'.bodyIds := by
  have hb' := h.mem_layout.mpr ⟨ReachedBy.mem_layout h.source hb, stays_of_reached h.source hb⟩
  rcases hx with hl | hi
  · exact mem_bodyIds.mpr (.inl ⟨b, hb', (h.label? hb').trans hl⟩)
  · refine mem_bodyIds.mpr (.inr ⟨b, hb', ?_⟩)
    rwa [h.instructions hb', remains_of_reached h.source hb]

/-- What stands for a site that stays is left, in the same block. -/
theorem Removed.standsFor (h : f.Removed killed f' killed') {s : Site} (hmem : s ∈ f.sites)
    (hs : f.StandsFor x s) : ∃ s', s'.block = s.block ∧ f'.StandsFor x s' := by
  obtain ⟨b, n?⟩ := s
  obtain ⟨hdead, hn⟩ := hs
  have hdead' : f'.Dead b := h.dead_iff.mpr ⟨hdead, isRetained_iff.mpr ⟨_, hmem, rfl⟩⟩
  cases n? with
  | none => exact ⟨⟨b, none⟩, rfl, hdead', (h.label? hdead'.1).trans hn⟩
  | some n =>
    obtain ⟨i, hi, hix⟩ := hn
    have hkept : i ∈ f'.instructions b := by
      rw [h.instructions hdead'.1, remains_of_not_reached h.source hdead.2]
      exact mem_splitKept.mpr ⟨n, hi, isKept_iff.mpr ⟨_, hmem, rfl, by simp [keptBy]⟩⟩
    obtain ⟨m, hm⟩ := List.mem_iff_getElem?.mp hkept
    exact ⟨⟨b, some m⟩, rfl, hdead', i, hm, hix⟩

theorem StandsFor.mem_bodyIds {s : Site} (h : f.StandsFor x s) : x ∈ f.bodyIds := by
  obtain ⟨b, n?⟩ := s
  obtain ⟨hdead, hn⟩ := h
  cases n? with
  | none => exact Function.mem_bodyIds.mpr (.inl ⟨b, hdead.1, hn⟩)
  | some n =>
    obtain ⟨i, hi, hix⟩ := hn
    exact Function.mem_bodyIds.mpr (.inr ⟨b, hdead.1, i, List.mem_of_getElem? hi, hix⟩)

/-- **No id that is still mentioned has lost its definition.** -/
theorem Removed.mem_bodyIds (hu : f.Unique) (h : f.Removed killed f' killed')
    (hused : x ∈ f'.bodyUses) (hx : x ∈ f.bodyIds) : x ∈ f'.bodyIds := by
  obtain ⟨b, hb, i, hi, hxi⟩ := mem_bodyUses.mp hused
  rw [h.instructions hb] at hi
  rcases live_or_standsFor hx with ⟨c, hc, hxc⟩ | ⟨s, hs⟩
  · exact h.mem_bodyIds_of_live hc hxc
  · obtain ⟨s', -, hs'⟩ := h.standsFor (mem_sites_of_remains h.source hu hi hxi hs) hs
    exact hs'.mem_bodyIds

/-- An id that is no longer defined has been killed. -/
theorem Removed.killed_of_gone (h : f.Removed killed f' killed') (hx : x ∈ f.bodyIds)
    (hgone : x ∉ f'.bodyIds) : killed'.contains x = true := by
  rcases live_or_standsFor hx with ⟨c, hc, hxc⟩ | ⟨⟨b, n?⟩, hdead, hn⟩
  · exact absurd (h.mem_bodyIds_of_live hc hxc) hgone
  · obtain ⟨k, hk, -⟩ := h.source.exists_block hdead.1
    refine (h.killed x).mpr (.inl ⟨b, hdead, (mem_lostIn_iff hk).mpr ?_⟩)
    cases n? with
    | none =>
      refine .inl ⟨?_, hn⟩
      by_contra hret
      have hb' := (h.dead_iff.mpr ⟨hdead, Bool.of_not_eq_false hret⟩).1
      exact hgone (Function.mem_bodyIds.mpr (.inl ⟨b, hb', (h.label? hb').trans hn⟩))
    | some n =>
      obtain ⟨i, hi, hix⟩ := hn
      refine .inr ⟨n, i, hi, hix, ?_⟩
      by_contra hnot
      have hkept : f.isKept f.sites b n = true := Bool.of_not_eq_false hnot
      have hb' := (h.dead_iff.mpr ⟨hdead, isRetained_of_isKept hkept⟩).1
      have hmem : i ∈ f'.instructions b := by
        rw [h.instructions hb', remains_of_not_reached h.source hdead.2]
        exact mem_splitKept.mpr ⟨n, hi, hkept⟩
      exact hgone (Function.mem_bodyIds.mpr (.inr ⟨b, hb', i, hmem, hix⟩))

/-! ## 5. Removing once more -/

/-- **A dead block that is left has the end it had**, finished or not, and before it what the sites
name. -/
theorem Removed.exists_split (h : f.Removed killed f' killed') (hb : f'.Dead b) :
    ∃ k front fin, f.block? b = some k ∧ k.Split front fin ∧
      f'.block? b = some ⟨k.label, namedBody f.sites b front ++ fin⟩ := by
  obtain ⟨hdead, hret⟩ := h.dead_iff.mp hb
  obtain ⟨k, hk, -⟩ := h.source.exists_block hdead.1
  obtain ⟨front, fin, hsplit⟩ := k.exists_split
  refine ⟨k, front, fin, hk, hsplit, ?_⟩
  rw [h.block? b hb.1, hk, remains_of_not_reached h.source hdead.2, splitKept_eq hk hsplit hret]
  rfl

/-- A position in what is left of a dead block belongs to its end, or to a site that stays. -/
theorem Removed.end_or_site (h : f.Removed killed f' killed') (hb : f'.Dead b) {m : Nat}
    (hi : (f'.instructions b)[m]? = some i) :
    (∃ k, f'.block? b = some k ∧ m ∈ k.endPositions) ∨
      ∃ n, (⟨b, some n⟩ : Site) ∈ f.sites ∧ (f.instructions b)[n]? = some i := by
  obtain ⟨k, front, fin, hk, hsplit, hk'⟩ := h.exists_split hb
  rw [instructions_of_block? hk'] at hi
  by_cases hm : m < (namedBody f.sites b front).length
  · right
    rw [List.getElem?_append_left hm] at hi
    obtain ⟨⟨j, n⟩, hj, rfl⟩ := List.mem_map.mp (List.mem_of_getElem? hi)
    obtain ⟨hjn, hany⟩ := List.mem_filter.mp hj
    rw [List.mem_zipIdx_iff_getElem?] at hjn
    obtain ⟨⟨c, n?⟩, hs, rfl, rfl⟩ : ∃ s ∈ f.sites, s.block = b ∧ s.position? = some n := by
      simpa using hany
    refine ⟨n, hs, ?_⟩
    rw [instructions_of_block? hk, hsplit.eq,
      List.getElem?_append_left (List.getElem?_eq_some_iff.mp hjn).1]
    exact hjn
  · left
    exact ⟨_, hk', hsplit.isEnd.mem_endPositions (by omega) (List.getElem?_eq_some_iff.mp hi).1⟩

/-- What was needed is needed still. -/
theorem Removed.mem_sites (hu : f.Unique) (hu' : f'.Unique) (h : f.Removed killed f' killed')
    (hx : x ∈ f.needed f.reachable) {s : Site} (hs : f'.StandsFor x s) : s ∈ f'.sites := by
  suffices hboth : (∀ s, f.StandsFor x s → s ∈ f.sites) ∧
      ∀ s, f'.StandsFor x s → s ∈ f'.sites from hboth.2 s hs
  refine needed_induct h.source hu (P := fun x => (∀ s, f.StandsFor x s → s ∈ f.sites) ∧
    ∀ s, f'.StandsFor x s → s ∈ f'.sites) ?_ ?_ hx
  · intro b hb i hi x hx
    refine ⟨fun s hs => mem_sites_of_live h.source hu hb hi hx hs, fun s hs => ?_⟩
    have hi' : i ∈ f'.instructions b := by
      rwa [Function.instructions, h.block?_of_reached hb]
    exact mem_sites_of_live h.coherent hu' (h.reached_iff.mpr hb) hi' hx hs
  · rintro x s ⟨hold, hnew⟩ hs y hy
    have hmem := hold s hs
    obtain ⟨n, hn, i, hi, hyi⟩ := mem_usesOf.mp hy
    have hkept : f.isKept f.sites s.block n = true := isKept_iff.mpr ⟨s, hmem, rfl, hn⟩
    refine ⟨fun r hr => mem_sites_of_kept h.source hu hkept hi hyi hr, fun r hr => ?_⟩
    -- the instruction that mentions `y` is left, and a site of `x` keeps it again
    obtain ⟨s', hblock, hs'⟩ := h.standsFor hmem hs
    have hdead' : f'.Dead s.block := hblock ▸ hs'.1
    obtain ⟨k, front, fin, hk, hsplit, hk'⟩ := h.exists_split hdead'
    rcases (mem_keptBy hk hsplit).mp hn with hown | ⟨hle, hlt⟩
    · have hix : i.result? = some x := by
        obtain ⟨-, hpos⟩ := hs
        rw [hown] at hpos
        obtain ⟨j, hj, hjx⟩ := hpos
        rw [hi] at hj
        exact Option.some.inj hj ▸ hjx
      have hleft : i ∈ f'.instructions s.block := by
        rw [h.instructions hdead'.1, remains_of_not_reached h.source hs.1.2]
        exact mem_splitKept.mpr ⟨n, hi, hkept⟩
      obtain ⟨m, hm⟩ := List.mem_iff_getElem?.mp hleft
      have hsite := hnew ⟨s.block, some m⟩ ⟨hdead', i, hm, hix⟩
      exact mem_sites_of_kept h.coherent hu'
        (isKept_iff.mpr ⟨_, hsite, rfl, by simp [keptBy]⟩) hm hyi hr
    · have hm : (f'.instructions s.block)[(namedBody f.sites s.block front).length +
          (n - front.length)]? = some i := by
        rw [instructions_of_block? hk, hsplit.eq, List.getElem?_append_right hle] at hi
        rw [instructions_of_block? hk', List.getElem?_append_right (by omega),
          Nat.add_sub_cancel_left]
        exact hi
      refine mem_sites_of_kept h.coherent hu' (isKept_iff.mpr ⟨s', hnew s' hs', hblock, ?_⟩) hm hyi hr
      rw [instructions_of_block? hk'] at hm
      rw [keptBy, hblock, hk']
      exact List.mem_append_right _ (hsplit.isEnd.mem_endPositions (Nat.le_add_right _ _)
        (List.getElem?_eq_some_iff.mp hm).1)

/-- Every unreachable block is kept. -/
def RetainsDead (f : Function) : Prop := ∀ b, f.Dead b → isRetained f.sites b = true

/-- Everything in the unreachable blocks is needed. -/
def NeedsAll (f : Function) : Prop :=
  ∀ b, f.Dead b → ∀ n i, (f.instructions b)[n]? = some i → f.isKept f.sites b n = true

/-- A finished block has an instruction that keeps it. -/
theorem NeedsAll.retainsDead (hf : f.Coherent) (hparts : f.HasParts) (h : f.NeedsAll) :
    f.RetainsDead := by
  intro b hb
  obtain ⟨k, hk, -⟩ := hf.exists_block hb.1
  obtain ⟨body, merge?, t, hp⟩ := hparts b hb.1 k hk
  have hlast : (f.instructions b)[(body ++ merge?.toList).length]? = some t := by
    rw [instructions_of_block? hk, hp.eq]
    simp
  exact isRetained_of_isKept (h b hb _ t hlast)

/-- A block is kept again if it was kept, by what stood for it. -/
theorem Removed.exists_site (hn : f.bodyIds.Nodup) (h : f.Removed killed f' killed')
    (hb : f'.Dead b) : ∃ s ∈ f'.sites, s.block = b := by
  have hu := unique_of_nodup hn
  have hu' := unique_of_nodup (hn.sublist h.bodyIds_sublist)
  obtain ⟨s, hs, rfl⟩ := isRetained_iff.mp (h.dead_iff.mp hb).2
  obtain ⟨x, hx, hxs⟩ := (Function.mem_sites h.source hu).mp hs
  obtain ⟨s', hblock, hs'⟩ := h.standsFor hs hxs
  exact ⟨s', h.mem_sites hu hu' hx hs', hblock⟩

/-- **Every block that is left is kept again.** -/
theorem Removed.retainsDead (hn : f.bodyIds.Nodup) (h : f.Removed killed f' killed') :
    f'.RetainsDead :=
  fun _ hb => isRetained_iff.mpr (h.exists_site hn hb)

/-- **Everything that is left is needed.** -/
theorem Removed.needsAll (hn : f.bodyIds.Nodup) (h : f.Removed killed f' killed') :
    f'.NeedsAll := by
  have hu := unique_of_nodup hn
  have hu' := unique_of_nodup (hn.sublist h.bodyIds_sublist)
  intro b hb m i hi
  rcases h.end_or_site hb hi with ⟨k, hk, hm⟩ | ⟨n, hsite, hin⟩
  · obtain ⟨s, hs, rfl⟩ := h.exists_site hn hb
    exact isKept_iff.mpr ⟨s, hs, rfl, by simp [keptBy, hk, hm]⟩
  · obtain ⟨x, hx, -, j, hj, hjx⟩ := (Function.mem_sites h.source hu).mp hsite
    obtain rfl : i = j := Option.some.inj (hin.symm.trans hj)
    have hs' : f'.StandsFor x ⟨b, some m⟩ := ⟨hb, i, hi, hjx⟩
    exact isKept_iff.mpr ⟨_, h.mem_sites hu hu' hx hs', rfl, by simp [keptBy]⟩

/-- Sites that keep every position of a block leave it as it is. -/
theorem strip_of_isKept {sites : List Site} (hret : isRetained sites b = true)
    (hkept : ∀ n i, (f.instructions b)[n]? = some i → f.isKept sites b n = true) :
    strip sites (f, killed, changed) b = .ok (f, killed, changed) := by
  have hsub : ∀ e ∈ (f.instructions b).zipIdx, f.isKept sites b e.2 = true := fun e he =>
    hkept e.2 e.1 (List.mem_zipIdx_iff_getElem?.mp he)
  have htrue : f.splitKept sites b true = f.instructions b := by
    rw [splitKept, List.filter_eq_self.mpr (fun e he => by simp [hsub e he]), List.zipIdx_map_fst]
  have hfalse : f.splitKept sites b false = [] := by
    rw [splitKept, List.filter_eq_nil_iff.mpr (fun e he => by simp [hsub e he]), List.map_nil]
  simp [strip, hret, htrue, hfalse, SortedSet.addAll]

/-- Only such sites do: whatever else goes is marked as a change. -/
theorem isKept_of_strip {sites : List Site} {state state' : Function × SortedSet Id × Bool}
    (h : strip sites state b = .ok state') (hquiet : state'.2.2 = false) :
    isRetained sites b = true ∧
      ∀ n i, (state.1.instructions b)[n]? = some i → state.1.isKept sites b n = true := by
  obtain ⟨f, killed, changed⟩ := state
  unfold strip at h
  dsimp only at h
  split at h
  · rename_i hret
    cases h
    obtain ⟨-, hdropped⟩ : changed = false ∧ f.splitKept sites b false = [] := by
      simpa using hquiet
    refine ⟨hret, fun n i hi => ?_⟩
    by_contra hnot
    have hgone : i ∈ f.splitKept sites b false := mem_splitKept.mpr ⟨n, hi, by simpa using hnot⟩
    rw [hdropped] at hgone
    cases hgone
  · obtain ⟨k, -, h⟩ := bind_eq_ok.mp h
    obtain ⟨g, -, h⟩ := bind_eq_ok.mp h
    cases h
    cases hquiet

/-- A block that loses nothing is left as it is. -/
theorem strip_quiet {sites : List Site} {state state' : Function × SortedSet Id × Bool}
    (h : strip sites state b = .ok state') (hquiet : state'.2.2 = false) : state' = state := by
  obtain ⟨hret, hkept⟩ := isKept_of_strip h hquiet
  exact Except.ok.inj (h.symm.trans (strip_of_isKept hret hkept))

/-- **A removal that is not marked as a change is none.** -/
theorem removeUnreachable_quiet (h : f.removeUnreachable killed = .ok (f', killed', false)) :
    f' = f ∧ killed' = killed := by
  obtain ⟨live, -, hrun⟩ := bind_eq_ok.mp h
  have hsame : (f', killed', false) = (f, killed, false) :=
    (foldlM_quiet (Q := fun state => state.2.2 = false) hrun rfl
      (fun s b s' hstep hq => strip_quiet hstep hq ▸ hq)
      (fun b _ s' hstep hq => strip_quiet hstep hq)).1
  obtain ⟨rfl, hrest⟩ := Prod.mk.inj hsame
  exact ⟨rfl, (Prod.mk.inj hrest).1⟩

/-- **A removal has nothing to do exactly if everything is needed.** -/
theorem removeUnreachable_eq_self_iff (hf : f.Coherent) (killed : SortedSet Id)
    (hread : f.requireReadable f.reachable.keys = .ok ()) :
    f.removeUnreachable killed = .ok (f, killed, false) ↔ f.RetainsDead ∧ f.NeedsAll := by
  rw [removeUnreachable_eq killed hread]
  constructor
  · intro h
    have hstrip := (foldlM_quiet (Q := fun state => state.2.2 = false) h rfl
      (fun s b s' hstep hq => strip_quiet hstep hq ▸ hq)
      (fun b _ s' hstep hq => strip_quiet hstep hq)).2
    exact ⟨fun b hb => (isKept_of_strip (hstrip b ((mem_deadBlocks hf).mpr hb)) rfl).1,
      fun b hb => (isKept_of_strip (hstrip b ((mem_deadBlocks hf).mpr hb)) rfl).2⟩
  · rintro ⟨hret, hall⟩
    refine foldlM_fixed (fun b hb => ?_)
    have hdead := (mem_deadBlocks hf).mp hb
    exact strip_of_isKept (hret b hdead) (hall b hdead)

theorem removeUnreachable_eq_iff (hf : f.Coherent) (hparts : f.HasParts)
    (hread : f.requireReadable f.reachable.keys = .ok ()) :
    f.removeUnreachable killed = .ok (f, killed, false) ↔ f.NeedsAll := by
  rw [removeUnreachable_eq_self_iff hf killed hread]
  exact and_iff_right_of_imp (NeedsAll.retainsDead hf hparts)

end ShaderIR.Function
