import ShaderIR.Proofs.DeadBranch.Phases
import ShaderIR.Proofs.Validity.Regular

/-!
# Phis that collapse

A phi that has lost pairs and is left with one gives way to the value of that pair.  Losing a pair
takes an edge away, so folding has changed the function and has made sure that every definition
dominates its uses.  Control now gets to the block of the phi from one block only, where the value
is available.  So the value is defined strictly nearer to the entry than the phi, and wherever the
phi is available the value is too.

* `Collapses`: what is known about a phi that gives way to a value;
* `Phases.collapses`: every replacement comes from such a phi;
* `Collapses.availableBy`, `Collapses.not_dominated`: where its value is available, and where it is
  not defined;
* `Phases.rename_not_mem`: no replaced id is left anywhere.
-/

namespace ShaderIR.Function

open PhiRepair

variable {f f' g : Function} {w w' : Workspace} {folded : Folding} {repaired : PhiRepair}
  {mended : BlockKey → List Instruction} {a b c d : BlockKey} {r : Id × Id} {x : Id}
  {phi : Instruction}

/-! ## 1. One way in -/

/-- The first id of the pair is a phi of block `b`, which control enters from block `a` only, and the
second one is the value it takes then. -/
structure Collapses (g : Function) (phi : Instruction) (r : Id × Id) (b a : BlockKey) : Prop where
  source : g.Coherent
  unique : g.Unique
  mem : ∃ k, g.block? b = some k ∧ phi ∈ k.phis
  result : phi.result? = some r.1
  reached : g.Reached b
  parent : g.Reached a
  edge : b ∈ g.resolve (g.targets a)
  only : ∀ c, g.Reached c → b ∈ g.resolve (g.targets c) → c = a
  notEntry : g.entry? ≠ some b
  value : ∀ p ∈ phi.phiIncoming, p.2 ∈ (g.phiParents b).all → p.1 = r.2
  available : g.AvailableBy g.targets r.2 a

/-- How far from a block an id is defined.  An id that is defined nowhere comes first. -/
noncomputable def definitionDepth (g : Function) (e : BlockKey) (x : Id) : Nat :=
  ((g.definedIn? x).map (fun d =>
    Graph.depth (fun x y => y ∈ g.successorsBy g.targets x) e d + 1)).getD 0

namespace Collapses

/-- The phi is defined where it stands. -/
theorem definedIn? (h : Collapses g phi r b a) : g.definedIn? r.1 = some b := by
  obtain ⟨k, hk, hphi⟩ := h.mem
  refine h.unique.definedIn?_eq_some_iff.mpr ⟨h.reached.mem_layout h.source, phi, ?_, h.result⟩
  rw [instructions_of_block? hk]
  exact (Block.mem_of_mem_phis hphi).1

/-- Control passes the parent before it gets to the phi. -/
theorem dominated (h : Collapses g phi r b a) : g.DominatedBy g.targets a b := by
  obtain ⟨e, he, hb⟩ := h.reached
  have hne : b ≠ e := fun hbe => h.notEntry (hbe ▸ he)
  refine ⟨e, he, Graph.Dominates.of_forall_edge hb (fun hbe => absurd hbe hne) ?_⟩
  intro c hc hcb
  obtain rfl : c = a := h.only c ⟨e, he, hc⟩ hcb
  exact .refl hc

/-- Where the phi is available, its value is. -/
theorem availableBy (h : Collapses g phi r b a) (hc : g.AvailableBy g.targets r.1 c) :
    g.AvailableBy g.targets r.2 c := by
  intro d hd
  exact (h.available d hd).trans (h.dominated.trans (hc b h.definedIn?))

/-- **The value of a collapsing phi is defined nearer to the entry than the phi.** -/
theorem depth_lt (h : Collapses g phi r b a) {e : BlockKey} (he : g.entry? = some e)
    (hd : g.definedIn? r.2 = some d) :
    Graph.depth (fun x y => y ∈ g.successorsBy g.targets x) e d <
      Graph.depth (fun x y => y ∈ g.successorsBy g.targets x) e b := by
  obtain ⟨e', he', hb⟩ := h.reached
  obtain rfl := Option.some.inj (he'.symm.trans he)
  have hne : b ≠ e' := fun hbe => h.notEntry (hbe ▸ he')
  have hlt := Graph.depth_lt_of_only hb hne (fun c hc hcb => h.only c ⟨e', he', hc⟩ hcb)
  obtain ⟨e'', he'', hda⟩ := h.available d hd
  obtain rfl := Option.some.inj (he''.symm.trans he')
  by_cases hda' : d = a
  · rwa [hda']
  · exact Nat.lt_trans (hda.depth_lt hda') hlt

theorem definitionDepth_lt (h : Collapses g phi r b a) {e : BlockKey} (he : g.entry? = some e) :
    g.definitionDepth e r.2 < g.definitionDepth e r.1 := by
  simp only [definitionDepth, h.definedIn?, Option.map_some, Option.getD_some]
  cases hd : g.definedIn? r.2 with
  | none => simp
  | some d =>
    have := h.depth_lt he hd
    simp only [Option.map_some, Option.getD_some]
    omega

/-- **Past a collapsing phi its value is not defined again.** -/
theorem not_dominated (h : Collapses g phi r b a) (hd : g.definedIn? r.2 = some d) :
    ¬ g.DominatedBy g.targets b d := by
  rintro ⟨e, he, hbd⟩
  have hlt := h.depth_lt he hd
  by_cases hbd' : b = d
  · simp [hbd'] at hlt
  · exact Nat.lt_asymm hlt (hbd.depth_lt hbd')

end Collapses

/-! ## 2. Every replacement comes from a phi that collapses -/

/-- The parents in a phi of a sound function are blocks that branch to it. -/
theorem Sound.exists_parent (hf : f.Coherent) (hs : f.Sound) {k : Block} (hb : f.Reached b)
    (hk : f.block? b = some k) (hphi : phi ∈ k.phis) (hres : phi.result?.isSome) {p : Id × Id}
    (hp : p ∈ phi.phiIncoming) :
    ∃ a ∈ f.layout, f.blockOf? p.2 = some a ∧ b ∈ f.resolve (f.targets a) := by
  obtain ⟨hmem, hisphi⟩ := Block.mem_of_mem_phis hphi
  have href := (hs.block b (hb.mem_layout hf) k hk).refs phi hmem p.2
    (Instruction.mem_blockRefs.mpr (.inr (.inr ⟨hisphi, p, hp, rfl⟩)))
  obtain ⟨a, ha⟩ := Option.isSome_iff_exists.mp href
  exact ⟨a, (hf.indexed _ _ ha).1, ha, (hs.phi b hb k hk phi hphi hres).1 p hp a ha⟩

/-- A function of an accepted module with regular phis, and a workspace that goes with the module. -/
structure Ready (f : Function) (w : Workspace) : Prop where
  wellFormed : f.WellFormed
  sound : f.Sound
  phis : f.RegularPhis
  below : ∀ x ∈ f.bodyUses, x.word.toNat < w.ids.bound.toNat
  apart : ∀ P T ids, w.constants.Grows P w.ids T ids → T.Apart f

theorem ready_of_accepted {m : Module} (ha : m.Accepted) (hf : f ∈ m.functionList)
    (hphis : f.RegularPhis) (hT : w.constants.Tracks w.ids m.globals m.bound) : f.Ready w := by
  refine ⟨wellFormed_of_accepted ha hf, ha.sound f hf, hphis, fun x hx => ?_,
    fun P T ids hgrows => ha.apart hf (hgrows.tracks hT)⟩
  have hused : x ∈ m.usedIds :=
    List.mem_append_right _ (List.mem_flatMap.mpr ⟨f, hf, List.mem_append_right _ hx⟩)
  have hlt := UInt32.lt_iff_toNat_lt.mp (ha.below x (ha.defined x hused))
  exact Nat.lt_of_lt_of_le hlt hT.bound_le

namespace Phases

/-- The phis of a block are those it had before folding. -/
theorem phis_folded (h : Phases f w f' w' folded repaired mended) {k : Block}
    (hk : folded.function.block? b = some k) (hb : b ∈ f.layout) :
    ∃ k₀, f.block? b = some k₀ ∧ k.phis = k₀.phis ∧ k.label = k₀.label := by
  obtain ⟨k₀, hk₀, -⟩ := h.wellFormed.coherent.exists_block hb
  obtain ⟨k', hk', hfolds⟩ := h.fold.block b hb k₀ hk₀
  obtain rfl := Option.some.inj (hk'.symm.trans hk)
  exact ⟨k₀, hk₀, hfolds.phis, hfolds.1⟩

/-- If folding has changed anything, it has made sure that definitions dominate their uses. -/
theorem inOrder_of_changed (hf : f.Ready w) (h : Phases f w f' w' folded repaired mended)
    (hchanged : folded.changed = true) :
    folded.function.InOrderBy folded.function.targets := by
  refine Folding.run_inOrder hf.wellFormed.coherent hf.wellFormed.sound.hasParts
    hf.wellFormed.nodup (fun T ids x hgrows hx => ?_) h.run hchanged
  have hapart := hf.apart _ T ids hgrows
  exact hapart.bool x true (hapart.isTrue x hx)

/-- **If a phi has lost a pair, folding has made sure that definitions dominate their uses.** -/
theorem inOrder_of_mem_pruned (hf : f.Ready w) (h : Phases f w f' w' folded repaired mended)
    (hx : x ∈ repaired.pruned) : folded.function.InOrderBy folded.function.targets := by
  refine h.inOrder_of_changed hf ?_
  by_contra hchanged
  have hsame := Folding.run_quiet h.run (by simpa using hchanged)
  obtain ⟨b, hb, k, hk, phi, hphi, ⟨p, hp, hlost⟩, hres⟩ := (h.repair.mem_pruned x).mp hx
  rw [hsame] at hb hk hlost
  obtain ⟨a, -, ha, hedge⟩ := hf.sound.exists_parent hf.wellFormed.coherent hb hk hphi
    (by simp [hres]) hp
  exact hlost ((mem_phiParents_all hf.wellFormed.coherent).mpr ⟨a, ha, hedge⟩)

theorem regularPhi_folded (hf : f.Ready w) (h : Phases f w f' w' folded repaired mended) {k : Block}
    (hk : folded.function.block? b = some k) (hb : b ∈ f.layout) (hphi : phi ∈ k.phis) :
    phi.RegularPhi := by
  obtain ⟨k₀, hk₀, hphis, -⟩ := h.phis_folded hk hb
  refine hf.phis b hb phi ?_ (Block.mem_of_mem_phis hphi).2
  rw [instructions_of_block? hk₀]
  exact (Block.mem_of_mem_phis (hphis ▸ hphi)).1

/-- A phi at the entry has no pair. -/
theorem phiIncoming_of_entry (hf : f.Ready w) (h : Phases f w f' w' folded repaired mended)
    {k : Block} (hk : folded.function.block? b = some k) (hphi : phi ∈ k.phis)
    (hb : f.entry? = some b) : phi.phiIncoming = [] := by
  have hreach : f.Reached b := .entry hb
  have hlayout := hreach.mem_layout hf.wellFormed.coherent
  obtain ⟨k₀, hk₀, hphis, -⟩ := h.phis_folded hk hlayout
  refine List.eq_nil_iff_forall_not_mem.mpr (fun p hp => ?_)
  obtain ⟨a, ha, -, hedge⟩ := hf.sound.exists_parent hf.wellFormed.coherent hreach hk₀
    (hphis ▸ hphi) (h.regularPhi_folded hf hk hlayout hphi).result hp
  exact hf.sound.entry b hb a ha hedge

/-- A pair of a mended phi has a value that is available in its parent. -/
theorem available_of_mends (hf : f.Ready w) (h : Phases f w f' w' folded repaired mended)
    {phi' : Instruction} {k : Block} {p : Id × Id} (hb : folded.function.Reached b)
    (hk : folded.function.block? b = some k) (hphi : phi ∈ k.phis)
    (hmends : Mends repaired.constants (folded.function.phiParents b) phi phi')
    (horder : folded.function.InOrderBy folded.function.targets) (hp : p ∈ phi'.phiIncoming)
    (ha : folded.function.blockOf? p.2 = some a) (hareach : folded.function.Reached a) :
    folded.function.AvailableBy folded.function.targets p.1 a := by
  have hw := h.wellFormed_folded
  obtain ⟨supplied, rfl, hsupplied, -⟩ := hmends
  rw [phiIncoming_mended] at hp
  rcases List.mem_append.mp hp with hold | hnew
  · have hmem : phi ∈ folded.function.instructions b := by
      rw [instructions_of_block? hk]
      exact (Block.mem_of_mem_phis hphi).1
    exact (horder b hb phi hmem).phi (Block.mem_of_mem_phis hphi).2 p (List.mem_filter.mp hold).1
      a ha hareach
  · -- an undefined value is no id of the body
    intro d hd
    obtain ⟨-, -, type, -, hundef⟩ := hsupplied p hnew
    rw [← h.constants] at hundef
    obtain ⟨hdl, i, hi, hix⟩ := hw.unique.definedIn?_eq_some_iff.mp hd
    have hbody : p.1 ∈ folded.function.bodyIds := mem_bodyIds.mpr (.inr ⟨d, hdl, i, hi, hix⟩)
    exact absurd (h.fold.bodyIds_sublist.subset hbody)
      ((hf.apart _ _ _ h.grows).undef type p.1 hundef)

/-- **Every replacement comes from a phi that collapses.** -/
theorem collapses (hf : f.Ready w) (h : Phases f w f' w' folded repaired mended)
    (hr : r ∈ repaired.replacements) : ∃ phi b a, Collapses folded.function phi r b a := by
  have hw := h.wellFormed_folded
  obtain ⟨b, hb, phi', hphi', hcollapsed⟩ := (h.repair.mem_replacements r).mp hr
  obtain ⟨hres', hne, hpruned, l, hlive, hpairs⟩ := collapsed?_eq_some_iff.mp hcollapsed
  obtain ⟨a, ha, hareach, hedge⟩ := (mem_phiParents_live hw.coherent).mp hlive
  have hlayout := hb.mem_layout hw.coherent
  obtain ⟨k, hk, -⟩ := hw.coherent.exists_block hlayout
  obtain ⟨phi, hphi, hmends⟩ := exists_of_mem_right (h.repair.mends b hb k hk) hphi'
  have hres : phi.result? = some r.1 := hmends.same.2.2 ▸ hres'
  refine ⟨phi, b, a, hw.coherent, hw.unique, ⟨k, hk, hphi⟩, hres, hb, hareach, hedge, ?_, ?_, ?_,
    ?_⟩
  · -- every live parent has its pair, and there is one pair
    intro c hc hcb
    obtain ⟨-, -, -, hcover⟩ := hmends
    obtain ⟨lc, -, hnamed⟩ := hw.coherent.named c (hc.mem_layout hw.coherent)
    have htype := (h.regularPhi_folded hf hk (h.fold.frame.layout ▸ hlayout) hphi).type
    obtain ⟨p, hp, hpl⟩ := hcover htype lc
      ((mem_phiParents_live hw.coherent).mpr ⟨c, hnamed, hc, hcb⟩)
    rw [hpairs] at hp
    obtain rfl := List.mem_singleton.mp hp
    subst hpl
    exact Option.some.inj (hnamed.symm.trans ha)
  · -- a phi at the entry has no pair to lose
    intro hentry
    obtain ⟨b', hb', k', hk', phi₂, hphi₂, ⟨p, hp, -⟩, hres₂⟩ := (h.repair.mem_pruned r.1).mp hpruned
    obtain ⟨rfl, rfl⟩ : b' = b ∧ phi₂ = phi := by
      refine hw.unique.result (hb'.mem_layout hw.coherent) hlayout ?_ ?_ hres₂ hres
      · rw [instructions_of_block? hk']
        exact (Block.mem_of_mem_phis hphi₂).1
      · rw [instructions_of_block? hk]
        exact (Block.mem_of_mem_phis hphi).1
    rw [h.phiIncoming_of_entry hf hk hphi (h.fold.frame.entry? ▸ hentry)] at hp
    cases hp
  · intro p hp hall
    obtain ⟨supplied, rfl, -, -⟩ := hmends
    rw [phiIncoming_mended] at hpairs
    have hkept : p ∈ [(r.2, l)] := by
      rw [← hpairs]
      exact List.mem_append_left _ (List.mem_filter.mpr ⟨hp, by simpa using hall⟩)
    rw [List.mem_singleton.mp hkept]
  · exact h.available_of_mends hf hb hk hphi hmends (h.inOrder_of_mem_pruned hf hpruned)
      (p := (r.2, l)) (by simp [hpairs]) ha hareach

/-- If an id is replaced, definitions dominate their uses. -/
theorem inOrder (hf : f.Ready w) (h : Phases f w f' w' folded repaired mended)
    (hr : r ∈ repaired.replacements) : folded.function.InOrderBy folded.function.targets := by
  obtain ⟨b, -, phi, -, hcollapsed⟩ := (h.repair.mem_replacements r).mp hr
  exact h.inOrder_of_mem_pruned hf (collapsed?_eq_some_iff.mp hcollapsed).2.2.1

/-- **No replaced id is left by the renaming.** -/
theorem rename_not_mem (hf : f.Ready w) (h : Phases f w f' w' folded repaired mended) (x : Id) :
    rename repaired.replacements x ∉ repaired.replacements.map Prod.fst := by
  intro hmem
  obtain ⟨r₀, hr₀, -⟩ := List.mem_map.mp hmem
  obtain ⟨phi₀, b₀, a₀, hc₀⟩ := h.collapses hf hr₀
  obtain ⟨e, he, -⟩ := hc₀.reached
  have hrank : ∀ r ∈ repaired.replacements,
      folded.function.definitionDepth e r.2 < folded.function.definitionDepth e r.1 := by
    intro r hr
    obtain ⟨phi, b, a, hc⟩ := h.collapses hf hr
    exact hc.definitionDepth_lt he
  exact PhiRepair.rename_not_mem hrank x hmem

end Phases
end ShaderIR.Function
