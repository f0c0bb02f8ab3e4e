import ShaderIR.DeadBranch.Proposal
import ShaderIR.Proofs.Function.Flow

/-!
# What a legal proposal promises

The computed test for a proposal, said in terms of reachability and dominance.  Over the proposed
targets, a block that gets lost is named by no block that stays other than the header, and every
value is defined in a block that dominates its uses.

* `keepsDominance_iff`, `isLegalProposal_iff`: the tests;
* `InOrderBy.mono`: with fewer targets the uses stay in order;
* `Legal.of_subset`: of two proposals that lose the same blocks, the one with fewer edges is legal
  if the other is;
* `Redirected.reached_iff`, `Redirected.dominatedBy_iff`, `Redirected.inOrderBy`: what holds once the
  proposal is carried out.
-/

namespace ShaderIR.Function

variable {f : Function} {targets targets' : BlockKey → List Id} {header b : BlockKey}
  {edges edges' : List Id}

/-! ## 1. Values and their definitions -/

/-- The block that defines a value; of several definitions the last counts. -/
def definedIn? (f : Function) (x : Id) : Option BlockKey :=
  (f.definitions.find? (fun e => e.1 = x)).map Prod.snd

/-- Where the results in every block are the same, so are the definitions. -/
theorem SameFrame.definitions {g : Function} (hfg : f.SameFrame g)
    (h : ∀ b, (g.instructions b).filterMap Instruction.result? =
      (f.instructions b).filterMap Instruction.result?) : g.definitions = f.definitions := by
  have hblock : ∀ (f : Function) (b : BlockKey),
      ((f.instructions b).map (fun i => (b, i))).filterMap
        (fun e => e.2.result?.map (fun id => (id, e.1))) =
      ((f.instructions b).filterMap Instruction.result?).map (fun id => (id, b)) := by
    intro f b
    rw [List.filterMap_map, List.map_filterMap]
    rfl
  simp only [Function.definitions, body, List.filterMap_flatMap, hfg.layout, hblock, h]

/-- Over the given targets, a value defined in the body is defined in a block that dominates `b`. -/
def AvailableBy (f : Function) (targets : BlockKey → List Id) (x : Id) (b : BlockKey) : Prop :=
  ∀ d, f.definedIn? x = some d → f.DominatedBy targets d b

/-- The uses of an instruction are available where they are made.  A pair of a phi is a use at the
end of its parent, and counts if control can get there. -/
structure UsesAvailableBy (f : Function) (targets : BlockKey → List Id) (b : BlockKey)
    (i : Instruction) : Prop where
  phi : i.opcode.isPhi = true → ∀ p ∈ i.phiIncoming, ∀ a, f.blockOf? p.2 = some a →
    f.ReachedBy targets a → f.AvailableBy targets p.1 a
  other : i.opcode.isPhi = false → ∀ x ∈ i.uses, f.AvailableBy targets x b

/-- The uses in all blocks that can be reached over the given targets are available there. -/
def InOrderBy (f : Function) (targets : BlockKey → List Id) : Prop :=
  ∀ b, f.ReachedBy targets b → ∀ i ∈ f.instructions b, f.UsesAvailableBy targets b i

section Coherent

variable (hf : f.Coherent)
include hf

theorem isDominated_iff {x : Id} :
    isDominated f.definitions (f.dominatorsBy targets) x b = true ↔ f.AvailableBy targets x b := by
  unfold isDominated AvailableBy definedIn?
  cases f.definitions.find? (fun e => e.1 = x) with
  | none => simp
  | some e => simp [dominates_dominatorsBy_iff hf]

theorem isIncomingDominated_iff {p : Id × Id} :
    f.isIncomingDominated f.definitions (f.dominatorsBy targets) p = true ↔
      ∀ a, f.blockOf? p.2 = some a → f.ReachedBy targets a → f.AvailableBy targets p.1 a := by
  unfold isIncomingDominated
  cases f.blockOf? p.2 with
  | none => simp
  | some a =>
    have hreach : (f.dominatorsBy targets).isReachable a = true ↔ f.ReachedBy targets a :=
      isReachable_dominatorsBy_iff hf
    rw [Bool.or_eq_true, isDominated_iff hf, Bool.not_eq_true', Bool.eq_false_iff, ne_eq, hreach]
    simp only [Option.some.injEq, forall_eq']
    exact ⟨fun h ha => h.resolve_left (fun hn => hn ha), fun h => or_iff_not_imp_left.mpr
      (fun hn => h (not_not.mp hn))⟩

theorem areUsesDominated_iff {i : Instruction} :
    f.areUsesDominated f.definitions (f.dominatorsBy targets) b i = true ↔
      f.UsesAvailableBy targets b i := by
  unfold areUsesDominated
  split
  · rename_i hphi
    simp only [List.all_eq_true, isIncomingDominated_iff hf]
    exact ⟨fun h => ⟨fun _ => h, fun hn => by simp [hphi] at hn⟩, fun h => h.phi hphi⟩
  · rename_i hphi
    have hphi : i.opcode.isPhi = false := by simpa using hphi
    simp only [List.all_eq_true, isDominated_iff hf]
    exact ⟨fun h => ⟨fun hp => by simp [hphi] at hp, fun _ => h⟩, fun h => h.other hphi⟩

theorem keepsDominance_iff :
    f.keepsDominance (f.dominatorsBy targets) = true ↔ f.InOrderBy targets := by
  simp only [keepsDominance, List.all_eq_true, List.mem_filter, isReachable_dominatorsBy_iff hf,
    areUsesDominated_iff hf, InOrderBy]
  exact ⟨fun h b hb => h b ⟨hb.mem_layout hf, hb⟩, fun h b hb => h b hb.2⟩

end Coherent

/-- Uses stay available where no more blocks are reached and available values stay available. -/
theorem UsesAvailableBy.transfer {g : Function} {i : Instruction}
    (h : f.UsesAvailableBy targets b i) (hb : g.ReachedBy targets' b)
    (hblock : ∀ l, g.blockOf? l = f.blockOf? l)
    (hreach : ∀ a, g.ReachedBy targets' a → f.ReachedBy targets a)
    (havail : ∀ x a, g.ReachedBy targets' a → f.AvailableBy targets x a →
      g.AvailableBy targets' x a) : g.UsesAvailableBy targets' b i := by
  refine ⟨fun hphi p hp a hpa ha => ?_, fun hphi x hx => havail x b hb (h.other hphi x hx)⟩
  rw [hblock] at hpa
  exact havail p.1 a ha (h.phi hphi p hp a hpa (hreach a ha))

/-- **With fewer targets the uses stay in order**: fewer blocks are reached, and the dominators of
those that are stay dominators. -/
theorem InOrderBy.mono (h : f.InOrderBy targets')
    (hsub : ∀ a, f.ReachedBy targets a → ∀ b ∈ f.resolve (targets a),
      b ∈ f.resolve (targets' a)) : f.InOrderBy targets := by
  have hreach : ∀ a, f.ReachedBy targets a → f.ReachedBy targets' a := fun a ha => ha.mono hsub
  intro b hb i hi
  exact (h b (hreach b hb) i hi).transfer hb (fun _ => rfl) hreach
    (fun x a ha hx d hd => (hx d hd).mono hsub ha)

/-! ## 2. Legal proposals -/

/-- No instruction but a phi names the block, in any block that is reached over the given targets,
the header aside. -/
def UnnamedBy (f : Function) (targets : BlockKey → List Id) (header b : BlockKey) : Prop :=
  ∀ l, f.label? b = some l → ∀ c, f.ReachedBy targets c → c ≠ header →
    ∀ i ∈ f.instructions c, i.opcode.isPhi = false → l ∉ i.uses

/-- The header may branch to the given labels and nothing else: what gets lost is not named any
more, and the uses are in order. -/
structure Legal (f : Function) (header : BlockKey) (edges : List Id) : Prop where
  unnamed : ∀ b, f.Reached b → ¬ f.ReachedBy (f.withTargets header edges) b →
    f.UnnamedBy (f.withTargets header edges) header b
  inOrder : f.InOrderBy (f.withTargets header edges)

section Coherent

variable (hf : f.Coherent)
include hf

theorem not_isMentioned_iff {l : Id} :
    ¬ f.isMentioned l (f.reachableBy targets) (some header) = true ↔
      ∀ c, f.ReachedBy targets c → c ≠ header →
        ∀ i ∈ f.instructions c, i.opcode.isPhi = false → l ∉ i.uses := by
  simp only [isMentioned, List.any_eq_true, List.mem_filter, Bool.and_eq_true, decide_eq_true_eq,
    contains_reachableBy_iff hf, Instruction.mentions, Bool.not_eq_true', ne_eq,
    Option.some.injEq, not_exists, not_and, List.contains_iff_mem]
  exact ⟨fun h c hc hne => h c ⟨hc.mem_layout hf, hc, hne⟩, fun h c hc => h c hc.2.1 hc.2.2⟩

theorem isLegalProposal_iff :
    f.isLegalProposal f.reachable header edges = true ↔ f.Legal header edges := by
  have horphans : f.orphansNothing f.reachable (f.reachableBy (f.withTargets header edges)) header =
        true ↔
      ∀ b, f.Reached b → ¬ f.ReachedBy (f.withTargets header edges) b →
        f.UnnamedBy (f.withTargets header edges) header b := by
    simp only [orphansNothing, List.all_eq_true, List.mem_filter, reachable,
      mem_keys_reachableBy_iff hf, Option.all_eq_true, Bool.not_eq_true', Bool.eq_false_iff, ne_eq,
      contains_reachableBy_iff hf, and_imp]
    refine forall_congr' (fun b => imp_congr_right (fun _ => imp_congr_right (fun _ => ?_)))
    refine forall_congr' (fun l => imp_congr_right (fun _ => ?_))
    exact not_isMentioned_iff hf
  rw [isLegalProposal, Bool.and_eq_true, horphans, keepsDominance_iff hf]
  exact ⟨fun h => ⟨h.1, h.2⟩, fun h => ⟨h.unnamed, h.inOrder⟩⟩

theorem verdict_eq_fold_iff {live merge : Id} :
    f.verdict f.reachable header live merge = .fold ↔ f.Legal header [live] := by
  rw [← isLegalProposal_iff hf]
  unfold verdict
  split
  · simp [*]
  · split <;> simp [*]

theorem verdict_eq_keepMerge_iff {live merge : Id} :
    f.verdict f.reachable header live merge = .keepMerge ↔
      ¬ f.Legal header [live] ∧ live ≠ merge ∧ f.Legal header [live, merge] := by
  rw [← isLegalProposal_iff hf, ← isLegalProposal_iff hf]
  unfold verdict
  split
  · simp [*]
  · split
    · simp_all
    · rename_i hill hnot
      simp only [reduceCtorEq, false_iff]
      rintro ⟨-, hne, hlegal⟩
      exact hnot (by simp [hne, hlegal])

end Coherent

theorem withTargets_self : f.withTargets header edges header = edges := by simp [withTargets]

theorem withTargets_of_ne (hb : b ≠ header) : f.withTargets header edges b = f.targets b := by
  simp [withTargets, hb]

theorem mem_resolve_withTargets_of_subset (hsub : ∀ l ∈ edges, l ∈ edges') {a c : BlockKey}
    (h : c ∈ f.resolve (f.withTargets header edges a)) :
    c ∈ f.resolve (f.withTargets header edges' a) := by
  by_cases ha : a = header
  · subst ha
    rw [withTargets_self] at h ⊢
    obtain ⟨l, hl, hlc⟩ := mem_resolve.mp h
    exact mem_resolve.mpr ⟨l, hsub l hl, hlc⟩
  · rwa [withTargets_of_ne ha] at h ⊢

/-- **Fewer edges are legal if they lose no more.**  Whatever was reachable and is still reached
over the greater proposal has to be reached over the smaller one. -/
theorem Legal.of_subset (h : f.Legal header edges') (hsub : ∀ l ∈ edges, l ∈ edges')
    (hlose : ∀ b, f.Reached b → f.ReachedBy (f.withTargets header edges') b →
      f.ReachedBy (f.withTargets header edges) b) : f.Legal header edges := by
  have hmono : ∀ a, f.ReachedBy (f.withTargets header edges) a →
      ∀ c ∈ f.resolve (f.withTargets header edges a),
        c ∈ f.resolve (f.withTargets header edges' a) :=
    fun a _ c hc => mem_resolve_withTargets_of_subset hsub hc
  refine ⟨fun b hb hnot l hl c hc => ?_, h.inOrder.mono hmono⟩
  exact h.unnamed b hb (fun hb' => hnot (hlose b hb hb')) l hl c (hc.mono hmono)

/-- A merge block that is the entry, or no block at all, gives nothing to keep. -/
theorem Legal.of_merge_entry {live merge : Id}
    (hmerge : ∀ c, f.blockOf? merge = some c → f.entry? = some c)
    (h : f.Legal header [live, merge]) : f.Legal header [live] := by
  refine h.of_subset (by simp) (fun c _ hc => ?_)
  refine hc.induct (fun e he => .entry he) (fun a c _ ha hac => ?_)
  by_cases hab : a = header
  · subst hab
    rw [withTargets_self] at hac
    obtain ⟨l, hl, hlc⟩ := mem_resolve.mp hac
    rcases List.mem_pair.mp hl with rfl | rfl
    · refine ha.step ?_
      rw [withTargets_self]
      exact mem_resolve.mpr ⟨l, by simp, hlc⟩
    · exact .entry (hmerge c hlc)
  · refine ha.step ?_
    rwa [withTargets_of_ne hab] at hac ⊢

/-! ## 3. The function that results -/

/-- `g` is `f` with another branch at the end of one header, which goes along the given edges. -/
structure Redirected (f g : Function) (header : BlockKey) (edges : List Id) : Prop where
  frame : f.SameFrame g
  block? : ∀ b, b ≠ header → g.block? b = f.block? b
  edges : ∀ l, l ∈ g.targets header ↔ l ∈ edges

namespace Redirected

variable {g : Function} {c d : BlockKey}

theorem instructions (h : Redirected f g header edges) (hb : b ≠ header) :
    g.instructions b = f.instructions b := by
  rw [Function.instructions, h.block? b hb, ← Function.instructions]

/-- The edges of the result are those that were proposed. -/
theorem mem_resolve_iff (h : Redirected f g header edges) (a : BlockKey) :
    c ∈ g.resolve (g.targets a) ↔ c ∈ f.resolve (f.withTargets header edges a) := by
  rw [h.frame.resolve]
  by_cases ha : a = header
  · subst ha
    simp only [mem_resolve, withTargets_self, h.edges]
  · rw [withTargets_of_ne ha, targets, h.block? a ha, ← targets]

/-- **The result reaches what its proposal said it would,** and dominators are the same. -/
theorem reached_iff (h : Redirected f g header edges) :
    g.Reached c ↔ f.ReachedBy (f.withTargets header edges) c := by
  simp only [Reached, ReachedBy, successorsBy, h.frame.entry?, h.mem_resolve_iff]

theorem dominatedBy_iff (h : Redirected f g header edges) :
    g.DominatedBy g.targets d c ↔ f.DominatedBy (f.withTargets header edges) d c := by
  simp only [DominatedBy, successorsBy, h.frame.entry?, h.mem_resolve_iff]

/-- **The uses of the result are in order if those of its proposal were.**  The new end may name
what the old one named, and what is defined nowhere in the body. -/
theorem inOrderBy (h : Redirected f g header edges)
    (hdefs : ∀ x d, g.definedIn? x = some d → f.definedIn? x = some d)
    {body old new : List Instruction} (hf : f.instructions header = body ++ old)
    (hg : g.instructions header = body ++ new) (hold : ∀ i ∈ old, i.opcode.isPhi = false)
    (hnew : ∀ i ∈ new, i.opcode.isPhi = false)
    (huses : ∀ i ∈ new, ∀ x ∈ i.uses, (∃ j ∈ old, x ∈ j.uses) ∨ g.definedIn? x = none)
    (hord : f.InOrderBy (f.withTargets header edges)) : g.InOrderBy g.targets := by
  have havail : ∀ x a, f.AvailableBy (f.withTargets header edges) x a →
      g.AvailableBy g.targets x a :=
    fun x a hx d hd => h.dominatedBy_iff.mpr (hx d (hdefs x d hd))
  intro b hb i hi
  have hb' : f.ReachedBy (f.withTargets header edges) b := h.reached_iff.mp hb
  have hsame : i ∈ f.instructions b → g.UsesAvailableBy g.targets b i := fun hi =>
    (hord b hb' i hi).transfer hb h.frame.blockOf? (fun a ha => h.reached_iff.mp ha)
      (fun x a _ => havail x a)
  by_cases hbh : b = header
  · subst hbh
    rw [hg] at hi
    rcases List.mem_append.mp hi with hi | hi
    · refine hsame ?_
      rw [hf]
      exact List.mem_append_left _ hi
    · refine ⟨fun hphi => by simp [hnew i hi] at hphi, fun _ x hx => ?_⟩
      rcases huses i hi x hx with ⟨j, hj, hxj⟩ | hnone
      · refine havail x b ((hord b hb' j ?_).other (hold j hj) x hxj)
        rw [hf]
        exact List.mem_append_right _ hj
      · intro d hd
        rw [hnone] at hd
        cases hd
  · rw [h.instructions hbh] at hi
    exact hsame hi

end Redirected

end ShaderIR.Function
