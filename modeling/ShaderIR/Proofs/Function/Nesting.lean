import ShaderIR.Proofs.Function.StructuredOrder
import ShaderIR.Proofs.Graph.DepthFirst

/-!
# Constructs and the structured order

The merge block of a header is the first of its structured successors, and the continue target of a
loop header is the second one.  A depth-first walk that comes to the header finishes with these two
before it enters anything else that is nested in the construct.  In the structured order they
therefore stand behind the blocks of the construct, however these are connected among themselves and
whatever way leads from the merge block back to the header.

* `structuredSuccessors_of_declaration`: the successors of a header;
* `merge_follows_construct`: what stands in front of the merge block and of the continue target.
-/

namespace ShaderIR.Function

variable {f : Function} {h m c x : BlockKey} {k : Block} {merge : Id} {continueTarget? : Option Id}

/-- Some structured path leads from one block to another past `h`.  A block leads to itself. -/
def LeadsPast (f : Function) (h a b : BlockKey) : Prop :=
  Graph.LeadsPast (fun x y => y ∈ f.structuredSuccessors x) h a b

/-- The merge block comes first, then the continue target, then the targets of the branch. -/
theorem structuredSuccessors_of_declaration (hk : f.block? h = some k)
    (hdecl : k.mergeAndContinue? = some (merge, continueTarget?))
    (hm : f.blockOf? merge = some m) :
    f.structuredSuccessors h =
      m :: (f.resolve continueTarget?.toList ++ f.resolve (f.targets h)) := by
  have htargets : f.structuredTargets h = merge :: (continueTarget?.toList ++ f.targets h) := by
    simp [structuredTargets, hk, hdecl]
  simp [structuredSuccessors, htargets, resolve, hm]

/-- A block that `h` dominates stands in front of a successor of `h`, if neither this one nor an
earlier successor leads to it past `h`. -/
theorem precedes_of_successor (hf : f.Coherent) (first : List BlockKey) {last : List BlockKey}
    (hnext : f.structuredSuccessors h = first ++ c :: last)
    (hc : f.DominatedBy f.structuredTargets h c) (hch : c ≠ h)
    (hx : f.DominatedBy f.structuredTargets h x) (hfar : ∀ b ∈ first ++ [c], ¬ f.LeadsPast h b x) :
    Graph.Precedes f.structuredOrder x c := by
  obtain ⟨e, he, hc⟩ := hc
  obtain ⟨e', he', hx⟩ := hx
  obtain rfl := Option.some.inj (he'.symm.trans he)
  refine ⟨(mem_structuredOrder_iff hf).mpr ⟨e', he', hc.reaches⟩, ?_⟩
  rw [structuredOrder_of_entry he']
  exact Graph.idxOf_lt_of_successor (hf.closed_successorsBy f.structuredTargets) hf.nodup
    (List.mem_of_mem_head? he') hnext hc hch hx hfar

/-- **Merge block and continue target follow their construct.**  What `h` dominates and its merge
block does not lead to, except through `h`, stands in front of the merge block; if the continue
target does not lead to it either, it stands in front of the continue target. -/
theorem merge_follows_construct (hf : f.Coherent) (hk : f.block? h = some k)
    (hdecl : k.mergeAndContinue? = some (merge, continueTarget?))
    (hm : f.blockOf? merge = some m) :
    (m ≠ h → f.DominatedBy f.structuredTargets h m →
      ∀ x, f.DominatedBy f.structuredTargets h x → ¬ f.LeadsPast h m x →
        Graph.Precedes f.structuredOrder x m) ∧
    (∀ l c, continueTarget? = some l → f.blockOf? l = some c → c ≠ h →
      f.DominatedBy f.structuredTargets h c →
      ∀ x, f.DominatedBy f.structuredTargets h x → ¬ f.LeadsPast h m x → ¬ f.LeadsPast h c x →
        Graph.Precedes f.structuredOrder x c) := by
  have hnext := structuredSuccessors_of_declaration hk hdecl hm
  refine ⟨fun hmh hdom x hx hfar => ?_, ?_⟩
  · exact precedes_of_successor hf [] hnext hdom hmh hx (by simpa using hfar)
  · rintro l c rfl hl hch hdom x hx hfarm hfarc
    have hcont : f.resolve (some l).toList = [c] := by simp [resolve, hl]
    rw [hcont] at hnext
    exact precedes_of_successor hf [m] hnext hdom hch hx (by simp [hfarm, hfarc])

/-- A loop in a loop.  The inner one has its header in `%12`, a body `%13` that may leave it, the
continue target `%14` and the merge block `%15`, from where the outer loop leads back to `%12`. -/
def loopInLoop : Function := .ofBlocks ⟨1⟩ ⟨2⟩ ⟨3⟩ [
  ⟨⟨10⟩, [.branch ⟨11⟩]⟩,
  ⟨⟨11⟩, [.loopMerge ⟨17⟩ ⟨16⟩, .branch ⟨12⟩]⟩,
  ⟨⟨12⟩, [.loopMerge ⟨15⟩ ⟨14⟩, .branchConditional ⟨5⟩ ⟨13⟩ ⟨15⟩]⟩,
  ⟨⟨13⟩, [.branchConditional ⟨5⟩ ⟨14⟩ ⟨15⟩]⟩,
  ⟨⟨14⟩, [.branch ⟨12⟩]⟩,
  ⟨⟨15⟩, [.branch ⟨16⟩]⟩,
  ⟨⟨16⟩, [.branch ⟨11⟩]⟩,
  ⟨⟨17⟩, [.ret]⟩]

/-- What a block leads to past `h` lies in every set that has the block and is closed under
successors other than `h`. -/
theorem LeadsPast.mem {a b : BlockKey} (hab : f.LeadsPast h a b) (bs : List BlockKey)
    (ha : a ∈ bs)
    (hbs : bs.all (fun x => (f.structuredSuccessors x).all (fun y => y = h || bs.contains y)) = true) :
    b ∈ bs := by
  obtain ⟨p, hp, havoid⟩ := hab
  induction hp with
  | start => exact ha
  | @step x y p hp hxy ih =>
    rw [List.mem_cons, not_or] at havoid
    have hx := ih havoid.2
    have hy := List.all_eq_true.mp (List.all_eq_true.mp hbs x hx) y hxy
    simpa [Ne.symm havoid.1] using hy

theorem merge_follows_construct_loopInLoop :
    loopInLoop.Coherent ∧
      loopInLoop.DominatedBy loopInLoop.structuredTargets ⟨2⟩ ⟨3⟩ ∧
      ¬ loopInLoop.LeadsPast ⟨2⟩ ⟨5⟩ ⟨3⟩ ∧ ¬ loopInLoop.LeadsPast ⟨2⟩ ⟨4⟩ ⟨3⟩ ∧
      Graph.Precedes loopInLoop.structuredOrder ⟨3⟩ ⟨5⟩ ∧
      Graph.Precedes loopInLoop.structuredOrder ⟨3⟩ ⟨4⟩ := by
  have hco : loopInLoop.Coherent := by decide
  have hdom : [⟨3⟩, ⟨4⟩, ⟨5⟩].all (fun b => (loopInLoop.dominatorsBy
      loopInLoop.structuredTargets).dominates ⟨2⟩ b) = true := by cbv
  have hdominated : ∀ b ∈ [⟨3⟩, ⟨4⟩, ⟨5⟩],
      loopInLoop.DominatedBy loopInLoop.structuredTargets ⟨2⟩ b :=
    fun b hb => (dominates_dominatorsBy_iff hco).mp (List.all_eq_true.mp hdom b hb)
  have hmerge : ¬ loopInLoop.LeadsPast ⟨2⟩ ⟨5⟩ ⟨3⟩ := by
    intro hpast
    have := hpast.mem [⟨5⟩, ⟨6⟩, ⟨1⟩, ⟨7⟩] (by decide) (by cbv)
    revert this
    decide
  have hcontinue : ¬ loopInLoop.LeadsPast ⟨2⟩ ⟨4⟩ ⟨3⟩ := by
    intro hpast
    have := hpast.mem [⟨4⟩] (by decide) (by cbv)
    revert this
    decide
  have hblock : loopInLoop.block? ⟨2⟩ =
      some ⟨⟨12⟩, [.loopMerge ⟨15⟩ ⟨14⟩, .branchConditional ⟨5⟩ ⟨13⟩ ⟨15⟩]⟩ := by decide
  have hdecl : (Block.mk ⟨12⟩ [.loopMerge ⟨15⟩ ⟨14⟩, .branchConditional ⟨5⟩ ⟨13⟩ ⟨15⟩]
      ).mergeAndContinue? = some (⟨15⟩, some ⟨14⟩) := by decide
  have hlabel : loopInLoop.blockOf? ⟨15⟩ = some ⟨5⟩ := by decide
  obtain ⟨hbefore, hbetween⟩ := merge_follows_construct hco hblock hdecl hlabel
  refine ⟨hco, hdominated _ (by decide), hmerge, hcontinue, ?_, ?_⟩
  · exact hbefore (by decide) (hdominated _ (by decide)) _ (hdominated _ (by decide)) hmerge
  · exact hbetween ⟨14⟩ ⟨4⟩ rfl (by decide) (by decide) (hdominated _ (by decide)) _
      (hdominated _ (by decide)) hmerge hcontinue

end ShaderIR.Function
