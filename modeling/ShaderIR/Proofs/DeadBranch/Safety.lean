import ShaderIR.Proofs.DeadBranch.Faults
import ShaderIR.Proofs.Function.History

/-!
# Accepted modules are processed without faults

The check is the only gate.  Behind it no operation is used against its contract, and nothing is
looked up that is not there: in none of the functions that are at hand between two visits, two
replacements or two removals.  One thing the check does not look at is whether the blocks have the
labels that the index has for them.

* `Function.InRange`: what is looked up in a function, and found if the function is sane;
* `Function.PassesThrough`, `Module.WorksOn`: the functions that a run has at hand, from first to
  last;
* `Module.Built`: the modules that can be made;
* `accepted_modules_never_fault`: no fault but for want of ids, and every look-up finds something;
* `replaced_block_faults`: what happens if a block does not have the label it is looked up under.
-/

namespace ShaderIR

/-! ## 1. Looking things up -/

namespace Function

variable {f g : Function} {w : Workspace}

/-- Whatever is looked up in a function is there. -/
structure InRange (f : Function) : Prop where
  /-- The blocks of the layout are stored. -/
  layout : ∀ b ∈ f.layout, (f.block? b).isSome
  /-- So are the blocks that labels lead to. -/
  index : ∀ l b, f.blockOf? l = some b → (f.block? b).isSome
  /-- A block of the layout can be taken out of it. -/
  inserted : ∀ b ∈ f.layout, f.isInserted b = true
  /-- The targets of the branches can be read. -/
  targets : ∀ b ∈ f.layout, f.hasReadableTargets b = true
  /-- The phis at the start of a block are phis. -/
  phis : ∀ b k, f.block? b = some k → ∀ phi ∈ k.phis, phi.asPhi = .ok phi
  /-- The places kept in unreachable blocks are places of instructions. -/
  places : ∀ s ∈ f.sites, ∀ n ∈ f.keptBy s, n < (f.instructions s.block).length
  /-- The search for dominators always finds the parents it asks for, whatever the edges. -/
  dominators : ∀ targets e, f.entry? = some e →
    (Graph.immediate? (Graph.placePredecessors (f.successorsBy targets) f.layout e)
      (Graph.reversePostorder (f.successorsBy targets) f.layout e).length).isSome

theorem endPositions_lt {k : Block} {n : Nat} (hn : n ∈ k.endPositions) :
    n < k.instructions.length := by
  obtain ⟨front, fin, hsplit⟩ := k.exists_split
  exact (hsplit.within n hn).2

theorem Sane.places (hf : f.Sane) {s : Site} (hs : s ∈ f.sites) {n : Nat} (hn : n ∈ f.keptBy s) :
    n < (f.instructions s.block).length := by
  rcases List.mem_append.mp hn with hn | hn
  · -- the place of a definition
    obtain ⟨x, -, hx⟩ := List.mem_filterMap.mp hs
    unfold site? at hx
    split at hx
    · split at hx
      · cases hx
      · cases hx
        simp at hn
    · obtain ⟨e, he, rfl⟩ := Option.map_eq_some_iff.mp hx
      obtain ⟨b, m, i, -, hi, -, hsite⟩ :=
        (mem_deadDefinitions hf.coherent).mp (List.mem_of_find?_eq_some he)
      rw [hsite] at hn ⊢
      obtain rfl : n = m := by simpa using hn
      exact (List.getElem?_eq_some_iff.mp hi).1
  · -- the end of the block
    cases hk : f.block? s.block with
    | none => simp [hk] at hn
    | some k =>
      rw [instructions_of_block? hk]
      exact endPositions_lt (by simpa [hk] using hn)

theorem Sane.inRange (hf : f.Sane) : f.InRange where
  layout b hb := by
    obtain ⟨k, hk, -⟩ := hf.coherent.exists_block hb
    simp [hk]
  index l b hb := by
    obtain ⟨k, hk, -⟩ := hf.coherent.exists_block (hf.coherent.indexed l b hb).1
    simp [hk]
  inserted b hb := hf.coherent.isInserted hb
  targets b hb := by
    obtain ⟨k, hk, -⟩ := hf.coherent.exists_block hb
    rw [hasReadableTargets, hk, Option.all_some, Block.hasReadableTargets]
    cases ht : k.terminator? with
    | none => rfl
    | some t =>
      refine hf.readable b hb t ?_
      rw [instructions_of_block? hk]
      exact List.mem_of_getLast? (Option.filter_eq_some_iff.mp ht).1
  phis b k _ phi hphi := if_pos (Block.mem_of_mem_phis hphi).2
  places s hs n hn := hf.places hs hn
  dominators targets e he := by
    have hnumbered : Graph.Parents.Numbered
        (Graph.placePredecessors (f.successorsBy targets) f.layout e)
        (Graph.reversePostorder (f.successorsBy targets) f.layout e).length :=
      Graph.numbered_placePredecessors hf.coherent.nodup
    obtain ⟨up, hup, -⟩ := Graph.Parents.immediate?_spec hnumbered
    simp [hup]

/-- The functions that are at hand while dead branches are eliminated: between two visits of
folding, between two visits of repair, between two replacements, and between the removal of two
blocks. -/
inductive PassesThrough (f : Function) (w : Workspace) : Function → Prop
  | folding {before after : List BlockKey} {s : Folding}
      (order : f.structuredOrder = before ++ after)
      (run : before.foldlM Folding.visit ⟨f, w.constants, w.ids, f.reachable, false⟩ = .ok s) :
      PassesThrough f w s.function
  | repair {folded : Folding} {before after : List BlockKey} {s : PhiRepair}
      (fold : Folding.run f w.constants w.ids = .ok folded)
      (order : folded.function.layout.filter folded.function.reachable.contains = before ++ after)
      (run : before.foldlM
        (PhiRepair.visit (FlowGraph.ofFunction folded.function) folded.function.reachable)
        ⟨folded.function, folded.constants, folded.ids, [], [], false⟩ = .ok s) :
      PassesThrough f w s.function
  | replacing {folded : Folding} {s : PhiRepair} {before after : List (Id × Id)}
      (fold : Folding.run f w.constants w.ids = .ok folded)
      (run : (folded.function.layout.filter folded.function.reachable.contains).foldlM
        (PhiRepair.visit (FlowGraph.ofFunction folded.function) folded.function.reachable)
        ⟨folded.function, folded.constants, folded.ids, [], [], false⟩ = .ok s)
      (order : s.replacements = before ++ after) :
      PassesThrough f w (PhiRepair.substitute s.function before)
  | removal {folded : Folding} {repaired : PhiRepair} {before after : List BlockKey} {g : Function}
      {killed : SortedSet Id} {changed : Bool}
      (fold : Folding.run f w.constants w.ids = .ok folded)
      (repair : PhiRepair.run folded.function folded.constants folded.ids = .ok repaired)
      (order : repaired.function.deadBlocks repaired.function.reachable = before ++ after)
      (run : before.foldlM (strip repaired.function.sites)
        (repaired.function, w.killed.addAll (repaired.replacements.map Prod.fst), false) =
          .ok (g, killed, changed)) : PassesThrough f w g

/-- **All of them are sane.** -/
theorem PassesThrough.sane (h : f.PassesThrough w g) (hf : f.WellFormed) (hread : f.Readable)
    (hids : w.ids.bound ≠ 0) : g.Sane := by
  have hsane := hf.sane hread
  cases h with
  | folding order run =>
    exact (foldlM_induct run (Folding.workable_start hsane hf.hasParts hids)
      (fun _ _ _ _ hs hvisit => hs.visit hvisit)).sane
  | repair fold order run =>
    have hfolded := hsane.fold hf.hasParts hids fold
    refine (foldlM_induct run (PhiRepair.workable_start hfolded.sane hfolded.ids)
      (fun _ b _ hb hs hvisit => hs.visit ?_ hvisit)).sane
    exact (List.mem_filter.mp (order ▸ List.mem_append_left _ hb)).1
  | replacing fold run order =>
    have hfolded := hsane.fold hf.hasParts hids fold
    exact (foldlM_induct run (PhiRepair.workable_start hfolded.sane hfolded.ids)
      (fun _ b _ hb hs hvisit => hs.visit (List.mem_filter.mp hb).1 hvisit)).sane.substitute _
  | removal fold repair order run =>
    have hfolded := hsane.fold hf.hasParts hids fold
    have hrepaired := hfolded.sane.repair hfolded.ids repair
    refine hrepaired.strips ?_ (fun b hb => ?_) run
    · exact (List.nodup_append.mp (order ▸ deadBlocks_nodup hrepaired.coherent _)).1
    · exact (List.mem_filter.mp (order ▸ List.mem_append_left _ hb)).1

end Function

namespace Module

variable {m m' : Module} {f g : Function}

/-- The functions that are at hand while a module is processed. -/
inductive WorksOn (m : Module) : Function → Prop
  | intro {before after : List FunctionKey} {k : FunctionKey} {m₁ : Module} {w₁ : Workspace}
      {changed : Bool} {f g : Function} (order : m.callOrder = before ++ k :: after)
      (run : before.foldlM processFunction (m, .ofModule m, false) = .ok (m₁, w₁, changed))
      (function : m₁.function? k = some f) (through : f.PassesThrough w₁ g) : WorksOn m g

/-! ## 2. Modules that were built -/

/-- A module that was made by whatever can be done to modules and to functions.  A function, too, may
be put in the place of another one. -/
inductive Built : Module → Prop
  | empty : Built .empty
  | push {m m' : Module} {s : Section} {i : Instruction} (hm : Built m)
      (h : m.push s i = .ok m') : Built m'
  | pushFunction {m m' : Module} {f : Function} {k : FunctionKey} (hm : Built m) (hf : f.Altered)
      (h : m.pushFunction f = .ok (k, m')) : Built m'
  | setFunction {m : Module} {f : Function} (hm : Built m) (k : FunctionKey) (hf : f.Altered) :
      Built (m.setFunction k f)
  | removeDebugInfo {m : Module} (hm : Built m) (ids : SortedSet Id) :
      Built (m.removeDebugInfo ids)
  | setBound {m : Module} (hm : Built m) (bound : UInt32) : Built { m with bound := bound }

theorem Built.altered (hm : m.Built) : ∀ f ∈ m.functionList, f.Altered := by
  induction hm with
  | empty => exact fun f hf => by cases hf
  | @push m m' s i _ h ih =>
    unfold Module.push at h
    split at h
    · cases h
      cases s <;> exact ih
    · cases h
  | @pushFunction m m' f k _ hf h ih =>
    unfold Module.pushFunction at h
    split at h
    · cases h
    · obtain ⟨⟨k', functions⟩, hinsert, h⟩ := bind_eq_ok.mp h
      cases h
      unfold Arena.insert at hinsert
      split at hinsert
      · cases hinsert
        intro g hg
        simp only [functionList, Array.toList_push, List.mem_append, List.mem_singleton] at hg
        rcases hg with hg | rfl
        · exact ih g hg
        · exact hf
      · cases hinsert
  | setFunction _ k hf ih =>
    intro g hg
    rcases mem_functionList_setFunction hg with rfl | hg
    · exact hf
    · exact ih g hg
  | removeDebugInfo _ ids ih => exact ih
  | setBound _ bound ih => exact ih

/-- Every block of every layout is inserted: its label leads to it. -/
def AllInserted (m : Module) : Prop :=
  ∀ f ∈ m.functionList, ∀ b ∈ f.layout, f.isInserted b = true

instance (m : Module) : Decidable m.AllInserted := by
  unfold AllInserted
  infer_instance

theorem Built.coherent (hm : m.Built) (hin : m.AllInserted) : m.Coherent :=
  fun f hf => (hm.altered f hf).coherent_iff.mpr (hin f hf)

theorem Built.pushGlobals (hm : m.Built) (is : List Instruction) :
    Built { m with globals := m.globals ++ is } := by
  induction is generalizing m with
  | nil => simpa using hm
  | cons i is ih =>
    have hone : Built { m with globals := m.globals ++ [i] } := hm.push (s := .globals) (i := i) rfl
    simpa using ih hone

theorem built_ofFunction {f : Function} (bound : UInt32) (globals : List Instruction)
    (hf : f.Altered) : (ofFunction bound globals f).Built := by
  have hcapability : Built { Module.empty with
      capabilities := [⟨.capability, none, none, [.literal 1]⟩] } :=
    .push (s := .capabilities) (i := ⟨.capability, none, none, [.literal 1]⟩) .empty rfl
  have hentry : Built { Module.empty with
      capabilities := [⟨.capability, none, none, [.literal 1]⟩]
      entryPoints := [⟨.entryPoint, none, none, [.literal 4, .ref f.id, .string "main"]⟩] } :=
    .push (s := .entryPoints)
      (i := ⟨.entryPoint, none, none, [.literal 4, .ref f.id, .string "main"]⟩) hcapability rfl
  exact .setBound (.pushFunction (k := ⟨0⟩) (hentry.pushGlobals globals) hf rfl) bound

/-- **Accepted modules are processed without faults.**  Of a module that has passed the check, the
elimination of dead branches makes another one, unless no id is left.  Whichever function it has at
hand on the way, what it looks up there is found.  The functions must be coherent, as they are in a
module that was built and has every block of its layouts inserted. -/
theorem accepted_modules_never_fault (hm : m.Coherent ∨ m.Built ∧ m.AllInserted)
    (hcheck : m.check = .ok []) (wl : Whitelist) :
    (∀ e, m.eliminateDeadBranches wl = .error e → e = .idsExhausted) ∧
      ∀ g, m.WorksOn g → g.InRange := by
  have hco : m.Coherent := hm.elim (fun hm => hm) (fun hm => hm.1.coherent hm.2)
  have ha := (check_eq_ok_nil_iff hco).mp hcheck
  have hwf : ∀ f ∈ m.functionList, f.WellFormed :=
    fun f hf => Function.wellFormed_of_accepted ha hf
  have hread := isReadable_iff.mp ha.readable
  refine ⟨lacksOnlyIds_eliminateDeadBranches hwf hread wl, ?_⟩
  rintro g ⟨order, run, function, through⟩
  have hs := foldlM_induct (P := fun s => Workable m s.1 s.2.1) run (workable_start hwf hread)
    (fun _ _ _ _ hs h => hs.step h)
  have hmem := mem_functionList function
  exact (through.sane (hs.wellFormed _ hmem) (hs.readable _ hmem) hs.ids).inRange

/-- Block `%10` always goes to `%11`. -/
def skipped : Function := .ofBlocks ⟨1⟩ ⟨2⟩ ⟨3⟩ [
  ⟨⟨10⟩, [.selectionMerge ⟨12⟩, .branchConditional ⟨5⟩ ⟨11⟩ ⟨12⟩]⟩,
  ⟨⟨11⟩, [.branch ⟨12⟩]⟩,
  ⟨⟨12⟩, [.ret]⟩]

/-- Its blocks are appended empty, and others with the same labels put in their places. -/
theorem skipped_altered : skipped.Altered := by
  have hten : (Function.new ⟨1⟩ ⟨2⟩ ⟨3⟩).appendBlock ⟨10⟩ =
      .ok (⟨0⟩, .ofBlocks ⟨1⟩ ⟨2⟩ ⟨3⟩ [.empty ⟨10⟩]) := by decide
  have heleven : (Function.ofBlocks ⟨1⟩ ⟨2⟩ ⟨3⟩ [.empty ⟨10⟩]).appendBlock ⟨11⟩ =
      .ok (⟨1⟩, .ofBlocks ⟨1⟩ ⟨2⟩ ⟨3⟩ [.empty ⟨10⟩, .empty ⟨11⟩]) := by decide
  have htwelve : (Function.ofBlocks ⟨1⟩ ⟨2⟩ ⟨3⟩ [.empty ⟨10⟩, .empty ⟨11⟩]).appendBlock ⟨12⟩ =
      .ok (⟨2⟩, .ofBlocks ⟨1⟩ ⟨2⟩ ⟨3⟩ [.empty ⟨10⟩, .empty ⟨11⟩, .empty ⟨12⟩]) := by decide
  have hfill : (((Function.ofBlocks ⟨1⟩ ⟨2⟩ ⟨3⟩
      [.empty ⟨10⟩, .empty ⟨11⟩, .empty ⟨12⟩]).setBlock ⟨0⟩
      ⟨⟨10⟩, [.selectionMerge ⟨12⟩, .branchConditional ⟨5⟩ ⟨11⟩ ⟨12⟩]⟩).setBlock ⟨1⟩
      ⟨⟨11⟩, [.branch ⟨12⟩]⟩).setBlock ⟨2⟩ ⟨⟨12⟩, [.ret]⟩ = skipped := by decide
  have hempty := (((Function.altered_new ⟨1⟩ ⟨2⟩ ⟨3⟩).append hten).append heleven).append htwelve
  exact hfill ▸ ((hempty.assign rfl _).assign rfl _).assign rfl _

theorem accepted_modules_never_fault_skipped :
    (ofFunction 13 boolGlobals skipped).Built ∧ (ofFunction 13 boolGlobals skipped).AllInserted ∧
      (ofFunction 13 boolGlobals skipped).check = .ok [] ∧
      (ofFunction 13 boolGlobals skipped).WorksOn skipped ∧
      (∀ e, (ofFunction 13 boolGlobals skipped).eliminateDeadBranches .default = .error e →
        e = .idsExhausted) ∧
      ∀ g, (ofFunction 13 boolGlobals skipped).WorksOn g → g.InRange := by
  have hm : (ofFunction 13 boolGlobals skipped).Built :=
    built_ofFunction 13 boolGlobals skipped_altered
  have hin : (ofFunction 13 boolGlobals skipped).AllInserted := by decide
  have hcheck : (ofFunction 13 boolGlobals skipped).check = .ok [] := by cbv
  refine ⟨hm, hin, hcheck, ?_, accepted_modules_never_fault (.inr ⟨hm, hin⟩) hcheck .default⟩
  have horder : (ofFunction 13 boolGlobals skipped).callOrder = [] ++ ⟨0⟩ :: [] := by cbv
  have hblocks : skipped.structuredOrder = [] ++ skipped.structuredOrder := rfl
  exact .intro horder rfl rfl (.folding hblocks rfl)

/-- Two blocks, `%10` and `%11`.  Control does not get to the second. -/
def besides : Function := .ofBlocks ⟨1⟩ ⟨2⟩ ⟨3⟩ [⟨⟨10⟩, [.ret]⟩, .empty ⟨11⟩]

/-- A block `%12` in the place of `%11`: the index still says `%11`. -/
def replaced : Function := besides.setBlock ⟨1⟩ ⟨⟨12⟩, [.ret]⟩

theorem replaced_altered : replaced.Altered := by
  have hten : (Function.new ⟨1⟩ ⟨2⟩ ⟨3⟩).appendBlock ⟨10⟩ =
      .ok (⟨0⟩, .ofBlocks ⟨1⟩ ⟨2⟩ ⟨3⟩ [.empty ⟨10⟩]) := by decide
  have heleven : (Function.ofBlocks ⟨1⟩ ⟨2⟩ ⟨3⟩ [.empty ⟨10⟩]).appendBlock ⟨11⟩ =
      .ok (⟨1⟩, .ofBlocks ⟨1⟩ ⟨2⟩ ⟨3⟩ [.empty ⟨10⟩, .empty ⟨11⟩]) := by decide
  have hfill : (Function.ofBlocks ⟨1⟩ ⟨2⟩ ⟨3⟩ [.empty ⟨10⟩, .empty ⟨11⟩]).setBlock ⟨0⟩
      ⟨⟨10⟩, [.ret]⟩ = besides := by decide
  have hempty := ((Function.altered_new ⟨1⟩ ⟨2⟩ ⟨3⟩).append hten).append heleven
  have hbesides : besides.Altered := hfill ▸ hempty.assign rfl _
  exact hbesides.assign rfl _

/-- **A block that is not inserted passes the check, and then it cannot be removed.** -/
theorem replaced_block_faults :
    (ofFunction 13 boolGlobals replaced).Built ∧
      (ofFunction 13 boolGlobals replaced).check = .ok [] ∧
      ¬ (ofFunction 13 boolGlobals replaced).AllInserted ∧
      (ofFunction 13 boolGlobals replaced).eliminateDeadBranches .default =
        .error .notInLayout := by
  refine ⟨built_ofFunction 13 boolGlobals replaced_altered, by cbv, by decide, ?_⟩
  rw [eliminateDeadBranches_of_no_extensions rfl .default (.ofNames [])]
  cbv

end Module
end ShaderIR
