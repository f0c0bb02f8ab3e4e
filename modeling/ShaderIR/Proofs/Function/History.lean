import ShaderIR.DeadBranch.Elimination
import ShaderIR.Proofs.DeadBranch.Folding
import ShaderIR.Proofs.DeadBranch.Repair
import ShaderIR.Proofs.Function.Editing
import ShaderIR.Proofs.Runs

/-!
# The history of a function

A function starts without blocks and is then worked on: blocks are appended and removed,
instructions are rewritten, dead blocks and dead branches are eliminated.  Whatever the order,
layout, index and labels stay in step, and keys are never used twice.  A label may well be: it can
be given to a new block when the old one is gone, and the old one carries it still.

Every operation is a chain of four simple ones (`Edit`): appending a block, removing one, appending
a parameter, putting other instructions into a block.  So it is enough to look at those.

One more thing can be done: putting a whole block in the place of another one, with the label it
has.  The index knows nothing of it.  Layout and index stay in step even so (`Filed`), and the
function is coherent as long as every block of the layout is inserted.

* `Operation.edits`: an operation is a chain of edits;
* `Edit.coherent`, `Edit.extends`: what an edit keeps, and how the function after it compares with
  the one before;
* `representation_invariant`: the same over a whole history;
* `Altered.coherent_iff`: when a function with replaced blocks is coherent.
-/

namespace ShaderIR.Function

open Relation (ReflTransGen)

/-! ## 1. Edits and operations -/

/-- A simple change of a function. -/
inductive Edit : Function → Function → Prop
  | append {f g : Function} {label : Id} {b : BlockKey} (h : f.appendBlock label = .ok (b, g)) :
      Edit f g
  | remove {f g : Function} {b : BlockKey} {is : List Instruction}
      (h : f.removeBlock b = .ok (is, g)) : Edit f g
  | param {f g : Function} {i : Instruction} (h : f.pushParam i = .ok g) : Edit f g
  | rewrite {f : Function} (b : BlockKey) (is : List Instruction) : Edit f (f.setInstructions b is)

/-- What can be done to a function while its blocks keep their labels. -/
inductive Operation : Function → Function → Prop
  | append {f g : Function} {label : Id} {b : BlockKey} (h : f.appendBlock label = .ok (b, g)) :
      Operation f g
  | remove {f g : Function} {b : BlockKey} {is : List Instruction}
      (h : f.removeBlock b = .ok (is, g)) : Operation f g
  | param {f g : Function} {i : Instruction} (h : f.pushParam i = .ok g) : Operation f g
  | replaceUses {f : Function} (old new : Id) : Operation f (f.replaceAllUses old new)
  | editInstructions {f : Function} {b : BlockKey} {k : Block} (hk : f.block? b = some k)
      (is : List Instruction) : Operation f (f.setInstructions b is)
  | removeUnreachable {f g : Function} {killed killed' : SortedSet Id} {changed : Bool}
      (h : f.removeUnreachable killed = .ok (g, killed', changed)) : Operation f g
  | eliminateDeadBranches {f g : Function} {w w' : Workspace} {changed : Bool}
      (h : f.eliminateDeadBranches w = .ok (g, w', changed)) : Operation f g

/-- One function becomes another by operations. -/
def Becomes (f g : Function) : Prop := ReflTransGen Operation f g

/-- A function that was made by operations. -/
def Built (f : Function) : Prop := ∃ id returnType type, (new id returnType type).Becomes f

variable {d e f g h : Function} {b c : BlockKey} {l label : Id}

/-! ## 2. Operations are chains of edits -/

theorem edits_foldl_setInstructions (t : List Instruction → List Instruction) (bs : List BlockKey)
    (f : Function) :
    ReflTransGen Edit f (bs.foldl (fun g b => g.setInstructions b (t (g.instructions b))) f) := by
  induction bs generalizing f with
  | nil => exact .refl
  | cons b bs ih => exact .head (.rewrite b _) (ih _)

theorem edits_replaceAllUses (f : Function) (old new : Id) :
    ReflTransGen Edit f (f.replaceAllUses old new) :=
  edits_foldl_setInstructions (List.map (fun i => i.replaceUses old new)) f.layout f

theorem edits_editBlock {edit : Block → Except Fault Block}
    (hkeeps : ∀ k k', edit k = .ok k' → k'.label = k.label) (h : f.editBlock b edit = .ok g) :
    ReflTransGen Edit f g := by
  obtain ⟨-, k, -, -, rfl⟩ := editBlock_eq_ok hkeeps h
  exact .single (.rewrite b k.instructions)

theorem edits_removeUnreachable {killed killed' : SortedSet Id} {changed : Bool}
    (h : f.removeUnreachable killed = .ok (g, killed', changed)) : ReflTransGen Edit f g := by
  obtain ⟨live, -, hrun⟩ := bind_eq_ok.mp h
  refine foldlM_induct (P := fun s => ReflTransGen Edit f s.1) hrun .refl ?_
  rintro ⟨g, killed, changed⟩ b s' - hg hstrip
  unfold strip at hstrip
  dsimp only at hstrip
  split at hstrip
  · cases hstrip
    exact hg.tail (.rewrite b _)
  · obtain ⟨k, -, hstrip⟩ := bind_eq_ok.mp hstrip
    obtain ⟨⟨is, g'⟩, hremove, hstrip⟩ := bind_eq_ok.mp hstrip
    cases hstrip
    exact hg.tail (.remove hremove)

theorem edits_keepMerge {s s' : Folding} {sel : SelectionBranch} {live : Id}
    (h : s.keepMerge b sel live = .ok s') : ReflTransGen Edit s.function s'.function := by
  obtain ⟨⟨cond, value, s₁⟩, hcond, h⟩ := bind_eq_ok.mp h
  have hs₁ : s₁.function = s.function := by rw [(Folding.condition_cases hcond).1]
  by_cases hsame : sel.branch = .branchConditional cond (if value then live else sel.merge)
      (if value then sel.merge else live)
  · simp only [if_pos hsame] at h
    cases h
    exact hs₁ ▸ .refl
  · simp only [if_neg hsame] at h
    obtain ⟨g, hg, h⟩ := bind_eq_ok.mp h
    cases h
    exact hs₁ ▸ edits_editBlock (fun _ _ => Block.label_narrowSelection) hg

theorem edits_visit {s s' : Folding} (h : s.visit b = .ok s') :
    ReflTransGen Edit s.function s'.function := by
  unfold Folding.visit at h
  split at h
  · split at h
    · split at h
      · unfold Folding.apply at h
        split at h
        · obtain ⟨g, hg, h⟩ := bind_eq_ok.mp h
          cases h
          exact edits_editBlock (fun _ _ => Block.label_foldSelection) hg
        · exact edits_keepMerge h
        · cases h
          exact .refl
      · cases h
        exact .refl
    · cases h
      exact .refl
  · cases h
    exact .refl

theorem edits_fold {T : ConstantTable} {ids : IdSupply} {s : Folding}
    (h : Folding.run f T ids = .ok s) : ReflTransGen Edit f s.function := by
  obtain ⟨order, -, hrun⟩ := bind_eq_ok.mp h
  exact foldlM_induct (P := fun s => ReflTransGen Edit f s.function) hrun .refl
    (fun _ _ _ _ hs hvisit => hs.trans (edits_visit hvisit))

theorem edits_substitute (f : Function) (rs : List (Id × Id)) :
    ReflTransGen Edit f (PhiRepair.substitute f rs) := by
  induction rs using PhiRepair.replacements_induct generalizing f with
  | hnil =>
    rw [PhiRepair.substitute]
  | hcons old new rest ih =>
    rw [PhiRepair.substitute_cons]
    exact (edits_replaceAllUses f old new).trans (ih _)

theorem edits_repair {T : ConstantTable} {ids : IdSupply} {s : PhiRepair}
    (h : PhiRepair.run f T ids = .ok s) : ReflTransGen Edit f s.function := by
  obtain ⟨s₁, hrun, h⟩ := bind_eq_ok.mp h
  cases h
  refine ReflTransGen.trans ?_ (edits_substitute s₁.function s₁.replacements)
  refine foldlM_induct (P := fun s => ReflTransGen Edit f s.function) hrun .refl ?_
  intro s b s' _ hs hvisit
  unfold PhiRepair.visit at hvisit
  split at hvisit
  · rename_i k _
    obtain ⟨s₁, phis', hmending, -, -, rfl⟩ := PhiRepair.mendBlock_spec (P := fun _ => True)
      (fun _ _ _ _ => trivial) hvisit
    exact hs.tail (.rewrite b _)
  · cases hvisit
    exact hs

/-- **An operation is a chain of edits.** -/
theorem Operation.edits (h : Operation f g) : ReflTransGen Edit f g := by
  cases h with
  | append h => exact .single (.append h)
  | remove h => exact .single (.remove h)
  | param h => exact .single (.param h)
  | replaceUses old new => exact edits_replaceAllUses f old new
  | editInstructions _ is => exact .single (.rewrite _ is)
  | removeUnreachable h => exact edits_removeUnreachable h
  | eliminateDeadBranches h =>
    obtain ⟨folded, hfold, h⟩ := bind_eq_ok.mp h
    obtain ⟨repaired, hrepair, h⟩ := bind_eq_ok.mp h
    obtain ⟨⟨g, killed, removed⟩, hremove, h⟩ := bind_eq_ok.mp h
    cases h
    exact ((edits_fold hfold).trans (edits_repair hrepair)).trans (edits_removeUnreachable hremove)

theorem Becomes.edits (h : f.Becomes g) : ReflTransGen Edit f g := by
  induction h with
  | refl => exact .refl
  | tail _ hop ih => exact ih.trans hop.edits

/-! ## 3. What the edits do -/

theorem block?_isSome_iff : (f.block? b).isSome ↔ ArenaKey.index b < f.capacity := by
  simp [block?, Arena.get?, capacity, Arena.size]

theorem capacity_setInstructions (f : Function) (b : BlockKey) (is : List Instruction) :
    (f.setInstructions b is).capacity = f.capacity := by
  unfold setInstructions
  split
  · exact Arena.size_set _ _ _
  · rfl

/-- The new block stands at the end of the layout, under a key that was never handed out before. -/
theorem appendBlock_eq_ok (h : f.appendBlock label = .ok (b, g)) :
    f.blockOf? label = none ∧ ArenaKey.index b = f.capacity ∧ g.capacity = f.capacity + 1 ∧
      g.layout = f.layout ++ [b] ∧
      (∀ c, g.label? c = if c = b then some label else f.label? c) ∧
      ∀ l, g.blockOf? l = if l = label then some b else f.blockOf? l := by
  unfold appendBlock at h
  split at h
  · cases h
  · rename_i hfree
    obtain ⟨⟨b, blocks⟩, hinsert, h⟩ := bind_eq_ok.mp h
    cases h
    have hget := Arena.get?_insert hinsert
    have hkey : ArenaKey.index b = f.capacity ∧ blocks.size = f.capacity + 1 := by
      unfold Arena.insert at hinsert
      split at hinsert
      · rename_i k hk
        cases hinsert
        exact ⟨ArenaKey.index_eq_of_ofIndex? hk, by simp [Arena.size, capacity]⟩
      · cases hinsert
    refine ⟨?_, hkey.1, hkey.2, rfl, fun c => ?_, fun l => SortedMap.get?_insert _ _ _ _⟩
    · rwa [SortedMap.contains_eq_isSome, Option.not_isSome_iff_eq_none] at hfree
    · simp only [label?, block?, hget]
      split <;> rfl

/-- Only a block of the layout can be removed, and its label stays in it. -/
theorem removeBlock_eq_ok {is : List Instruction} (h : f.removeBlock b = .ok (is, g)) :
    f.isInserted b = true ∧ g.capacity = f.capacity ∧ (∀ c, g.label? c = f.label? c) ∧
      g.layout = f.layout.filter (fun c => c ≠ b) := by
  unfold removeBlock at h
  split at h
  · split at h
    · rename_i hinserted
      cases h
      exact ⟨hinserted, capacity_setInstructions f b [],
        (sameFrame_setInstructions f b []).label?, rfl⟩
    · cases h
  · cases h

/-- A block is removed together with the entry that leads to it. -/
theorem blockOf?_removeBlock {is : List Instruction} (h : f.removeBlock b = .ok (is, g)) :
    ∃ l₀, f.blockOf? l₀ = some b ∧ ∀ l, g.blockOf? l = if l = l₀ then none else f.blockOf? l := by
  unfold removeBlock at h
  split at h
  · rename_i k hk
    split at h
    · rename_i hinserted
      cases h
      refine ⟨k.label, ?_, fun l => SortedMap.get?_erase _ _ _⟩
      simpa [isInserted, label?, hk] using hinserted
    · cases h
  · cases h

/-! ## 4. Layout, index and labels -/

theorem coherent_new (id returnType type : Id) : (new id returnType type).Coherent :=
  ⟨List.nodup_nil, fun _ hb => absurd hb List.not_mem_nil,
    fun l b hlb => by simp [new, blockOf?] at hlb⟩

theorem Coherent.index_lt (hf : f.Coherent) (hb : b ∈ f.layout) :
    ArenaKey.index b < f.capacity := by
  obtain ⟨k, hk, -⟩ := hf.exists_block hb
  exact block?_isSome_iff.mp (by simp [hk])

theorem Coherent.isInserted_iff (hf : f.Coherent) : f.isInserted b = true ↔ b ∈ f.layout := by
  refine ⟨fun hb => ?_, hf.isInserted⟩
  unfold Function.isInserted at hb
  split at hb
  · exact (hf.indexed _ b (of_decide_eq_true hb)).1
  · cases hb

theorem Coherent.appendBlock (hf : f.Coherent) (h : f.appendBlock label = .ok (b, g)) :
    g.Coherent := by
  obtain ⟨hfree, hkey, -, hlayout, hlabel, hindex⟩ := appendBlock_eq_ok h
  have hnew : b ∉ f.layout := fun hb => by
    have := hf.index_lt hb
    omega
  refine ⟨?_, fun c hc => ?_, fun l c hlc => ?_⟩
  · rw [hlayout]
    exact List.nodup_append.mpr ⟨hf.nodup, List.nodup_singleton b, fun c hc c' hc' heq =>
      hnew (List.mem_singleton.mp hc' ▸ heq ▸ hc)⟩
  · by_cases hcb : c = b
    · subst hcb
      exact ⟨label, by simp [hlabel], by simp [hindex]⟩
    · have hold : c ∈ f.layout := by
        rw [hlayout] at hc
        simpa [hcb] using hc
      obtain ⟨l, hl, hlc⟩ := hf.named c hold
      have hne : l ≠ label := fun he => by
        rw [he, hfree] at hlc
        cases hlc
      exact ⟨l, by rw [hlabel, if_neg hcb, hl], by rw [hindex, if_neg hne, hlc]⟩
  · rw [hindex] at hlc
    split at hlc
    · rename_i hl
      cases hlc
      exact ⟨by simp [hlayout], by simp [hlabel, hl]⟩
    · obtain ⟨hc, hl⟩ := hf.indexed l c hlc
      have hcb : c ≠ b := fun he => hnew (he ▸ hc)
      exact ⟨by simp [hlayout, hc], by rw [hlabel, if_neg hcb, hl]⟩

/-- **An edit keeps layout, index and labels in step.** -/
theorem Edit.coherent (h : Edit f g) (hf : f.Coherent) : g.Coherent := by
  cases h with
  | append h => exact hf.appendBlock h
  | remove h =>
    obtain ⟨g', hg', hcoherent, -⟩ := hf.removeBlock (hf.isInserted_iff.mp (removeBlock_eq_ok h).1)
    obtain ⟨-, rfl⟩ := Prod.mk.inj (Except.ok.inj (hg'.symm.trans h))
    exact hcoherent
  | param h =>
    unfold pushParam at h
    split at h
    · cases h
      exact ⟨hf.nodup, hf.named, hf.indexed⟩
    · cases h
  | rewrite b is => exact (sameFrame_setInstructions f b is).coherent hf

theorem Becomes.coherent (h : f.Becomes g) (hf : f.Coherent) : g.Coherent :=
  h.edits.head_induction_on (motive := fun f _ => f.Coherent → g.Coherent) (fun hg => hg)
    (fun hedit _ ih hf => ih (hedit.coherent hf)) hf

/-- **A function that was made by operations is coherent.** -/
theorem Built.coherent (hf : f.Built) : f.Coherent := by
  obtain ⟨id, returnType, type, hnew⟩ := hf
  exact hnew.coherent (coherent_new id returnType type)

/-! ## 5. Keys -/

/-- How a later function compares with an earlier one: no key is forgotten and every block keeps its
label, but of the old keys none comes into the layout. -/
structure Extends (f g : Function) : Prop where
  capacity : f.capacity ≤ g.capacity
  label? : ∀ b, ArenaKey.index b < f.capacity → g.label? b = f.label? b
  layout : ∀ b ∈ g.layout, ArenaKey.index b < f.capacity → b ∈ f.layout

theorem Extends.refl (f : Function) : f.Extends f :=
  ⟨Nat.le_refl _, fun _ _ => rfl, fun _ hb _ => hb⟩

theorem Extends.trans (hfg : f.Extends g) (hgh : g.Extends h) : f.Extends h where
  capacity := Nat.le_trans hfg.capacity hgh.capacity
  label? b hb := (hgh.label? b (Nat.lt_of_lt_of_le hb hfg.capacity)).trans (hfg.label? b hb)
  layout b hb hlt := hfg.layout b (hgh.layout b hb (Nat.lt_of_lt_of_le hlt hfg.capacity)) hlt

/-- **An edit takes no key back.** -/
theorem Edit.extends (h : Edit f g) : f.Extends g := by
  cases h with
  | append h =>
    obtain ⟨-, hkey, hcapacity, hlayout, hlabel, -⟩ := appendBlock_eq_ok h
    refine ⟨by omega, fun c hc => ?_, fun c hc hlt => ?_⟩
    · rw [hlabel, if_neg (fun he => by rw [he] at hc; omega)]
    · rw [hlayout] at hc
      rcases List.mem_append.mp hc with hc | hc
      · exact hc
      · rw [List.mem_singleton.mp hc] at hlt
        omega
  | remove h =>
    obtain ⟨-, hcapacity, hlabel, hlayout⟩ := removeBlock_eq_ok h
    refine ⟨Nat.le_of_eq hcapacity.symm, fun c _ => hlabel c, fun c hc _ => ?_⟩
    rw [hlayout] at hc
    exact (List.mem_filter.mp hc).1
  | param h =>
    unfold pushParam at h
    split at h
    · cases h
      exact ⟨Nat.le_refl _, fun _ _ => rfl, fun _ hb _ => hb⟩
    · cases h
  | rewrite b is =>
    have hframe := sameFrame_setInstructions f b is
    exact ⟨Nat.le_of_eq (capacity_setInstructions f b is).symm, fun c _ => hframe.label? c,
      fun c hc _ => hframe.layout ▸ hc⟩

theorem Becomes.extends (h : f.Becomes g) : f.Extends g := by
  exact h.edits.head_induction_on (motive := fun f _ => f.Extends g) (.refl g)
    (fun hedit _ ih => hedit.extends.trans ih)

/-! ## 6. The invariant -/

/-- **What holds of a function whatever has been done to it.**  The layout has no repetitions, the
index leads from the labels of its blocks to these blocks and nowhere else, a block is inserted
exactly if it stands in the layout, and no two of them have one label.  Compared with any earlier
state, no key has been forgotten; and a block that had left the layout has not come back and carries
its label still. -/
theorem representation_invariant (hf : f.Built) :
    f.layout.Nodup ∧ (∀ l b, f.blockOf? l = some b ↔ b ∈ f.layout ∧ f.label? b = some l) ∧
      (∀ b, f.isInserted b = true ↔ b ∈ f.layout) ∧
      (∀ b ∈ f.layout, ∀ c ∈ f.layout, f.label? b = f.label? c → b = c) ∧
      (∀ e : Function, e.Becomes f → e.capacity ≤ f.capacity) ∧
      (∀ (d e : Function) b label, d.appendBlock label = .ok (b, e) → e.Becomes f →
        ArenaKey.index b < f.capacity) ∧
      ∀ d e : Function, d.Built → d.Becomes e → e.Becomes f → ∀ b ∈ d.layout, b ∉ e.layout →
        b ∉ f.layout ∧ f.label? b = d.label? b := by
  have hc := hf.coherent
  refine ⟨hc.nodup, fun l b => hc.blockOf?_eq_some_iff, fun b => hc.isInserted_iff, ?_, ?_, ?_, ?_⟩
  · intro b hb c hc' hsame
    obtain ⟨l, hl, -⟩ := hc.named b hb
    exact hc.eq_of_label? hb hc' hl (hsame ▸ hl)
  · exact fun e he => he.extends.capacity
  · intro d e b label happend he
    obtain ⟨-, hkey, hcapacity, -⟩ := appendBlock_eq_ok happend
    have := he.extends.capacity
    omega
  · intro d e hd hde hef b hb hgone
    have hlt := hd.coherent.index_lt hb
    refine ⟨fun hback => hgone (hef.extends.layout b hback ?_),
      (hde.extends.trans hef.extends).label? b hlt⟩
    exact Nat.lt_of_lt_of_le hlt hde.extends.capacity

/-- Two blocks, `%10` and `%11`. -/
def twoBlocks : Function := .ofBlocks ⟨1⟩ ⟨2⟩ ⟨3⟩ [.empty ⟨10⟩, .empty ⟨11⟩]

/-- What is left of them without the first. -/
def secondBlock : Function := { twoBlocks with layout := [⟨1⟩], labels := .ofList [(⟨11⟩, ⟨1⟩)] }

/-- A new block with the label of the first. -/
def relabelled : Function :=
  { twoBlocks with
    blocks := ⟨#[.empty ⟨10⟩, .empty ⟨11⟩, .empty ⟨10⟩]⟩
    layout := [⟨1⟩, ⟨2⟩]
    labels := .ofList [(⟨10⟩, ⟨2⟩), (⟨11⟩, ⟨1⟩)] }

/-- The label `%10` is used again: it leads to the new block, while the old one carries it still. -/
theorem representation_invariant_relabelled :
    twoBlocks.Built ∧ twoBlocks.Becomes secondBlock ∧ secondBlock.Becomes relabelled ∧
      relabelled.Built ∧ relabelled.blockOf? ⟨10⟩ = some ⟨2⟩ ∧
      ⟨0⟩ ∉ relabelled.layout ∧ relabelled.label? ⟨0⟩ = twoBlocks.label? ⟨0⟩ := by
  have hone : (new ⟨1⟩ ⟨2⟩ ⟨3⟩).appendBlock ⟨10⟩ =
      .ok (⟨0⟩, .ofBlocks ⟨1⟩ ⟨2⟩ ⟨3⟩ [.empty ⟨10⟩]) := by decide
  have htwo : (ofBlocks ⟨1⟩ ⟨2⟩ ⟨3⟩ [.empty ⟨10⟩]).appendBlock ⟨11⟩ = .ok (⟨1⟩, twoBlocks) := by
    decide
  have hremove : twoBlocks.removeBlock ⟨0⟩ = .ok ([], secondBlock) := by decide
  have hreuse : secondBlock.appendBlock ⟨10⟩ = .ok (⟨2⟩, relabelled) := by decide
  have hd : twoBlocks.Built := ⟨⟨1⟩, ⟨2⟩, ⟨3⟩, .tail (.single (.append hone)) (.append htwo)⟩
  have hde : twoBlocks.Becomes secondBlock := .single (.remove hremove)
  have hef : secondBlock.Becomes relabelled := .single (.append hreuse)
  have hf : relabelled.Built := by
    obtain ⟨id, returnType, type, hnew⟩ := hd
    exact ⟨id, returnType, type, (hnew.trans hde).trans hef⟩
  obtain ⟨-, hindex, -, -, -, -, hremoved⟩ := representation_invariant hf
  exact ⟨hd, hde, hef, hf, (hindex ⟨10⟩ ⟨2⟩).mpr (by decide),
    hremoved twoBlocks secondBlock hd hde hef ⟨0⟩ (by decide) (by decide)⟩

/-! ## 7. Blocks that are replaced -/

/-- Whatever can be done to a function: operations, and putting a block with any label in the place
of another. -/
inductive Alteration : Function → Function → Prop
  | operation {f g : Function} (h : Operation f g) : Alteration f g
  | assign {f : Function} {b : BlockKey} {k : Block} (hk : f.block? b = some k) (k' : Block) :
      Alteration f (f.setBlock b k')

/-- A function that was made by whatever can be done. -/
def Altered (f : Function) : Prop :=
  ∃ id returnType type, ReflTransGen Alteration (new id returnType type) f

theorem altered_new (id returnType type : Id) : (new id returnType type).Altered :=
  ⟨id, returnType, type, .refl⟩

theorem Altered.alter (hf : f.Altered) (h : Alteration f g) : g.Altered := by
  obtain ⟨id, returnType, type, hnew⟩ := hf
  exact ⟨id, returnType, type, hnew.tail h⟩

theorem Altered.append (hf : f.Altered) (h : f.appendBlock label = .ok (b, g)) : g.Altered :=
  hf.alter (.operation (.append h))

theorem Altered.assign {k : Block} (hf : f.Altered) (hk : f.block? b = some k) (k' : Block) :
    (f.setBlock b k').Altered := hf.alter (.assign hk k')

/-- Layout and index fit together, whatever the labels of the blocks are. -/
structure Filed (f : Function) : Prop where
  /-- No block stands in the layout twice. -/
  nodup : f.layout.Nodup
  /-- Keys of the layout have been handed out. -/
  stored : ∀ b ∈ f.layout, ArenaKey.index b < f.capacity
  /-- The index leads into the layout. -/
  listed : ∀ l b, f.blockOf? l = some b → b ∈ f.layout
  /-- No two entries of the index lead to one block. -/
  once : ∀ l l' b, f.blockOf? l = some b → f.blockOf? l' = some b → l = l'

theorem filed_new (id returnType type : Id) : (new id returnType type).Filed where
  nodup := List.nodup_nil
  stored b hb := absurd hb List.not_mem_nil
  listed l b hb := by simp [new, blockOf?] at hb
  once l l' b hb := by simp [new, blockOf?] at hb

theorem Filed.appendBlock (hf : f.Filed) (h : f.appendBlock label = .ok (b, g)) : g.Filed := by
  obtain ⟨hfree, hkey, hcapacity, hlayout, -, hindex⟩ := appendBlock_eq_ok h
  have hnew : b ∉ f.layout := by
    intro hb
    have := hf.stored b hb
    omega
  have hold : ∀ l, f.blockOf? l ≠ some b := fun l hl => hnew (hf.listed l b hl)
  refine ⟨?_, ?_, ?_, ?_⟩
  · rw [hlayout]
    exact List.nodup_append.mpr ⟨hf.nodup, List.nodup_singleton b, fun c hc c' hc' heq =>
      hnew (List.mem_singleton.mp hc' ▸ heq ▸ hc)⟩
  · rw [hlayout, hcapacity]
    refine List.forall_mem_append.mpr ⟨?_, List.forall_mem_singleton.mpr (by omega)⟩
    intro c hc
    have := hf.stored c hc
    omega
  · intro l c hc
    rw [hindex] at hc
    rw [hlayout, List.mem_append, List.mem_singleton]
    split at hc
    · exact .inr (Option.some.inj hc).symm
    · exact .inl (hf.listed l c hc)
  · intro l l' c hl hl'
    rw [hindex] at hl hl'
    split at hl <;> split at hl'
    · rename_i he he'
      rw [he, he']
    · cases hl
      exact absurd hl' (hold l')
    · cases hl'
      exact absurd hl (hold l)
    · exact hf.once l l' c hl hl'

theorem Filed.removeBlock {is : List Instruction} (hf : f.Filed)
    (h : f.removeBlock b = .ok (is, g)) : g.Filed := by
  obtain ⟨-, hcapacity, -, hlayout⟩ := removeBlock_eq_ok h
  obtain ⟨l₀, hl₀, hindex⟩ := blockOf?_removeBlock h
  have hless : ∀ l c, g.blockOf? l = some c → f.blockOf? l = some c := by
    intro l c hc
    rw [hindex] at hc
    split at hc
    · cases hc
    · exact hc
  refine ⟨?_, ?_, ?_, ?_⟩
  · rw [hlayout]
    exact hf.nodup.filter _
  · intro c hc
    rw [hlayout] at hc
    rw [hcapacity]
    exact hf.stored c (List.mem_filter.mp hc).1
  · intro l c hc
    rw [hlayout]
    refine List.mem_filter.mpr ⟨hf.listed l c (hless l c hc), ?_⟩
    -- the entry that led to the block is gone, and it was the only one
    simp only [ne_eq, decide_not, Bool.not_eq_true', decide_eq_false_iff_not]
    rintro rfl
    have hl := hf.once l l₀ c (hless l c hc) hl₀
    rw [hindex, if_pos hl] at hc
    cases hc
  · exact fun l l' c hl hl' => hf.once l l' c (hless l c hl) (hless l' c hl')

theorem SameFrame.filed (hfg : SameFrame f g) (hcapacity : g.capacity = f.capacity)
    (hf : f.Filed) : g.Filed where
  nodup := hfg.layout ▸ hf.nodup
  stored b hb := hcapacity ▸ hf.stored b (hfg.layout ▸ hb)
  listed l b hb := hfg.layout ▸ hf.listed l b (hfg.blockOf? l ▸ hb)
  once l l' b hl hl' := hf.once l l' b (hfg.blockOf? l ▸ hl) (hfg.blockOf? l' ▸ hl')

/-- **An edit keeps layout and index in step**, whatever the labels of the blocks are. -/
theorem Edit.filed (h : Edit f g) (hf : f.Filed) : g.Filed := by
  cases h with
  | append h => exact hf.appendBlock h
  | remove h => exact hf.removeBlock h
  | param h =>
    unfold pushParam at h
    split at h
    · cases h
      exact ⟨hf.nodup, hf.stored, hf.listed, hf.once⟩
    · cases h
  | rewrite b is =>
    exact (sameFrame_setInstructions f b is).filed (capacity_setInstructions f b is) hf

theorem Alteration.filed (h : Alteration f g) (hf : f.Filed) : g.Filed := by
  cases h with
  | operation h =>
    exact h.edits.head_induction_on (motive := fun f _ => f.Filed → g.Filed) (fun hg => hg)
      (fun hedit _ ih hf => ih (hedit.filed hf)) hf
  | @assign b k _ k' =>
    refine ⟨hf.nodup, ?_, hf.listed, hf.once⟩
    intro c hc
    have hcapacity : (f.setBlock b k').capacity = f.capacity := Arena.size_set _ _ _
    exact hcapacity ▸ hf.stored c hc

theorem Altered.filed (hf : f.Altered) : f.Filed := by
  obtain ⟨id, returnType, type, hnew⟩ := hf
  induction hnew with
  | refl => exact filed_new id returnType type
  | tail _ hlast ih => exact hlast.filed ih

/-- **Whatever has been done to a function, it is coherent as long as every block of its layout is
inserted.** -/
theorem Altered.coherent_iff (hf : f.Altered) :
    f.Coherent ↔ ∀ b ∈ f.layout, f.isInserted b = true := by
  refine ⟨fun hc b hb => hc.isInserted hb, fun hin => ?_⟩
  have hfiled := hf.filed
  have hnamed : ∀ b ∈ f.layout, ∃ l, f.label? b = some l ∧ f.blockOf? l = some b := by
    intro b hb
    have hb' := hin b hb
    unfold isInserted at hb'
    split at hb'
    · rename_i l hl
      exact ⟨l, hl, of_decide_eq_true hb'⟩
    · cases hb'
  refine ⟨hfiled.nodup, hnamed, ?_⟩
  intro l b hlb
  have hb := hfiled.listed l b hlb
  obtain ⟨l', hl', hlb'⟩ := hnamed b hb
  exact ⟨hb, hfiled.once l l' b hlb hlb' ▸ hl'⟩

end ShaderIR.Function
