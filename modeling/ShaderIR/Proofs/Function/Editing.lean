import ShaderIR.Function
import ShaderIR.Proofs.Runs

/-!
# What edits do to a function

Three things have to fit together in a function: the layout, the index from labels to blocks and
the labels in the blocks.  They do in every function that was put together block by block
(`Coherent`).  Most edits leave all three alone and change instructions only (`SameFrame`); the
removal of a block is the one exception.

* `Coherent.blockOf?_eq_some_iff`: the index finds exactly the labels of the layout;
* `block?_setInstructions`, `block?_foldl_setInstructions`: what putting in other instructions does;
* `Coherent.removeBlock`: what the removal of a block does.
-/

namespace ShaderIR.Function

variable {f g h : Function} {b c : BlockKey} {l : Id}

/-! ## 1. Coherence -/

/-- Layout, index and labels fit together: no block stands in the layout twice, the label of each
leads back to it, and the index leads to nothing else. -/
structure Coherent (f : Function) : Prop where
  /-- No block stands in the layout twice. -/
  nodup : f.layout.Nodup
  /-- The label of a block in the layout leads to it. -/
  named : ∀ b ∈ f.layout, ∃ l, f.label? b = some l ∧ f.blockOf? l = some b
  /-- A label leads to the block of the layout that has it. -/
  indexed : ∀ l b, f.blockOf? l = some b → b ∈ f.layout ∧ f.label? b = some l

/-- Coherence can be read off layout and index. -/
theorem coherent_iff :
    f.Coherent ↔ f.layout.Nodup ∧ (∀ b ∈ f.layout, (f.label? b).bind f.blockOf? = some b) ∧
      ∀ e ∈ f.labels.entries, e.2 ∈ f.layout ∧ f.label? e.2 = some e.1 := by
  constructor
  · rintro ⟨hnodup, hnamed, hindexed⟩
    refine ⟨hnodup, fun b hb => ?_, fun e he => hindexed e.1 e.2 (SortedMap.mem_entries_iff.mp he)⟩
    obtain ⟨l, hl, hlb⟩ := hnamed b hb
    rw [hl, Option.bind_some, hlb]
  · rintro ⟨hnodup, hnamed, hindexed⟩
    refine ⟨hnodup, fun b hb => Option.bind_eq_some_iff.mp (hnamed b hb), fun l b hlb => ?_⟩
    exact hindexed (l, b) (SortedMap.mem_entries_iff.mpr hlb)

instance (f : Function) : Decidable f.Coherent := decidable_of_iff _ coherent_iff.symm

/-- The function with the given blocks in the given order. -/
def ofBlocks (id returnType type : Id) (blocks : List Block) : Function :=
  { Function.new id returnType type with
    blocks := ⟨blocks.toArray⟩
    layout := (List.range blocks.length).map (fun n => ⟨n.toUInt32⟩)
    labels := SortedMap.ofList (blocks.zipIdx.map (fun e => (e.1.label, ⟨e.2.toUInt32⟩))) }

theorem label?_of_block? {k : Block} (hb : f.block? b = some k) : f.label? b = some k.label := by
  simp [label?, hb]

theorem instructions_of_block? {k : Block} (hb : f.block? b = some k) :
    f.instructions b = k.instructions := by
  simp [instructions, hb]

theorem targets_of_block? {k : Block} (hb : f.block? b = some k) : f.targets b = k.targets := by
  simp [targets, hb]

theorem block_eq_ok_iff {k : Block} : f.block b = .ok k ↔ f.block? b = some k := by
  unfold block block? Arena.get
  cases f.blocks.get? b <;> simp

theorem Coherent.exists_block (hf : f.Coherent) (hb : b ∈ f.layout) :
    ∃ k, f.block? b = some k ∧ f.blockOf? k.label = some b := by
  obtain ⟨l, hl, hlb⟩ := hf.named b hb
  obtain ⟨k, hk, rfl⟩ := Option.map_eq_some_iff.mp hl
  exact ⟨k, hk, hlb⟩

theorem Coherent.blockOf?_eq_some_iff (hf : f.Coherent) :
    f.blockOf? l = some b ↔ b ∈ f.layout ∧ f.label? b = some l := by
  refine ⟨hf.indexed l b, ?_⟩
  rintro ⟨hb, hl⟩
  obtain ⟨l', hl', hlb⟩ := hf.named b hb
  rw [hl] at hl'
  cases hl'
  exact hlb

/-- Two blocks of the layout with one label are the same block. -/
theorem Coherent.eq_of_label? (hf : f.Coherent) (hb : b ∈ f.layout) (hc : c ∈ f.layout)
    (hlb : f.label? b = some l) (hlc : f.label? c = some l) : b = c := by
  have hb' := hf.blockOf?_eq_some_iff.mpr ⟨hb, hlb⟩
  rw [hf.blockOf?_eq_some_iff.mpr ⟨hc, hlc⟩] at hb'
  exact (Option.some.inj hb').symm

theorem mem_resolve {ls : List Id} : b ∈ f.resolve ls ↔ ∃ l ∈ ls, f.blockOf? l = some b :=
  List.mem_filterMap

theorem mem_labelsOf {bs : List BlockKey} : l ∈ f.labelsOf bs ↔ ∃ b ∈ bs, f.label? b = some l :=
  List.mem_filterMap

theorem mem_body {e : BlockKey × Instruction} :
    e ∈ f.body ↔ e.1 ∈ f.layout ∧ e.2 ∈ f.instructions e.1 := by
  obtain ⟨b, i⟩ := e
  simp only [body, List.mem_flatMap, List.mem_map, Prod.mk.injEq]
  constructor
  · rintro ⟨b', hb', i', hi', rfl, rfl⟩
    exact ⟨hb', hi'⟩
  · rintro ⟨hb, hi⟩
    exact ⟨b, hb, i, hi, rfl, rfl⟩

/-! ## 2. Functions that differ in instructions only -/

/-- The two functions have the same blocks under the same labels; the instructions in them may
differ. -/
structure SameFrame (f g : Function) : Prop where
  id : g.id = f.id
  definition : g.definition = f.definition
  params : g.params = f.params
  layout : g.layout = f.layout
  labels : g.labels = f.labels
  label? : ∀ b, g.label? b = f.label? b

theorem SameFrame.refl (f : Function) : SameFrame f f := ⟨rfl, rfl, rfl, rfl, rfl, fun _ => rfl⟩

theorem SameFrame.trans (hfg : SameFrame f g) (hgh : SameFrame g h) : SameFrame f h where
  id := hgh.id.trans hfg.id
  definition := hgh.definition.trans hfg.definition
  params := hgh.params.trans hfg.params
  layout := hgh.layout.trans hfg.layout
  labels := hgh.labels.trans hfg.labels
  label? b := (hgh.label? b).trans (hfg.label? b)

theorem SameFrame.blockOf? (hfg : SameFrame f g) (l : Id) : g.blockOf? l = f.blockOf? l := by
  rw [Function.blockOf?, Function.blockOf?, hfg.labels]

theorem SameFrame.resolve (hfg : SameFrame f g) (ls : List Id) : g.resolve ls = f.resolve ls := by
  rw [Function.resolve, Function.resolve]
  exact congrArg (List.filterMap · ls) (funext hfg.blockOf?)

theorem SameFrame.labelsOf (hfg : SameFrame f g) (bs : List BlockKey) :
    g.labelsOf bs = f.labelsOf bs := by
  rw [Function.labelsOf, Function.labelsOf]
  exact congrArg (List.filterMap · bs) (funext hfg.label?)

theorem SameFrame.entry? (hfg : SameFrame f g) : g.entry? = f.entry? := by
  rw [Function.entry?, Function.entry?, hfg.layout]

theorem SameFrame.coherent (hfg : SameFrame f g) (hf : f.Coherent) : g.Coherent where
  nodup := hfg.layout ▸ hf.nodup
  named b hb := by
    simp only [hfg.label?, hfg.blockOf?]
    exact hf.named b (hfg.layout ▸ hb)
  indexed l b hl := by
    rw [hfg.blockOf?] at hl
    rw [hfg.layout, hfg.label?]
    exact hf.indexed l b hl

/-! ## 3. Putting in other instructions -/

theorem block?_setBlock (f : Function) (b c : BlockKey) (k : Block) :
    (f.setBlock b k).block? c = if c = b then (f.block? b).map (fun _ => k) else f.block? c := by
  by_cases hc : c = b
  · subst hc
    rw [if_pos rfl]
    exact Arena.get?_set_self _ _ _
  · rw [if_neg hc]
    exact Arena.get?_set_of_ne _ _ (fun he => hc he.symm)

theorem block?_setInstructions (f : Function) (b c : BlockKey) (is : List Instruction) :
    (f.setInstructions b is).block? c =
      if c = b then (f.block? b).map (fun k => { k with instructions := is }) else f.block? c := by
  unfold setInstructions
  cases hb : f.block? b with
  | none =>
    by_cases hc : c = b
    · subst hc
      simp [hb]
    · simp [hc]
  | some k =>
    simp only [block?_setBlock, hb, Option.map_some]

theorem sameFrame_setInstructions (f : Function) (b : BlockKey) (is : List Instruction) :
    SameFrame f (f.setInstructions b is) := by
  refine ⟨?_, ?_, ?_, ?_, ?_, fun c => ?_⟩
  iterate 5 unfold setInstructions; split <;> rfl
  rw [label?, label?, block?_setInstructions]
  split
  · rename_i hc
    subst hc
    cases f.block? c <;> rfl
  · rfl

/-- Putting in the instructions a block has changes nothing. -/
@[simp] theorem setInstructions_self (f : Function) (b : BlockKey) :
    f.setInstructions b (f.instructions b) = f := by
  unfold setInstructions
  split
  · rename_i k hk
    rw [instructions_of_block? hk]
    simp only [setBlock, Arena.set_eq_self hk]
  · rfl

theorem setInstructions_of_block? {k : Block} (hk : f.block? b = some k) (is : List Instruction) :
    f.setInstructions b is = f.setBlock b { k with instructions := is } := by
  simp only [setInstructions, hk]

/-- A block that keeps its label only gets other instructions. -/
theorem setBlock_eq_setInstructions {k k' : Block} (hk : f.block? b = some k)
    (hlabel : k'.label = k.label) : f.setBlock b k' = f.setInstructions b k'.instructions := by
  rw [setInstructions_of_block? hk, ← hlabel]

theorem editBlock_of_block? {edit : Block → Except Fault Block} {k k' : Block}
    (hk : f.block? b = some k) (hedit : edit k = .ok k') (hlabel : k'.label = k.label) :
    f.editBlock b edit = .ok (f.setInstructions b k'.instructions) := by
  rw [← setBlock_eq_setInstructions hk hlabel]
  exact bind_eq_ok.mpr ⟨k, block_eq_ok_iff.mpr hk, bind_eq_ok.mpr ⟨k', hedit, rfl⟩⟩

/-- What an edit does that leaves labels alone. -/
theorem editBlock_eq_ok {edit : Block → Except Fault Block}
    (hkeeps : ∀ k k', edit k = .ok k' → k'.label = k.label) (he : f.editBlock b edit = .ok g) :
    ∃ k k', f.block? b = some k ∧ edit k = .ok k' ∧ g = f.setInstructions b k'.instructions := by
  obtain ⟨k, hk, he⟩ := bind_eq_ok.mp he
  obtain ⟨k', hedit, he⟩ := bind_eq_ok.mp he
  cases he
  have hk : f.block? b = some k := block_eq_ok_iff.mp hk
  exact ⟨k, k', hk, hedit, setBlock_eq_setInstructions hk (hkeeps k k' hedit)⟩

/-! ## 4. Changing several blocks -/

/-- Rewrites the instructions of the blocks of a list, one block after the other. -/
theorem sameFrame_foldl_setInstructions (t : List Instruction → List Instruction)
    (bs : List BlockKey) (f : Function) :
    SameFrame f (bs.foldl (fun g b => g.setInstructions b (t (g.instructions b))) f) := by
  induction bs generalizing f with
  | nil => exact .refl f
  | cons b bs ih => exact (sameFrame_setInstructions f b _).trans (ih _)

/-- A rewriting that changes nothing the second time reaches each block of the list once, however
often the block is listed. -/
theorem block?_foldl_setInstructions {t : List Instruction → List Instruction}
    (ht : ∀ is, t (t is) = t is) (bs : List BlockKey) (f : Function) (c : BlockKey) :
    (bs.foldl (fun g b => g.setInstructions b (t (g.instructions b))) f).block? c =
      if c ∈ bs then (f.block? c).map (fun k => { k with instructions := t k.instructions })
      else f.block? c := by
  induction bs generalizing f with
  | nil => simp
  | cons b bs ih =>
    rw [List.foldl_cons, ih, block?_setInstructions]
    by_cases hc : c = b
    · subst hc
      cases hk : f.block? c <;> simp [hk, instructions, ht]
    · simp [hc]

theorem replaceUses_replaceUses (i : Instruction) (old new : Id) :
    (i.replaceUses old new).replaceUses old new = i.replaceUses old new := by
  simp only [Instruction.replaceUses, List.map_map]
  congr 1
  refine List.map_congr_left (fun o _ => ?_)
  cases o with
  | ref x =>
    by_cases hx : x = old
    · simp [Operand.replace, hx]
    · simp [Operand.replace, hx]
  | literal w => rfl
  | string s => rfl

theorem sameFrame_replaceAllUses (f : Function) (old new : Id) :
    SameFrame f (f.replaceAllUses old new) := by
  unfold replaceAllUses
  exact sameFrame_foldl_setInstructions (List.map (fun i => i.replaceUses old new)) f.layout f

theorem block?_replaceAllUses (f : Function) (old new : Id) (c : BlockKey) :
    (f.replaceAllUses old new).block? c =
      if c ∈ f.layout then
        (f.block? c).map (fun k =>
          { k with instructions := k.instructions.map (fun i => i.replaceUses old new) })
      else f.block? c := by
  have ht : ∀ is : List Instruction,
      (is.map (fun i => i.replaceUses old new)).map (fun i => i.replaceUses old new) =
        is.map (fun i => i.replaceUses old new) := fun is => by
    simp [replaceUses_replaceUses]
  exact block?_foldl_setInstructions ht f.layout f c

/-! ## 5. Removing a block -/

theorem Coherent.isInserted (hf : f.Coherent) (hb : b ∈ f.layout) : f.isInserted b = true := by
  obtain ⟨l, hl, hlb⟩ := hf.named b hb
  simp [Function.isInserted, hl, hlb]

/-- **A block of the layout can be removed.**  It goes out of the layout and its label out of the
index; what is left is coherent, and the other blocks are as they were. -/
theorem Coherent.removeBlock (hf : f.Coherent) (hb : b ∈ f.layout) :
    ∃ g, f.removeBlock b = .ok (f.instructions b, g) ∧ g.Coherent ∧
      g.layout = f.layout.filter (fun c => c ≠ b) ∧
      (∀ c, c ≠ b → g.block? c = f.block? c) ∧
      (∀ l, g.blockOf? l = if f.label? b = some l then none else f.blockOf? l) ∧
      g.id = f.id ∧ g.definition = f.definition ∧ g.params = f.params := by
  obtain ⟨k, hk, hkb⟩ := hf.exists_block hb
  have hframe := sameFrame_setInstructions f b []
  have hother : ∀ c, c ≠ b → (f.setInstructions b []).block? c = f.block? c := fun c hc => by
    rw [block?_setInstructions, if_neg hc]
  have hindex : ∀ l, (f.labels.erase k.label).get? l =
      if f.label? b = some l then none else f.blockOf? l := by
    intro l
    rw [SortedMap.get?_erase, label?_of_block? hk]
    by_cases hl : l = k.label
    · simp [hl]
    · have hl' : k.label ≠ l := fun he => hl he.symm
      simp [hl, hl', blockOf?]
  refine ⟨{ f.setInstructions b [] with
      layout := f.layout.filter (fun c => c ≠ b)
      labels := f.labels.erase k.label }, ?_, ⟨?_, ?_, ?_⟩, rfl, hother, hindex, hframe.id,
    hframe.definition, hframe.params⟩
  · simp [Function.removeBlock, hk, hf.isInserted hb, instructions]
  · exact hf.nodup.filter _
  · intro c hc
    obtain ⟨hcl, hcb⟩ := List.mem_filter.mp hc
    have hcb : c ≠ b := by simpa using hcb
    obtain ⟨l, hl, hlc⟩ := hf.named c hcl
    refine ⟨l, (hframe.label? c).trans hl, (hindex l).trans ?_⟩
    rw [if_neg, hlc]
    intro hlb
    exact hcb (hf.eq_of_label? hcl hb hl hlb)
  · intro l c hlc
    have hlc := (hindex l).symm.trans hlc
    split at hlc
    · cases hlc
    · rename_i hlb
      obtain ⟨hc, hl⟩ := hf.indexed l c hlc
      refine ⟨List.mem_filter.mpr ⟨hc, ?_⟩, (hframe.label? c).trans hl⟩
      have hcb : c ≠ b := fun he => hlb (he ▸ hl)
      simpa using hcb

end ShaderIR.Function
