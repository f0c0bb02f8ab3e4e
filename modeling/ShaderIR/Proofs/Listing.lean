import ShaderIR.Proofs.Function.Editing
import ShaderIR.Proofs.Runs
import ShaderIR.Proofs.Text

/-!
# What a listing shows

The text of a block, of a function and of a module can be said without a listing: lines one after
the other.  A listing writes the text of the whole module once and remembers places in it.  Here it
is proved that the text is right and that each place holds the text of its function or block, no
matter what stands before and behind it.

* `Places`: each place holds the text of its key;
* `Written`: what is known when some of the functions have been written, `Written.writeFunction`;
* `listing_exact`: what a finished listing shows.
-/

namespace ShaderIR

open Text (Span)

/-! ## 1. Texts -/

/-- The text of a block: the line of its label and the lines of its instructions. -/
def Block.text (b : Block) : String :=
  Listing.join (Listing.labelLine b.label :: b.instructions.map Instruction.text)

/-- The text of a function: the lines of its definition and of its parameters, the texts of its
blocks in layout order, and the line that ends it. -/
def Function.text (f : Function) : String :=
  Listing.join (f.definition.text :: f.params.map Instruction.text)
    ++ String.join ((f.layout.filterMap f.block?).map Block.text)
    ++ Listing.join [Listing.endLine]

/-- Every block of the layout is there. -/
def Function.HasBlocks (f : Function) : Prop := ∀ b ∈ f.layout, (f.block? b).isSome

namespace Listing

variable {κ : Type} {l l' : Listing} {k : FunctionKey} {f : Function} {header : String}

/-! ## 2. Places -/

/-- Which texts the keys have, and where they are: each place holds a text of its key, and each key
that has a text has a place. -/
structure Places (text : String) (places : List (κ × Span)) (has : κ → String → Prop) : Prop where
  covers : ∀ e ∈ places, ∃ part, has e.1 part ∧ e.2.Covers text part
  placed : ∀ key part, has key part → ∃ s, (key, s) ∈ places

namespace Places

variable {text : String} {places : List (κ × Span)} {has has' : κ → String → Prop}

theorem append (h : Places text places has) (more : String) : Places (text ++ more) places has := by
  refine ⟨fun e he => ?_, h.placed⟩
  obtain ⟨part, hpart, hcovers⟩ := h.covers e he
  exact ⟨part, hpart, hcovers.append more⟩

theorem cons (h : Places text places has) (key : κ) {s : Span} {part : String}
    (hs : s.Covers text part) :
    Places text ((key, s) :: places)
      (fun key' part' => has key' part' ∨ key' = key ∧ part' = part) := by
  refine ⟨fun e he => ?_, ?_⟩
  · rcases List.mem_cons.mp he with rfl | he
    · exact ⟨part, .inr ⟨rfl, rfl⟩, hs⟩
    · obtain ⟨part', hpart', hcovers⟩ := h.covers e he
      exact ⟨part', .inl hpart', hcovers⟩
  · rintro key' part' (hpart' | ⟨rfl, rfl⟩)
    · obtain ⟨s', hs'⟩ := h.placed key' part' hpart'
      exact ⟨s', List.mem_cons_of_mem _ hs'⟩
    · exact ⟨s, List.mem_cons_self ..⟩

theorem congr (h : Places text places has) (hsame : ∀ key part, has key part ↔ has' key part) :
    Places text places has' := by
  obtain rfl : has = has' := funext fun key => funext fun part => propext (hsame key part)
  exact h

variable [DecidableEq κ]

/-- **A key that has one text shows it.** -/
theorem part_eq_ok {places : List (κ × Span)} (h : Places l.text places has) {key : κ}
    {part : String} (hpart : has key part) (hone : ∀ part', has key part' → part' = part) :
    l.part places key = .ok part := by
  have hfound : (places.find? (fun e => e.1 = key)).isSome := by
    obtain ⟨s, hs⟩ := h.placed key part hpart
    rw [List.find?_isSome]
    exact ⟨(key, s), hs, by simp⟩
  obtain ⟨e, he⟩ := Option.isSome_iff_exists.mp hfound
  have hkey : e.1 = key := by simpa using List.find?_some he
  obtain ⟨part', hpart', hcovers⟩ := h.covers e (List.mem_of_find?_eq_some he)
  obtain rfl := hone part' (hkey ▸ hpart')
  simp only [Listing.part, he, hcovers.read?]

/-- A key without a text shows nothing. -/
theorem part_eq_error {places : List (κ × Span)} (h : Places l.text places has) {key : κ}
    (hnone : ∀ part, ¬ has key part) : l.part places key = .error .notInLayout := by
  have hfound : places.find? (fun e => e.1 = key) = none := by
    refine List.find?_eq_none.mpr (fun e he hkey => ?_)
    obtain ⟨part, hpart, -⟩ := h.covers e he
    have hkey : e.1 = key := by simpa using hkey
    exact hnone part (hkey ▸ hpart)
  simp only [Listing.part, hfound]

end Places

/-! ## 3. Writing blocks -/

/-- The text of a key among the blocks `bs` of function `k`. -/
def BlockOf (k : FunctionKey) (f : Function) (bs : List BlockKey) (key : FunctionKey × BlockKey)
    (part : String) : Prop :=
  key.1 = k ∧ key.2 ∈ bs ∧ ∃ block, f.block? key.2 = some block ∧ part = block.text

/-- What is known when the blocks `bs` of a function have been added to a listing. -/
structure WithBlocks (l : Listing) (k : FunctionKey) (f : Function) (bs : List BlockKey)
    (l' : Listing) : Prop where
  text : l'.text = l.text ++ String.join ((bs.filterMap f.block?).map Block.text)
  functions : l'.functions = l.functions
  blocks : ∀ {has : FunctionKey × BlockKey → String → Prop}, Places l.text l.blocks has →
    Places l'.text l'.blocks (fun key part => has key part ∨ BlockOf k f bs key part)

theorem writeBlock_eq_ok_iff {b : BlockKey} :
    (do .ok (l.writeBlock k b (← f.block b)) : Except Fault Listing) = .ok l' ↔
      ∃ block, f.block? b = some block ∧ l.writeBlock k b block = l' := by
  simp only [bind_eq_ok, Function.block_eq_ok_iff, Except.ok.injEq]

/-- **Adding a block puts its text at the end and remembers where it is.** -/
theorem WithBlocks.writeBlock {start : Listing} {bs : List BlockKey} {b : BlockKey} {block : Block}
    (h : WithBlocks start k f bs l) (hb : f.block? b = some block) :
    WithBlocks start k f (bs ++ [b]) (l.writeBlock k b block) where
  text := by
    have hwrite : (l.writeBlock k b block).text = l.text ++ block.text := rfl
    simp [hwrite, h.text, List.filterMap_append, hb, String.append_assoc]
  functions := h.functions
  blocks hstart := by
    refine (((h.blocks hstart).append block.text).cons (k, b)
      (Span.covers_append l.text block.text)).congr (fun key part => ?_)
    rw [or_assoc]
    refine or_congr_right ⟨?_, ?_⟩
    · rintro (⟨hk, hmem, hpart⟩ | ⟨rfl, rfl⟩)
      · exact ⟨hk, List.mem_append_left _ hmem, hpart⟩
      · exact ⟨rfl, by simp, block, hb, rfl⟩
    · rintro ⟨hk, hmem, block', hblock', rfl⟩
      rcases List.mem_append.mp hmem with hmem | hmem
      · exact .inl ⟨hk, hmem, block', hblock', rfl⟩
      · have hkey : key = (k, b) := Prod.ext hk (List.mem_singleton.mp hmem)
        subst hkey
        obtain rfl := Option.some.inj (hblock'.symm.trans hb)
        exact .inr ⟨rfl, rfl⟩

theorem withBlocks_of_writeBlocks (h : l.writeBlocks k f = .ok l') :
    WithBlocks l k f f.layout l' := by
  refine foldlM_induct_done (P := fun bs l' => WithBlocks l k f bs l') h
    ⟨by simp, rfl, fun hl => hl.congr (by simp [BlockOf])⟩ ?_
  intro before b after l₁ l₂ _ hl₁ hstep
  obtain ⟨block, hb, rfl⟩ := writeBlock_eq_ok_iff.mp hstep
  exact hl₁.writeBlock hb

theorem exists_writeBlocks_iff : (∃ l', l.writeBlocks k f = .ok l') ↔ f.HasBlocks := by
  refine exists_foldlM_iff (fun l b _ => ?_)
  simp only [writeBlock_eq_ok_iff, Option.isSome_iff_exists]
  constructor
  · rintro ⟨_, block, hb, -⟩
    exact ⟨block, hb⟩
  · rintro ⟨block, hb⟩
    exact ⟨_, block, hb, rfl⟩

/-! ## 4. Writing functions -/

/-- What is known when the functions `done` have been written behind the header. -/
structure Written (header : String) (done : List (FunctionKey × Function)) (l : Listing) :
    Prop where
  text : l.text = header ++ String.join (done.map (fun e => e.2.text))
  functions : Places l.text l.functions (fun k part => ∃ f, (k, f) ∈ done ∧ part = f.text)
  blocks : Places l.text l.blocks (fun key part => ∃ k f, (k, f) ∈ done ∧
    BlockOf k f f.layout key part)

theorem writeFunction_eq_ok_iff : l.writeFunction k f = .ok l' ↔
    ∃ l₁, (l.write (f.definition.text :: f.params.map Instruction.text)).writeBlocks k f = .ok l₁ ∧
      { l₁.write [endLine] with
        functions := (k, ⟨l.size, (l₁.write [endLine]).size⟩) :: l₁.functions } = l' := by
  simp only [writeFunction, List.map_cons, bind_eq_ok, Except.ok.injEq]
  rfl

theorem exists_writeFunction_iff : (∃ l', l.writeFunction k f = .ok l') ↔ f.HasBlocks := by
  simp only [writeFunction_eq_ok_iff]
  rw [← exists_writeBlocks_iff]
  constructor
  · rintro ⟨_, l₁, hl₁, -⟩
    exact ⟨l₁, hl₁⟩
  · rintro ⟨l₁, hl₁⟩
    exact ⟨_, l₁, hl₁, rfl⟩

/-- **Adding a function puts its text at the end and remembers where it and its blocks are.** -/
theorem Written.writeFunction {done : List (FunctionKey × Function)} (h : Written header done l)
    (hrun : l.writeFunction k f = .ok l') : Written header (done ++ [(k, f)]) l' := by
  obtain ⟨l₁, hblocks, rfl⟩ := writeFunction_eq_ok_iff.mp hrun
  have hl₁ := withBlocks_of_writeBlocks hblocks
  have htext : l₁.text ++ join [endLine] = l.text ++ f.text := by
    rw [hl₁.text, Function.text, write]
    simp only [String.append_assoc]
  refine ⟨?_, ?_, ?_⟩
  · change l₁.text ++ join [endLine] = _
    rw [htext, h.text]
    simp [String.append_assoc]
  · change Places (l₁.text ++ join [endLine]) ((k, ⟨l.text.utf8ByteSize,
      (l₁.text ++ join [endLine]).utf8ByteSize⟩) :: l₁.functions) _
    rw [htext, hl₁.functions]
    refine ((h.functions.append f.text).cons k (Span.covers_append l.text f.text)).congr
      (fun key part => ?_)
    simp only [List.mem_append, List.mem_singleton, Prod.mk.injEq]
    constructor
    · rintro (⟨f', hf', rfl⟩ | ⟨rfl, rfl⟩)
      · exact ⟨f', .inl hf', rfl⟩
      · exact ⟨f, .inr ⟨rfl, rfl⟩, rfl⟩
    · rintro ⟨f', hf' | ⟨rfl, rfl⟩, rfl⟩
      · exact .inl ⟨f', hf', rfl⟩
      · exact .inr ⟨rfl, rfl⟩
  · refine ((hl₁.blocks (h.blocks.append _)).append (join [endLine])).congr (fun key part => ?_)
    simp only [List.mem_append, List.mem_singleton, Prod.mk.injEq]
    constructor
    · rintro (⟨k', f', hf', hpart⟩ | hpart)
      · exact ⟨k', f', .inl hf', hpart⟩
      · exact ⟨k, f, .inr ⟨rfl, rfl⟩, hpart⟩
    · rintro ⟨k', f', hf' | ⟨rfl, rfl⟩, hpart⟩
      · exact .inl ⟨k', f', hf', hpart⟩
      · exact .inr hpart

theorem written_of_ofModule {m : Module} (h : ofModule m = .ok l) :
    Written (join (m.header.map Instruction.text)) m.functions.entries l := by
  have hstart : Written (join (m.header.map Instruction.text)) []
      (empty.write (m.header.map Instruction.text)) :=
    ⟨by simp [write, empty], ⟨by simp [write, empty], by simp⟩, ⟨by simp [write, empty], by simp⟩⟩
  exact foldlM_induct_done (P := Written (join (m.header.map Instruction.text))) h hstart
    (fun _ _ _ _ _ _ hl₁ hstep => hl₁.writeFunction hstep)

theorem exists_ofModule_iff {m : Module} :
    (∃ l, ofModule m = .ok l) ↔ ∀ e ∈ m.functions.entries, e.2.HasBlocks :=
  exists_foldlM_iff (fun _ _ _ => exists_writeFunction_iff)

end Listing

namespace Module

open Listing

/-- **A listing shows every part of a module as if it had been written by itself.**  There is one
unless a layout has a key without a block.  Its text is that of the sections and the functions, one
line per instruction whatever strings there are; the text at the place of a function or of a block
of the layout is that of the function or block, and there are no other places. -/
theorem listing_exact (m : Module) :
    ((∃ l, ofModule m = .ok l) ↔ ∀ k f, m.function? k = some f → f.HasBlocks) ∧
    (∀ i : Instruction, IsLine i.text) ∧
    ∀ l, ofModule m = .ok l →
      m.text = .ok l.text ∧
      l.text = join (m.header.map Instruction.text) ++
        String.join (m.functions.entries.map (fun e => e.2.text)) ∧
      (∀ k f, m.function? k = some f → l.functionText k = .ok f.text) ∧
      (∀ k f b block, m.function? k = some f → b ∈ f.layout → f.block? b = some block →
        l.blockText k b = .ok block.text) ∧
      (∀ k, m.function? k = none → l.functionText k = .error .notInLayout) ∧
      (∀ k b, (∀ f, m.function? k = some f → b ∉ f.layout) →
        l.blockText k b = .error .notInLayout) := by
  refine ⟨?_, Instruction.isLine_text, fun l hl => ?_⟩
  · rw [exists_ofModule_iff]
    exact ⟨fun h k f hf => h (k, f) (Arena.mem_entries_iff.mpr hf),
      fun h e he => h e.1 e.2 (Arena.mem_entries_iff.mp he)⟩
  obtain ⟨htext, hfunctions, hblocks⟩ := written_of_ofModule hl
  simp only [Arena.mem_entries_iff] at hfunctions hblocks
  refine ⟨by rw [Module.text, hl]; rfl, htext, fun k f hf => ?_, fun k f b block hf hb hblock => ?_,
    fun k hk => ?_, fun k b hkb => ?_⟩
  · refine hfunctions.part_eq_ok ⟨f, hf, rfl⟩ ?_
    rintro part ⟨f', hf', rfl⟩
    rw [Option.some.inj (hf'.symm.trans hf)]
  · refine hblocks.part_eq_ok ⟨k, f, hf, rfl, hb, block, hblock, rfl⟩ ?_
    rintro part ⟨k', f', hf', rfl, -, block', hblock', rfl⟩
    obtain rfl := Option.some.inj (hf'.symm.trans hf)
    rw [Option.some.inj (hblock'.symm.trans hblock)]
  · refine hfunctions.part_eq_error ?_
    rintro part ⟨f, hf, -⟩
    cases hf.symm.trans hk
  · refine hblocks.part_eq_error ?_
    rintro part ⟨k', f, hf, rfl, hb, -⟩
    exact hkb f hf hb

/-- A module with characters of one to four bytes, some of them escaped, in the sections before its
only function and inside it. -/
def polyglot : Module := { Module.empty with
  extensions := [⟨.extension, none, none, [.string "Übung"]⟩]
  debug := [⟨.name, none, none, [.ref ⟨3⟩, .string "größe\n😀\u0301"]⟩]
  globals := [⟨.typeVoid, none, some ⟨1⟩, []⟩]
  functions := ⟨#[.ofBlocks ⟨3⟩ ⟨1⟩ ⟨2⟩ [
    ⟨⟨4⟩, [⟨.line, none, none, [.string "水\t"]⟩, .branch ⟨5⟩]⟩,
    ⟨⟨5⟩, [⟨.line, none, none, [.string "é"]⟩, ⟨.ret, none, none, []⟩]⟩]]⟩ }

/-- The whole text starts with the lines of three sections, and goes on with that of the function,
which has those of its blocks inside. -/
theorem listing_exact_polyglot :
    ∃ l whole first second, ofModule polyglot = .ok l ∧
      l.text = "        OpExtension \"Übung\"\n" ++
        "        OpName %3 \"größe\\n😀\\u\x7b301\x7d\"\n" ++ "   %1 = OpTypeVoid\n" ++ whole ∧
      l.functionText ⟨0⟩ = .ok whole ∧
      whole = "   %3 = OpFunction %1 0 %2\n" ++ first ++ second ++ "        OpFunctionEnd\n" ∧
      l.blockText ⟨0⟩ ⟨0⟩ = .ok first ∧
      first = "   %4 = OpLabel\n        OpLine \"水\\t\"\n        OpBranch %5\n" ∧
      l.blockText ⟨0⟩ ⟨1⟩ = .ok second ∧
      second = "   %5 = OpLabel\n        OpLine \"é\"\n        OpReturn\n" ∧
      l.functionText ⟨1⟩ = .error .notInLayout ∧
      l.blockText ⟨0⟩ ⟨2⟩ = .error .notInLayout := by
  obtain ⟨hlists, -, hshows⟩ := listing_exact polyglot
  have hentries : ∀ e ∈ polyglot.functions.entries, ∀ b ∈ e.2.layout, (e.2.block? b).isSome := by
    decide
  obtain ⟨l, hl⟩ := hlists.mpr
    (fun k f hf => hentries (k, f) (Arena.mem_entries_iff.mpr hf))
  obtain ⟨-, htext, hfunction, hblock, hnoFunction, hnoBlock⟩ := hshows l hl
  refine ⟨l, _, _, _, hl, ?_, hfunction ⟨0⟩ _ rfl, ?_, hblock ⟨0⟩ _ ⟨0⟩ _ rfl (by decide) rfl, ?_,
    hblock ⟨0⟩ _ ⟨1⟩ _ rfl (by decide) rfl, ?_, hnoFunction ⟨1⟩ rfl, hnoBlock _ _ ?_⟩
  · rw [htext]
    decide +kernel
  · decide +kernel
  · decide +kernel
  · decide +kernel
  · intro f hf
    obtain rfl := Option.some.inj hf
    decide

end Module
end ShaderIR
