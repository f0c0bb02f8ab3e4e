import ShaderIR.Proofs.Lists
import ShaderIR.Proofs.Storage.Reordering
import ShaderIR.Storage.Module

/-!
# Stored modules are read back

Whatever a module holds (blocks that no layout lists, labels that lead nowhere, ids that nothing
defines), it is read back from its document, and from every reordering of it.  The index of labels
and the names of a whitelist are unordered; what is read back does not depend on the order they
were written in.

* `SortedMap.ofList_of_perm`: a map is rebuilt from its entries in any order;
* `decodeLabel?_storedName`: the name a label is stored under is read as the label;
* `read_back_in_any_order`: modules, functions, blocks, instructions, operands and whitelists are
  read back.
-/

namespace ShaderIR

open Stored Document

/-! ## 1. Maps from entries in any order -/

namespace SortedMap

variable {κ α : Type} [LT κ] [StrictOrder κ]

theorem nodup_keys (m : SortedMap κ α) : m.keys.Nodup := by
  refine List.pairwise_map.mpr (m.increasing.imp ?_)
  intro a b hlt heq
  exact StrictOrder.irrefl b.1 (heq ▸ hlt)

theorem nodup_entries (m : SortedMap κ α) : m.entries.Nodup :=
  List.Nodup.of_map Prod.fst m.nodup_keys

/-- Maps with the same values are equal. -/
theorem ext_get? [DecidableEq κ] {m m' : SortedMap κ α} (h : ∀ k, m.get? k = m'.get? k) :
    m = m' := by
  have hperm : m.entries.Perm m'.entries := by
    refine (List.perm_ext_iff_of_nodup m.nodup_entries m'.nodup_entries).mpr (fun e => ?_)
    rw [mem_entries_iff, mem_entries_iff, h]
  have heq : m.entries = m'.entries := by
    refine hperm.eq_of_pairwise (fun a b _ _ hab hba => ?_) m.increasing m'.increasing
    exact absurd (StrictOrder.trans hab hba) (StrictOrder.irrefl a.1)
  cases m
  cases m'
  cases heq
  rfl

theorem insert_comm [DecidableLT κ] [DecidableEq κ] (m : SortedMap κ α) {k k' : κ} (h : k ≠ k')
    (v v' : α) : (m.insert k v).insert k' v' = (m.insert k' v').insert k v := by
  refine ext_get? (fun j => ?_)
  simp only [get?_insert]
  by_cases hj : j = k
  · simp [hj, h]
  · simp [hj]

/-- A map is rebuilt from its entries in any order. -/
theorem ofList_of_perm [DecidableLT κ] [DecidableEq κ] {m : SortedMap κ α} {es : List (κ × α)}
    (h : es.Perm m.entries) : ofList es = m := by
  have hfold : ofList es = ofList m.entries := by
    refine h.foldl_eq' (fun a ha b hb m' => ?_) empty
    by_cases hk : a.1 = b.1
    · have hab : a = b :=
        List.inj_on_of_nodup_map m.nodup_keys (h.mem_iff.mp ha) (h.mem_iff.mp hb) hk
      rw [hab]
    · exact insert_comm m' hk a.2 b.2
  rw [hfold, ofList_entries]

end SortedMap

/-- A set is rebuilt from its elements in any order. -/
theorem SortedSet.ofElements_of_perm {κ : Type} [LT κ] [DecidableLT κ] [DecidableEq κ]
    [StrictOrder κ] {s : SortedSet κ} {ks : List κ} (h : ks.Perm s.keys) :
    SortedSet.ofElements ks = s := by
  have hpairs : (ks.map (fun k => (k, ()))).Perm s.entries := by
    have hkeys : s.keys.map (fun k => (k, ())) = s.entries := by
      rw [SortedMap.keys, List.map_map]
      exact List.map_id _
    exact hkeys ▸ h.map _
  rw [← SortedMap.ofList_of_perm hpairs, SortedMap.ofList, List.foldl_map]
  rfl

/-! ## 2. Words, names and instructions -/

instance : Faithful Id where
  decode?_of_reordered {x _} h := map_decode?_of_reordered (a := x.word) h Id.mk

instance : Faithful BlockKey where
  decode?_of_reordered {k _} h := map_decode?_of_reordered (a := k.slot) h BlockKey.mk

instance : Faithful Opcode where
  decode?_of_reordered {o _} h := decodeName?_of_reordered (Opcode.ofMnemonic?_mnemonic o) h

instance : Faithful Capability where
  decode?_of_reordered {c _} h := decodeName?_of_reordered (Capability.ofName?_name c) h

instance : Faithful Operand where
  decode?_of_reordered {o d} h := by
    cases o with
    | ref id =>
      obtain ⟨v, rfl, hv⟩ := Reordered.exists_single h
      exact map_decode?_of_reordered hv Operand.ref
    | literal word =>
      obtain ⟨v, rfl, hv⟩ := Reordered.exists_single h
      exact map_decode?_of_reordered hv Operand.literal
    | string text =>
      obtain ⟨v, rfl, hv⟩ := Reordered.exists_single h
      exact map_decode?_of_reordered hv Operand.string

instance : Faithful Instruction where
  decode?_of_reordered {i d} h := by
    obtain ⟨entries, rfl, hfield⟩ := Reordered.exists_field h (by simp [names])
    have hopcode := required?_of_reordered (hfield "opcode" (encode i.opcode) (by simp))
    have htype := optional?_of_reordered rfl
      (hfield "type_id" (encodeOptional i.type?) (by simp))
    have hresult := optional?_of_reordered rfl
      (hfield "result_id" (encodeOptional i.result?) (by simp))
    have hoperands := required?_of_reordered (hfield "operands" (encode i.operands) (by simp))
    simp [decode?, record?, hopcode, htype, hresult, hoperands]

instance : Faithful Block where
  decode?_of_reordered {b d} h := by
    obtain ⟨entries, rfl, hfield⟩ := Reordered.exists_field h (by simp [names])
    have hlabel := required?_of_reordered (hfield "label" (encode b.label) (by simp))
    have hinstructions := required?_of_reordered (hfield "insts" (encode b.instructions) (by simp))
    simp [decode?, record?, hlabel, hinstructions]

/-! ## 3. The index of labels -/

/-- The name a label is stored under is read as the label. -/
@[simp] theorem decodeLabel?_storedName (x : Id) : decodeLabel? x.storedName = some x := by
  have hread : canonicalDecimal? x.storedName = some x.word.toNat := by
    simp [canonicalDecimal?, Id.storedName]
  simp [decodeLabel?, hread, x.word.toNat_lt_size]

theorem Id.storedName_injective : Function.Injective Id.storedName := by
  intro x y h
  have hxy : some x = some y := by rw [← decodeLabel?_storedName, h, decodeLabel?_storedName]
  exact Option.some.inj hxy

/-- Labels are stored under distinct names. -/
theorem nodup_storedNames (m : SortedMap Id BlockKey) :
    (m.entries.map (fun e => e.1.storedName)).Nodup := by
  have hnames : m.entries.map (fun e => e.1.storedName) = m.keys.map Id.storedName := by
    simp [SortedMap.keys]
  rw [hnames]
  exact m.nodup_keys.map Id.storedName_injective

instance : Faithful (SortedMap Id BlockKey) where
  decode?_of_reordered {m d} h := by
    have hstored : names (m.entries.map (fun e => (e.1.storedName, encode e.2))) =
        m.entries.map (fun e => e.1.storedName) := by simp [names]
    obtain ⟨entries, rfl, hnames, hvalues⟩ :=
      Reordered.exists_fields h (hstored ▸ nodup_storedNames m)
    -- Each field is read as the entry of the map that has its name.
    have hentry : ∀ field ∈ entries, ∃ e, decodeLabelEntry? field = some e ∧ e ∈ m.entries ∧
        e.1.storedName = field.1 := by
      rintro ⟨name, v⟩ hv
      have hname : name ∈ m.entries.map (fun e => e.1.storedName) :=
        hstored ▸ hnames.mem_iff.mpr (mem_names.mpr ⟨v, hv⟩)
      obtain ⟨e, he, rfl⟩ := List.mem_map.mp hname
      have hread : decode? v = some e.2 :=
        decode?_of_reordered (hvalues _ _ v (List.mem_map_of_mem he) hv)
      exact ⟨e, by simp [hread, decodeLabelEntry?], he, rfl⟩
    have : Nonempty (Id × BlockKey) := ⟨⟨0⟩, ⟨0⟩⟩
    choose! read hread hmem hsame using hentry
    have hmapM : entries.mapM decodeLabelEntry? = some (entries.map read) :=
      mapM_eq_some_of_forall₂ (List.forall₂_map_right_iff.mpr (List.forall₂_same.mpr hread))
    -- The names are a permutation of those of the map, so the entries are.
    have hread_names : (entries.map read).map (fun e => e.1.storedName) = names entries := by
      rw [List.map_map]
      exact List.map_congr_left hsame
    have hsubset : entries.map read ⊆ m.entries := by
      intro e he
      obtain ⟨field, hfield, rfl⟩ := List.mem_map.mp he
      exact hmem field hfield
    have hperm : (entries.map read).Perm m.entries := by
      refine perm_of_perm_map (nodup_storedNames m) hsubset ?_
      rw [hread_names]
      exact hstored ▸ hnames.symm
    change (entries.mapM decodeLabelEntry?).map SortedMap.ofList = some m
    rw [hmapM, Option.map_some, SortedMap.ofList_of_perm hperm]

/-! ## 4. Functions and modules -/

instance : Faithful Function where
  decode?_of_reordered {f d} h := by
    obtain ⟨entries, rfl, hfield⟩ := Reordered.exists_field h (by simp [names])
    have hid := required?_of_reordered (hfield "id" (encode f.id) (by simp))
    have hdefinition := required?_of_reordered (hfield "def" (encode f.definition) (by simp))
    have hparams := required?_of_reordered (hfield "params" (encode f.params) (by simp))
    have hblocks := required?_of_reordered (hfield "blocks" (encode f.blocks) (by simp))
    have hlayout := required?_of_reordered (hfield "layout" (encode f.layout) (by simp))
    have hlabels := required?_of_reordered (hfield "labels" (encode f.labels) (by simp))
    simp [decode?, record?, hid, hdefinition, hparams, hblocks, hlayout, hlabels]

instance : Faithful Module where
  decode?_of_reordered {m d} h := by
    obtain ⟨entries, rfl, hfield⟩ := Reordered.exists_field h (by simp [names])
    have hcapabilities := required?_of_reordered
      (hfield "capabilities" (encode m.capabilities) (by simp))
    have hextensions := required?_of_reordered (hfield "extensions" (encode m.extensions) (by simp))
    have himports := required?_of_reordered (hfield "ext_inst_imports" (encode m.imports) (by simp))
    have hmemoryModel := optional?_of_reordered rfl
      (hfield "memory_model" (encodeOptional m.memoryModel) (by simp))
    have hentryPoints := required?_of_reordered
      (hfield "entry_points" (encode m.entryPoints) (by simp))
    have hexecutionModes := required?_of_reordered
      (hfield "execution_modes" (encode m.executionModes) (by simp))
    have hdebug := required?_of_reordered (hfield "debug" (encode m.debug) (by simp))
    have hannotations := required?_of_reordered
      (hfield "annotations" (encode m.annotations) (by simp))
    have hglobals := required?_of_reordered (hfield "types_values" (encode m.globals) (by simp))
    have hfunctions := required?_of_reordered (hfield "functions" (encode m.functions) (by simp))
    have hbound := required?_of_reordered (hfield "id_bound" (encode m.bound) (by simp))
    simp only [decode?, record?, List.map_cons, List.map_nil, Option.bind_eq_bind, Option.bind_some,
      hcapabilities, hextensions, himports, hmemoryModel, hentryPoints, hexecutionModes, hdebug,
      hannotations, hglobals, hfunctions, hbound]

/-- Names are read as the whitelist that has them, in any order. -/
theorem Whitelist.decode?_of_perm {w : Whitelist} {written : List String}
    (h : written.Perm w.names.keys) {d : Document} (hd : (encode written).Reordered d) :
    decode? d = some w := by
  have hread : (decode? d).map Whitelist.ofNames = some (Whitelist.ofNames written) :=
    map_decode?_of_reordered hd Whitelist.ofNames
  have hw : Whitelist.ofNames written = w := by
    rw [Whitelist.ofNames, SortedSet.ofElements_of_perm h]
  exact hw ▸ hread

instance : Faithful Whitelist where
  decode?_of_reordered h := Whitelist.decode?_of_perm (.refl _) h

/-- A module, a function, a block, an instruction, an operand and a whitelist, whatever they hold,
are read back from their documents, with the fields of every record in any order.  The names of a
whitelist may be listed in any order too. -/
theorem read_back_in_any_order :
    (∀ m : Module, ReadBack m) ∧ (∀ f : Function, ReadBack f) ∧ (∀ b : Block, ReadBack b) ∧
    (∀ i : Instruction, ReadBack i) ∧ (∀ o : Operand, ReadBack o) ∧
    (∀ w : Whitelist, ReadBack w ∧ ∀ written : List String, written.Perm w.names.keys →
      decode? (encode written) = some w) :=
  ⟨readBack, readBack, readBack, readBack, readBack, fun w =>
    ⟨readBack w, fun _ h => Whitelist.decode?_of_perm h (.refl _)⟩⟩

namespace Function

/-- A function with a block that its layout does not list, and with two labels. -/
def detached : Function where
  id := ⟨1⟩
  definition := ⟨.function, some ⟨2⟩, some ⟨1⟩, [.literal 0, .ref ⟨3⟩]⟩
  params := []
  blocks := ⟨#[⟨⟨10⟩, [⟨.ret, none, none, []⟩]⟩, ⟨⟨9⟩, []⟩]⟩
  layout := [⟨0⟩]
  labels := SortedMap.ofList [(⟨10⟩, ⟨0⟩), (⟨9⟩, ⟨1⟩)]

/-- Its document with the fields back to front and the labels in the order of their names as texts,
which is not the order of the ids. -/
def detachedShuffled : Document := .fields
  [("labels", .fields [("10", .ofNat 0), ("9", .ofNat 1)]), ("layout", encode detached.layout),
    ("blocks", encode detached.blocks), ("params", encode detached.params),
    ("def", encode detached.definition), ("id", encode detached.id)]

theorem reordered_detachedShuffled : (encode detached).Reordered detachedShuffled := by
  have hlabels : (Document.fields [("9", .ofNat 1), ("10", .ofNat 0)]).Reordered
      (.fields [("10", .ofNat 0), ("9", .ofNat 1)]) := .of_perm (by decide) (.swap _ _ _)
  refine .fields (by simp [names]) (List.reverse_perm _).symm (fun name d d' hd hd' => ?_)
  simp only [List.mem_cons, Prod.mk.injEq, List.not_mem_nil, or_false] at hd hd'
  rcases hd with ⟨rfl, rfl⟩ | ⟨rfl, rfl⟩ | ⟨rfl, rfl⟩ | ⟨rfl, rfl⟩ | ⟨rfl, rfl⟩ | ⟨rfl, rfl⟩
  all_goals
    simp at hd'
    subst hd'
  case inr.inr.inr.inr.inr => exact hlabels
  all_goals exact .refl _

end Function

theorem read_back_in_any_order_shuffled :
    (encode Function.detached).Reordered Function.detachedShuffled ∧
      decode? Function.detachedShuffled = some Function.detached ∧
      ["b", "a"].Perm (Whitelist.ofNames ["a", "b"]).names.keys ∧
      decode? (encode ["b", "a"]) = some (Whitelist.ofNames ["a", "b"]) := by
  have hnames : ["b", "a"].Perm (Whitelist.ofNames ["a", "b"]).names.keys := by decide
  exact ⟨Function.reordered_detachedShuffled,
    (read_back_in_any_order.2.1 Function.detached).2 _ Function.reordered_detachedShuffled,
    hnames, (read_back_in_any_order.2.2.2.2.2 _).2 _ hnames⟩

end ShaderIR
