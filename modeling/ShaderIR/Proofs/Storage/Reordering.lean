import ShaderIR.Proofs.Runs
import ShaderIR.Storage.Codec

/-!
# Documents up to the order of their fields

The fields of a record stand in no particular order, and the writer of a record that comes from an
unordered map picks one at will.  So what has to be read back as a value is not one document but
every reordering of it.

* `Document.Reordered`: the same document with the fields of its records, at any depth, in some
  other order;
* `Reordered.exists_field`: a field of a record is still found by its name;
* `Faithful`: a stored type whose values are read back from every reordering of their documents;
* `ReadBack`: what that says of one value.
-/

namespace ShaderIR

/-! ## 1. Reorderings -/

namespace Document

/-- The names of the fields of a record. -/
def names (entries : List (String × Document)) : List String := entries.map Prod.fst

/-- The second document is the first with the fields of its records in some other order.  Items of
a list keep their places, and a record can only be reordered if its names are distinct. -/
inductive Reordered : Document → Document → Prop where
  /-- Nothing is moved. -/
  | refl (d : Document) : Reordered d d
  /-- Each item of a list is reordered where it stands. -/
  | list {items items' : List Document} (hlength : items.length = items'.length)
      (hitems : ∀ (i : Nat) d d', items[i]? = some d → items'[i]? = some d' → Reordered d d') :
      Reordered (.list items) (.list items')
  /-- The names are permuted and the value of each is reordered. -/
  | fields {entries entries' : List (String × Document)} (hdistinct : (names entries).Nodup)
      (hnames : (names entries).Perm (names entries'))
      (hvalues : ∀ name d d', (name, d) ∈ entries → (name, d') ∈ entries' → Reordered d d') :
      Reordered (.fields entries) (.fields entries')

theorem mem_names {entries : List (String × Document)} {name : String} :
    name ∈ names entries ↔ ∃ d, (name, d) ∈ entries := by
  simp [names]

/-- A name has one value. -/
theorem value_unique {entries : List (String × Document)} (h : (names entries).Nodup)
    {name : String} {d d' : Document} (hd : (name, d) ∈ entries) (hd' : (name, d') ∈ entries) :
    d = d' := by
  have heq : (name, d) = (name, d') := List.inj_on_of_nodup_map h hd hd' rfl
  exact congrArg Prod.snd heq

/-- A field of a record with distinct names is found by its name. -/
theorem field?_eq_some {entries : List (String × Document)} (h : (names entries).Nodup)
    {name : String} {d : Document} (hd : (name, d) ∈ entries) : field? entries name = some d := by
  cases hfind : entries.find? (fun e => e.1 = name) with
  | none =>
    have hnone := List.find?_eq_none.mp hfind _ hd
    simp at hnone
  | some e =>
    have hname : e.1 = name := by simpa using List.find?_some hfind
    have hmem : (name, e.2) ∈ entries := hname ▸ List.mem_of_find?_eq_some hfind
    rw [field?, hfind, value_unique h hd hmem]
    rfl

namespace Reordered

variable {d : Document} {items : List Document} {entries : List (String × Document)}

/-- A permutation of the fields of a record is a reordering. -/
theorem of_perm {entries' : List (String × Document)} (hdistinct : (names entries).Nodup)
    (h : entries.Perm entries') : (Document.fields entries).Reordered (.fields entries') := by
  refine .fields hdistinct (h.map Prod.fst) (fun name d d' hd hd' => ?_)
  rw [value_unique hdistinct hd (h.mem_iff.mpr hd')]
  exact .refl d'

theorem exists_list (h : (Document.list items).Reordered d) :
    ∃ items', d = .list items' ∧ List.Forall₂ Reordered items items' := by
  cases h with
  | refl => exact ⟨items, rfl, List.forall₂_same.mpr (fun d _ => .refl d)⟩
  | @list _ items' hlength hitems =>
    refine ⟨items', rfl, List.forall₂_iff_get.mpr ⟨hlength, fun i hi hi' => ?_⟩⟩
    exact hitems i _ _ (by simp [hi]) (by simp [hi'])

/-- A reordered record has the same names, and under each a reordering of its value. -/
theorem exists_fields (h : (Document.fields entries).Reordered d)
    (hdistinct : (names entries).Nodup) :
    ∃ entries', d = .fields entries' ∧ (names entries).Perm (names entries') ∧
      ∀ name d d', (name, d) ∈ entries → (name, d') ∈ entries' → Reordered d d' := by
  cases h with
  | refl =>
    refine ⟨entries, rfl, .refl _, fun name d d' hd hd' => ?_⟩
    rw [value_unique hdistinct hd hd']
    exact .refl d'
  | fields _ hnames hvalues => exact ⟨_, rfl, hnames, hvalues⟩

/-- A field of a record is found by its name, wherever it was moved. -/
theorem exists_field (h : (Document.fields entries).Reordered d)
    (hdistinct : (names entries).Nodup) :
    ∃ entries', d = .fields entries' ∧
      ∀ name v, (name, v) ∈ entries → ∃ v', field? entries' name = some v' ∧ v.Reordered v' := by
  obtain ⟨entries', rfl, hnames, hvalues⟩ := h.exists_fields hdistinct
  refine ⟨entries', rfl, fun name v hv => ?_⟩
  obtain ⟨v', hv'⟩ := mem_names.mp (hnames.mem_iff.mp (mem_names.mpr ⟨v, hv⟩))
  exact ⟨v', field?_eq_some (hnames.nodup_iff.mp hdistinct) hv', hvalues name v v' hv hv'⟩

/-- A record with a single field can only be reordered inside it. -/
theorem exists_single {name : String} {v : Document}
    (h : (Document.fields [(name, v)]).Reordered d) :
    ∃ v', d = .fields [(name, v')] ∧ v.Reordered v' := by
  obtain ⟨entries', rfl, hnames, hvalues⟩ := h.exists_fields (by simp [names])
  have hsingle : names entries' = [name] := List.perm_singleton.mp hnames.symm
  obtain ⟨e, rfl, rfl⟩ := List.map_eq_singleton_iff.mp hsingle
  exact ⟨e.2, rfl, hvalues e.1 v e.2 (by simp) (by simp)⟩

end Reordered
end Document

/-! ## 2. Reading back -/

namespace Stored

open Document

/-- A stored type whose values are read back from every reordering of their documents. -/
class Faithful (α : Type) [Stored α] : Prop where
  /-- A reordered document of a value is read as the value. -/
  decode?_of_reordered : ∀ {a : α} {d : Document}, (encode a).Reordered d → decode? d = some a

export Faithful (decode?_of_reordered)

/-- A value is read back from its document and from every reordering of it. -/
def ReadBack {α : Type} [Stored α] (a : α) : Prop :=
  decode? (encode a) = some a ∧ ∀ d : Document, (encode a).Reordered d → decode? d = some a

theorem readBack {α : Type} [Stored α] [Faithful α] (a : α) : ReadBack a :=
  ⟨decode?_of_reordered (.refl _), fun _ => decode?_of_reordered⟩

section Fields

variable {α : Type} [Stored α] [Faithful α] {field : Option Document}

/-- A type that is stored as another one is read back from it. -/
theorem map_decode?_of_reordered {β : Type} {a : α} {d : Document} (h : (encode a).Reordered d)
    (wrap : α → β) : (decode? d).map wrap = some (wrap a) := by
  rw [decode?_of_reordered h]
  rfl

theorem required?_of_reordered {a : α} (h : ∃ d, field = some d ∧ (encode a).Reordered d) :
    required? field = some a := by
  obtain ⟨d, rfl, hd⟩ := h
  exact decode?_of_reordered hd

/-- A value that may be missing is read back if no value is stored as null. -/
theorem optional?_of_reordered (hnull : (decode? .null : Option α) = none) {a? : Option α}
    (h : ∃ d, field = some d ∧ (encodeOptional a?).Reordered d) : optional? field = some a? := by
  obtain ⟨d, rfl, hd⟩ := h
  cases a? with
  | none =>
    cases hd
    rfl
  | some a =>
    have hread : decode? d = some a := decode?_of_reordered hd
    cases d with
    | null => simp [hnull] at hread
    | _ => simp [optional?, hread]

end Fields

instance : Faithful Unit where
  decode?_of_reordered h := by
    cases h
    rfl

instance : Faithful UInt32 where
  decode?_of_reordered {w d} h := by
    cases h
    change (if w.toNat < UInt32.size then some w.toNat.toUInt32 else none) = some w
    rw [if_pos w.toNat_lt_size]
    simp

instance : Faithful String where
  decode?_of_reordered h := by
    cases h
    rfl

instance {α : Type} [Stored α] [Faithful α] : Faithful (List α) where
  decode?_of_reordered {as d} h := by
    obtain ⟨items, rfl, hitems⟩ := Reordered.exists_list h
    refine mapM_eq_some_of_forall₂ ?_
    rw [List.forall₂_map_left_iff] at hitems
    exact (hitems.imp (fun _ _ => decode?_of_reordered)).flip

instance {κ α : Type} [Stored α] [Faithful α] : Faithful (Arena κ α) where
  decode?_of_reordered {a d} h := by
    obtain ⟨entries, rfl, hfield⟩ := Reordered.exists_field h (by simp [names])
    have hslots := required?_of_reordered (hfield "slots" (encode a.slots.toList) (by simp))
    have hunused := required?_of_reordered (hfield "_unused" (encode ()) (by simp [encode]))
    simp [decode?, record?, hslots, hunused]

/-- A name is only read from itself. -/
theorem decodeName?_of_reordered {β : Type} {ofName? : String → Option β} {name : String}
    {b : β} {d : Document} (hname : ofName? name = some b)
    (h : (Document.text name).Reordered d) : decodeName? ofName? d = some b := by
  cases h
  exact hname

end Stored
end ShaderIR
