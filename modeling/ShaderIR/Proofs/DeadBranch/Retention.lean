import ShaderIR.Proofs.Block.Parts
import ShaderIR.Proofs.Function.Unique
import ShaderIR.Retention

/-!
# What is kept of dead blocks

A site is a place in a dead block, and an id stands for at most one.  The sites that stay are those
of the needed ids, and what is needed is closed: whatever a live instruction, or an instruction
that is kept, mentions in a dead block is kept as well.

* `Block.exists_split`: where the end of a block begins, be it finished or not;
* `deadSite?_eq_some_iff`: what an id stands for in the dead blocks;
* `mem_sites_of_live`, `mem_sites_of_kept`: the closure;
* `needed_induct`: nothing else is needed;
* `splitKept_eq`: a block that stays keeps its end.
-/

namespace ShaderIR

/-! ## 1. The end of a block -/

namespace Block

variable {k : Block} {front fin : List Instruction} {n : Nat}

/-- What may end a block: nothing, a terminator, or a merge declaration and a terminator. -/
inductive IsEnd : List Instruction → Prop
  | none : IsEnd []
  | terminator {t : Instruction} : t.opcode.isTerminator = true → IsEnd [t]
  | merge {m t : Instruction} : m.opcode.isMerge = true → t.opcode.isTerminator = true →
    IsEnd [m, t]

theorem IsEnd.mem_endPositions (h : IsEnd fin) {l : Id} (hle : front.length ≤ n)
    (hlt : n < (front ++ fin).length) : n ∈ (Block.mk l (front ++ fin)).endPositions := by
  rw [List.length_append] at hlt
  cases h with
  | none =>
    simp only [List.length_nil] at hlt
    omega
  | terminator ht =>
    obtain rfl : n = front.length := by
      simp only [List.length_singleton] at hlt
      omega
    simp [endPositions, terminator?, ht]
  | merge hm ht =>
    obtain rfl | rfl : n = front.length ∨ n = front.length + 1 := by
      simp only [List.length_cons, List.length_nil] at hlt
      omega
    · simp [endPositions, mergeInstruction?, hm, ht]
    · simp [endPositions, terminator?, ht]

/-- A block is a front and its end. -/
structure Split (k : Block) (front fin : List Instruction) : Prop where
  eq : k.instructions = front ++ fin
  isEnd : IsEnd fin
  within : ∀ n ∈ k.endPositions, front.length ≤ n ∧ n < k.instructions.length

/-- The end of a block begins right after its front. -/
theorem Split.mem_endPositions (h : k.Split front fin) :
    n ∈ k.endPositions ↔ front.length ≤ n ∧ n < k.instructions.length := by
  refine ⟨h.within n, fun hn => ?_⟩
  obtain ⟨l, is⟩ := k
  obtain rfl : is = front ++ fin := h.eq
  exact h.isEnd.mem_endPositions hn.1 hn.2

/-- Every block can be split, be it finished or not. -/
theorem exists_split (k : Block) : ∃ front fin, k.Split front fin := by
  obtain ⟨l, is⟩ := k
  rcases List.eq_nil_or_concat' is with rfl | ⟨rest, t, rfl⟩
  · exact ⟨[], [], rfl, .none, by simp [endPositions, terminator?, mergeInstruction?]⟩
  · by_cases ht : t.opcode.isTerminator = true
    · rcases List.eq_nil_or_concat' rest with rfl | ⟨front, m, rfl⟩
      · exact ⟨[], [t], rfl, .terminator ht, by simp [endPositions, mergeInstruction?]⟩
      · by_cases hm : m.opcode.isMerge = true
        · refine ⟨front, [m, t], by simp, .merge hm ht, fun n hn => ?_⟩
          have : front.length + 1 = n ∨ n = front.length := by
            simpa [endPositions, terminator?, mergeInstruction?, hm, ht] using hn
          simp only [List.length_append, List.length_singleton]
          omega
        · refine ⟨front ++ [m], [t], by simp, .terminator ht, ?_⟩
          simp [endPositions, terminator?, mergeInstruction?, hm, ht]
    · refine ⟨rest ++ [t], [], by simp, .none, ?_⟩
      cases hrev : rest.reverse <;> simp [endPositions, terminator?, mergeInstruction?, ht, hrev]

/-- A finished block is split where its body ends. -/
theorem Parts.split {body : List Instruction} {merge? : Option Instruction} {t : Instruction}
    (h : k.Parts body merge? t) : k.Split body (merge?.toList ++ [t]) := by
  refine ⟨by rw [h.eq, List.append_assoc], ?_, fun n hn => ?_⟩
  · cases merge? with
    | none => exact .terminator h.last
    | some m => exact .merge (h.merge m rfl) h.last
  · rw [endPositions, h.terminator?_eq, h.mergeInstruction?_eq, h.eq] at hn
    rw [h.eq]
    cases merge? with
    | none =>
      simp only [Option.map_some, Option.map_none, Option.toList_some, Option.toList_none,
        List.append_nil, List.mem_singleton, List.length_append, List.length_singleton] at hn ⊢
      omega
    | some m =>
      simp only [Option.map_some, Option.toList_some, List.mem_append, List.mem_singleton,
        List.length_append, List.length_singleton] at hn ⊢
      omega

end Block

namespace Function

variable {f : Function} {b c : BlockKey} {x y : Id} {s s' : Site} {i : Instruction} {n : Nat}

/-! ## 2. Dead blocks and their sites -/

/-- A block of the layout that control cannot get to. -/
def Dead (f : Function) (b : BlockKey) : Prop := b ∈ f.layout ∧ ¬ f.Reached b

/-- What an id stands for in the dead blocks. -/
def deadSite? (f : Function) (x : Id) : Option Site :=
  f.site? f.reachable (f.deadDefinitions f.reachable) x

theorem mem_definitionsIn {e : Id × Site} :
    e ∈ f.definitionsIn b ↔
      ∃ n i, (f.instructions b)[n]? = some i ∧ i.result? = some e.1 ∧ e.2 = ⟨b, some n⟩ := by
  simp only [definitionsIn, List.mem_filterMap, List.mem_zipIdx_iff_getElem?,
    Option.map_eq_some_iff]
  constructor
  · rintro ⟨⟨i, n⟩, hi, y, hy, rfl⟩
    exact ⟨n, i, hi, hy, rfl⟩
  · rintro ⟨n, i, hi, hx, hs⟩
    exact ⟨(i, n), hi, e.1, hx, by rw [← hs]⟩

/-- An id stands for a site: its block's, if it is a label, or that of its definition. -/
def StandsFor (f : Function) (x : Id) (s : Site) : Prop :=
  f.Dead s.block ∧
    match s.position? with
    | none => f.label? s.block = some x
    | some n => ∃ i, (f.instructions s.block)[n]? = some i ∧ i.result? = some x

section Coherent

variable (hf : f.Coherent)
include hf

theorem mem_deadBlocks : b ∈ f.deadBlocks f.reachable ↔ f.Dead b := by
  rw [deadBlocks, List.mem_filter, Dead, ← contains_reachable_iff hf]
  simp

theorem mem_deadDefinitions {e : Id × Site} :
    e ∈ f.deadDefinitions f.reachable ↔
      ∃ b n i, f.Dead b ∧ (f.instructions b)[n]? = some i ∧ i.result? = some e.1 ∧
        e.2 = ⟨b, some n⟩ := by
  simp only [deadDefinitions, List.mem_reverse, List.mem_flatMap, mem_deadBlocks hf,
    mem_definitionsIn]
  constructor
  · rintro ⟨b, hb, n, i, h⟩
    exact ⟨b, n, i, hb, h⟩
  · rintro ⟨b, n, i, hb, h⟩
    exact ⟨b, hb, n, i, h⟩

/-- With unique results, an id has one definition in the dead blocks at most. -/
theorem find?_deadDefinitions (hu : f.Unique) :
    (f.deadDefinitions f.reachable).find? (fun e => e.1 = x) = some (x, s) ↔
      (x, s) ∈ f.deadDefinitions f.reachable := by
  constructor
  · exact List.mem_of_find?_eq_some
  · intro hmem
    cases hfind : (f.deadDefinitions f.reachable).find? (fun e => e.1 = x) with
    | none => simpa using List.find?_eq_none.mp hfind _ hmem
    | some e =>
      obtain rfl : e.1 = x := by simpa using List.find?_some hfind
      obtain ⟨b, n, i, hdead, hi, hix, rfl⟩ := (mem_deadDefinitions hf).mp hmem
      obtain ⟨c, m, j, hdead', hj, hjx, hes⟩ :=
        (mem_deadDefinitions hf).mp (List.mem_of_find?_eq_some hfind)
      obtain ⟨rfl, rfl⟩ := hu.place b hdead.1 c hdead'.1 n m i j _ hi hj hix hjx
      exact congrArg some (Prod.ext rfl hes)

/-- **An id stands for what it names.**  With unique ids there is one such place at most. -/
theorem deadSite?_eq_some_iff (hu : f.Unique) : f.deadSite? x = some s ↔ f.StandsFor x s := by
  obtain ⟨b, n?⟩ := s
  unfold deadSite? site?
  cases hx : f.blockOf? x with
  | some c =>
    obtain ⟨hc, hcx⟩ := hf.indexed x c hx
    simp only [StandsFor, Dead]
    constructor
    · intro h
      split at h
      · cases h
      · rename_i hlive
        obtain ⟨rfl, rfl⟩ : c = b ∧ none = n? := by simpa using h
        exact ⟨⟨hc, fun h' => hlive ((contains_reachable_iff hf).mpr h')⟩, hcx⟩
    · rintro ⟨⟨hb, hdead⟩, hn⟩
      cases n? with
      | none =>
        obtain rfl := hf.eq_of_label? hb hc hn hcx
        rw [if_neg (fun h' => hdead ((contains_reachable_iff hf).mp h'))]
      | some n =>
        obtain ⟨i, hi, hix⟩ := hn
        exact absurd hix (hu.label c hc b hb i (List.mem_of_getElem? hi) x hcx)
  | none =>
    simp only [Option.map_eq_some_iff]
    constructor
    · rintro ⟨e, he, hs⟩
      obtain rfl : e.1 = x := by simpa using List.find?_some he
      obtain ⟨c, n, i, hdead, hi, hix, hes⟩ :=
        (mem_deadDefinitions hf).mp (List.mem_of_find?_eq_some he)
      obtain ⟨rfl, rfl⟩ : c = b ∧ some n = n? := by simpa [hes] using hs
      exact ⟨hdead, i, hi, hix⟩
    · rintro ⟨hdead, hn⟩
      cases n? with
      | none =>
        have := hf.blockOf?_eq_some_iff.mpr ⟨hdead.1, hn⟩
        rw [hx] at this
        cases this
      | some n =>
        obtain ⟨i, hi, hix⟩ := hn
        have hmem : (x, (⟨b, some n⟩ : Site)) ∈ f.deadDefinitions f.reachable :=
          (mem_deadDefinitions hf).mpr ⟨b, n, i, hdead, hi, hix, rfl⟩
        exact ⟨_, (find?_deadDefinitions hf hu).mpr hmem, rfl⟩

end Coherent

/-! ## 3. What is needed -/

/-- The sites that stay. -/
def sites (f : Function) : List Site := f.retainedSites f.reachable

theorem mem_usesOf :
    x ∈ f.usesOf s ↔
      ∃ n ∈ f.keptBy s, ∃ i, (f.instructions s.block)[n]? = some i ∧ x ∈ i.uses := by
  simp only [usesOf, List.mem_flatMap]
  constructor
  · rintro ⟨n, hn, hx⟩
    cases hi : (f.instructions s.block)[n]? with
    | none => simp [hi] at hx
    | some i => exact ⟨n, hn, i, hi, by simpa [hi] using hx⟩
  · rintro ⟨n, hn, i, hi, hx⟩
    exact ⟨n, hn, by simpa [hi] using hx⟩

theorem isKept_iff {sites : List Site} :
    f.isKept sites b n = true ↔ ∃ s ∈ sites, s.block = b ∧ n ∈ f.keptBy s := by
  simp [isKept]

theorem isRetained_iff {sites : List Site} :
    isRetained sites b = true ↔ ∃ s ∈ sites, s.block = b := by
  simp [isRetained]

theorem isRetained_of_isKept {sites : List Site} (h : f.isKept sites b n = true) :
    isRetained sites b = true := by
  obtain ⟨s, hs, hsb, -⟩ := isKept_iff.mp h
  exact isRetained_iff.mpr ⟨s, hs, hsb⟩

section Coherent

variable (hf : f.Coherent)
include hf

theorem mem_liveUses :
    x ∈ f.liveUses f.reachable ↔ ∃ b, f.Reached b ∧ ∃ i ∈ f.instructions b, x ∈ i.uses := by
  simp only [liveUses, List.mem_flatMap, List.mem_filter, contains_reachable_iff hf]
  constructor
  · rintro ⟨b, ⟨-, hb⟩, h⟩
    exact ⟨b, hb, h⟩
  · rintro ⟨b, hb, h⟩
    exact ⟨b, ⟨ReachedBy.mem_layout hf hb, hb⟩, h⟩

/-- The search for needed ids passes over no id that stands for something. -/
theorem StandsFor.mem_nodes (h : f.StandsFor x s) :
    x ∈ f.labelsOf (f.deadBlocks f.reachable) ++
      (f.deadDefinitions f.reachable).map Prod.fst := by
  obtain ⟨b, n?⟩ := s
  obtain ⟨hdead, hn⟩ := h
  cases n? with
  | none =>
    exact List.mem_append_left _ (mem_labelsOf.mpr ⟨b, (mem_deadBlocks hf).mpr hdead, hn⟩)
  | some n =>
    obtain ⟨i, hi, hix⟩ := hn
    exact List.mem_append_right _ (List.mem_map.mpr
      ⟨(x, ⟨b, some n⟩), (mem_deadDefinitions hf).mpr ⟨b, n, i, hdead, hi, hix, rfl⟩, rfl⟩)

variable (hu : f.Unique)
include hu

theorem mem_sites : s ∈ f.sites ↔ ∃ x ∈ f.needed f.reachable, f.StandsFor x s := by
  simp only [sites, retainedSites, List.mem_filterMap]
  simp only [← deadSite?_eq_some_iff hf hu, deadSite?]

theorem mem_needs :
    y ∈ f.needs f.reachable (f.deadDefinitions f.reachable) x ↔
      ∃ s, f.StandsFor x s ∧ y ∈ f.usesOf s := by
  unfold needs
  simp only [← deadSite?_eq_some_iff hf hu, deadSite?]
  cases f.site? f.reachable (f.deadDefinitions f.reachable) x <;> simp

/-- **What a live block mentions stays.** -/
theorem mem_sites_of_live (hb : f.Reached b) (hi : i ∈ f.instructions b) (hx : x ∈ i.uses)
    (hs : f.StandsFor x s) : s ∈ f.sites :=
  (mem_sites hf hu).mpr ⟨x, Graph.mem_search_of_root ((mem_liveUses hf).mpr ⟨b, hb, i, hi, hx⟩)
    (hs.mem_nodes hf), hs⟩

/-- **What a kept instruction mentions stays.** -/
theorem mem_sites_of_kept (hkept : f.isKept f.sites b n = true)
    (hi : (f.instructions b)[n]? = some i) (hx : x ∈ i.uses) (hs : f.StandsFor x s) :
    s ∈ f.sites := by
  obtain ⟨r, hr, rfl, hn⟩ := isKept_iff.mp hkept
  obtain ⟨y, hy, hyr⟩ := (mem_sites hf hu).mp hr
  have hneeds := (mem_needs hf hu).mpr ⟨r, hyr, mem_usesOf.mpr ⟨n, hn, i, hi, hx⟩⟩
  exact (mem_sites hf hu).mpr ⟨x, Graph.mem_search_of_edge hy hneeds (hs.mem_nodes hf), hs⟩

/-- **Nothing else is needed.** -/
theorem needed_induct {P : Id → Prop}
    (hlive : ∀ b, f.Reached b → ∀ i ∈ f.instructions b, ∀ x ∈ i.uses, P x)
    (hkept : ∀ x s, P x → f.StandsFor x s → ∀ y ∈ f.usesOf s, P y) (hx : x ∈ f.needed f.reachable) :
    P x := by
  refine (Graph.search_induct ?_ ?_ hx).2
  · intro y hy _
    obtain ⟨b, hb, i, hi, hyi⟩ := (mem_liveUses hf).mp hy
    exact hlive b hb i hi y hyi
  · intro z hz y hy _
    obtain ⟨s, hs, hys⟩ := (mem_needs hf hu).mp hy
    exact hkept z s hz hs y hys

end Coherent

/-! ## 4. What is left of a block -/

theorem mem_splitKept {sites : List Site} {keep : Bool} :
    i ∈ f.splitKept sites b keep ↔
      ∃ n, (f.instructions b)[n]? = some i ∧ f.isKept sites b n = keep := by
  simp only [splitKept, List.mem_map, List.mem_filter, List.mem_zipIdx_iff_getElem?,
    decide_eq_true_eq]
  constructor
  · rintro ⟨⟨j, n⟩, ⟨hj, hn⟩, rfl⟩
    exact ⟨n, hj, hn⟩
  · rintro ⟨n, hi, hn⟩
    exact ⟨(i, n), ⟨hi, hn⟩, rfl⟩

theorem splitKept_sublist (sites : List Site) (b : BlockKey) (keep : Bool) :
    (f.splitKept sites b keep).Sublist (f.instructions b) := by
  have h : ((f.instructions b).zipIdx.filter (fun e => f.isKept sites b e.2 = keep)).Sublist
      (f.instructions b).zipIdx := List.filter_sublist
  simpa [splitKept] using h.map Prod.fst

/-- A block that stays keeps its terminator. -/
theorem getLast?_splitKept {sites : List Site} {k : Block} {t : Instruction}
    (hk : f.block? b = some k) (ht : k.terminator? = some t)
    (hretained : isRetained sites b = true) : (f.splitKept sites b true).getLast? = some t := by
  obtain ⟨before, heq⟩ := List.getLast?_eq_some_iff.mp (Option.filter_eq_some_iff.mp ht).1
  have hkept : f.isKept sites b before.length = true := by
    obtain ⟨s, hs, rfl⟩ := isRetained_iff.mp hretained
    refine isKept_iff.mpr ⟨s, hs, rfl, List.mem_append_right _ ?_⟩
    simp [hk, Block.endPositions, ht, heq]
  rw [splitKept, instructions_of_block? hk, heq, List.zipIdx_append, List.filter_append,
    List.map_append, Nat.zero_add]
  simp [hkept]

theorem mem_keptBy {k : Block} {front fin : List Instruction} (hk : f.block? s.block = some k)
    (h : k.Split front fin) :
    n ∈ f.keptBy s ↔ s.position? = some n ∨ (front.length ≤ n ∧ n < k.instructions.length) := by
  simp [keptBy, hk, h.mem_endPositions]

/-- The instructions of a body that sites name. -/
def namedBody (sites : List Site) (b : BlockKey) (body : List Instruction) : List Instruction :=
  (body.zipIdx.filter (fun e =>
    sites.any (fun s => s.block = b && s.position? = some e.2))).map Prod.fst

theorem namedBody_sublist (sites : List Site) (b : BlockKey) (body : List Instruction) :
    (namedBody sites b body).Sublist body := by
  have h : (body.zipIdx.filter (fun e =>
      sites.any (fun s => s.block = b && s.position? = some e.2))).Sublist body.zipIdx :=
    List.filter_sublist
  simpa [namedBody] using h.map Prod.fst

/-- **A block that stays keeps its end**, and of its front what the sites name. -/
theorem splitKept_eq {sites : List Site} {k : Block} {front fin : List Instruction}
    (hk : f.block? b = some k) (h : k.Split front fin) (hretained : isRetained sites b = true) :
    f.splitKept sites b true = namedBody sites b front ++ fin := by
  have hlen : k.instructions.length = front.length + fin.length := by
    simp [h.eq]
  have hkept : ∀ n, f.isKept sites b n = true ↔
      (∃ s ∈ sites, s.block = b ∧ s.position? = some n) ∨
        (front.length ≤ n ∧ n < k.instructions.length) := by
    intro n
    rw [isKept_iff]
    constructor
    · rintro ⟨s, hs, rfl, hn⟩
      rcases (mem_keptBy hk h).mp hn with hn | hn
      · exact .inl ⟨s, hs, rfl, hn⟩
      · exact .inr hn
    · rintro (⟨s, hs, rfl, hn⟩ | hn)
      · exact ⟨s, hs, rfl, (mem_keptBy hk h).mpr (.inl hn)⟩
      · obtain ⟨s, hs, rfl⟩ := isRetained_iff.mp hretained
        exact ⟨s, hs, rfl, (mem_keptBy hk h).mpr (.inr hn)⟩
  have hfront : front.zipIdx.filter (fun e => f.isKept sites b e.2 = true) =
      front.zipIdx.filter (fun e =>
        sites.any (fun s => s.block = b && s.position? = some e.2)) := by
    refine List.filter_congr (fun e he => ?_)
    have hlt : e.2 < front.length :=
      (List.getElem?_eq_some_iff.mp (List.mem_zipIdx_iff_getElem?.mp he)).1
    have hany : sites.any (fun s => s.block = b && s.position? = some e.2) = true ↔
        ∃ s ∈ sites, s.block = b ∧ s.position? = some e.2 := by simp
    rw [Bool.eq_iff_iff, decide_eq_true_eq, hkept, hany]
    exact or_iff_left (fun hn => by omega)
  have hend : (fin.zipIdx front.length).filter (fun e => f.isKept sites b e.2 = true) =
      fin.zipIdx front.length := by
    refine List.filter_eq_self.mpr (fun e he => ?_)
    obtain ⟨hle, hlt⟩ := List.mem_zipIdx he
    rw [decide_eq_true_eq, hkept]
    exact .inr ⟨hle, by omega⟩
  rw [splitKept, instructions_of_block? hk, h.eq, List.zipIdx_append, List.filter_append,
    Nat.zero_add, hfront, hend, List.map_append, List.zipIdx_map_fst]
  rfl

end Function
end ShaderIR
