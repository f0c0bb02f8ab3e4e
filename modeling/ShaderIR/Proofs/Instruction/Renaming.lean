import ShaderIR.DeadBranch.PhiRepair
import ShaderIR.Validity.Check
import ShaderIR.Proofs.Function.Editing
import ShaderIR.Proofs.Instruction.Operands

/-!
# Renaming ids

Replacing ids in an instruction changes its references and nothing else (`Instruction.mapRefs`).
Carrying out a list of replacements one after the other amounts to a single renaming of ids
(`PhiRepair.rename`).

* `block?_substitute`: replacing in a function is renaming in its blocks;
* `rename_of_not_mem`, `rename_eq_or_mem`: what is renamed, and to what;
* `rename_sound`: replacements by equal values are a renaming to equal values;
* `endsAt_rename`: without cycles, an id is renamed to the end of the chain that starts at it;
* `rename_not_mem`: where each value comes before what it replaces, no replaced id is left.
-/

namespace ShaderIR

/-- Puts `g id` in the place of a reference to `id`. -/
def Operand.mapRef (g : Id → Id) : Operand → Operand
  | ref id => ref (g id)
  | o => o

@[simp] theorem Operand.id?_mapRef (g : Id → Id) (o : Operand) :
    (o.mapRef g).id? = o.id?.map g := by
  cases o <;> rfl

@[simp] theorem Operand.literal?_mapRef (g : Id → Id) (o : Operand) :
    (o.mapRef g).literal? = o.literal? := by
  cases o <;> rfl

namespace Instruction

/-! ## 1. Renaming in an instruction -/

/-- Puts `g id` in the place of every reference to `id`.  Type and result stay. -/
def mapRefs (g : Id → Id) (i : Instruction) : Instruction :=
  { i with operands := i.operands.map (Operand.mapRef g) }

variable (g : Id → Id) (i : Instruction)

@[simp] theorem opcode_mapRefs : (i.mapRefs g).opcode = i.opcode := rfl
@[simp] theorem type?_mapRefs : (i.mapRefs g).type? = i.type? := rfl
@[simp] theorem result?_mapRefs : (i.mapRefs g).result? = i.result? := rfl

theorem replaceUses_eq_mapRefs (old new : Id) :
    i.replaceUses old new = i.mapRefs (fun x => if x = old then new else x) := by
  have hreplace : Operand.replace old new = Operand.mapRef (fun x => if x = old then new else x) := by
    funext o
    cases o <;> rfl
  rw [replaceUses, mapRefs, hreplace]

@[simp] theorem mapRefs_mapRefs (h : Id → Id) : (i.mapRefs g).mapRefs h = i.mapRefs (h ∘ g) := by
  have hcomp : Operand.mapRef h ∘ Operand.mapRef g = Operand.mapRef (h ∘ g) := by
    funext o
    cases o <;> rfl
  simp only [mapRefs, List.map_map, hcomp]

@[simp] theorem mapRefs_id : i.mapRefs (fun x => x) = i := by
  have hid : Operand.mapRef (fun x => x) = id := by
    funext o
    cases o <;> rfl
  simp [mapRefs, hid]

theorem mapRefs_congr {i : Instruction} {g h : Id → Id}
    (hgh : ∀ x ∈ i.operands.filterMap Operand.id?, g x = h x) : i.mapRefs g = i.mapRefs h := by
  unfold mapRefs
  congr 1
  refine List.map_congr_left (fun o ho => ?_)
  cases o with
  | ref x => simp [Operand.mapRef, hgh x (List.mem_filterMap.mpr ⟨.ref x, ho, rfl⟩)]
  | literal w => rfl
  | string s => rfl

@[simp] theorem idOperand?_mapRefs (n : Nat) :
    (i.mapRefs g).idOperand? n = (i.idOperand? n).map g := by
  simp only [idOperand?, mapRefs, List.getElem?_map]
  cases i.operands[n]? <;> simp

theorem operandIds_mapRefs :
    (i.mapRefs g).operands.filterMap Operand.id? = (i.operands.filterMap Operand.id?).map g := by
  simp [mapRefs, List.filterMap_map, List.map_filterMap]

theorem uses_mapRefs :
    (i.mapRefs g).uses = i.type?.toList ++ (i.operands.filterMap Operand.id?).map g := by
  rw [uses, operandIds_mapRefs, type?_mapRefs]

@[simp] theorem switchCases_mapRefs : (i.mapRefs g).switchCases =
    i.switchCases.map (Prod.map (Operand.mapRef g) (Operand.mapRef g)) := by
  simp [switchCases, mapRefs, ← List.map_drop, pairs_map]

@[simp] theorem branchTargets_mapRefs :
    (i.mapRefs g).branchTargets = i.branchTargets.map g := by
  unfold branchTargets
  rw [opcode_mapRefs]
  split
  · rw [idOperand?_mapRefs]
    cases i.idOperand? 0 <;> rfl
  · rw [mapRefs, ← List.map_drop, ← List.map_take, List.filterMap_map, List.map_filterMap]
    exact congrArg (List.filterMap · _) (funext (Operand.id?_mapRef g))
  · rw [idOperand?_mapRefs, filterMap_everyOther, filterMap_everyOther, switchCases_mapRefs,
      List.map_append, List.filterMap_map, List.map_filterMap]
    congr 1
    · cases i.idOperand? 1 <;> rfl
    · congr 1
      funext c
      simp
  · rfl

@[simp] theorem mergeTargets?_mapRefs :
    (i.mapRefs g).mergeTargets? = i.mergeTargets?.map (Prod.map g (Option.map g)) := by
  unfold mergeTargets?
  rw [opcode_mapRefs]
  split
  · rw [idOperand?_mapRefs]
    cases i.idOperand? 0 <;> rfl
  · rw [idOperand?_mapRefs, idOperand?_mapRefs]
    cases i.idOperand? 0 <;> cases i.idOperand? 1 <;> rfl
  · rfl

theorem incomingPair?_map (p : Operand × Operand) :
    incomingPair? (Prod.map (Operand.mapRef g) (Operand.mapRef g) p) =
      (incomingPair? p).map (Prod.map g g) := by
  obtain ⟨a, b⟩ := p
  unfold incomingPair?
  simp only [Prod.map_apply, Operand.id?_mapRef]
  cases a.id? <;> cases b.id? <;> rfl

@[simp] theorem phiIncoming_mapRefs :
    (i.mapRefs g).phiIncoming = i.phiIncoming.map (Prod.map g g) := by
  simp only [phiIncoming, mapRefs, pairs_map, List.filterMap_map, List.map_filterMap]
  congr 1
  funext p
  exact incomingPair?_map g p

@[simp] theorem hasReadableTargets_mapRefs :
    (i.mapRefs g).hasReadableTargets = i.hasReadableTargets := by
  unfold hasReadableTargets
  rw [opcode_mapRefs]
  simp only [mapRefs, List.isEmpty_map]

end Instruction

namespace PhiRepair

/-! ## 2. One replacement after the other -/

/-- The replacements that are left once `old` has been replaced by `new`. -/
def redirect (old new : Id) (rs : List (Id × Id)) : List (Id × Id) :=
  rs.map (fun r => (r.1, if r.2 = old then new else r.2))

theorem map_fst_redirect (old new : Id) (rs : List (Id × Id)) :
    (redirect old new rs).map Prod.fst = rs.map Prod.fst := by
  simp [redirect, Function.comp_def]

theorem mem_redirect {old new : Id} {rs : List (Id × Id)} {r : Id × Id} :
    r ∈ redirect old new rs ↔ ∃ r₀ ∈ rs, r = (r₀.1, if r₀.2 = old then new else r₀.2) := by
  simp only [redirect, List.mem_map, eq_comm]

/-- What becomes of an id when replacements are carried out in order. -/
def rename : List (Id × Id) → Id → Id
  | [], x => x
  | (old, new) :: rest, x => rename (redirect old new rest) (if x = old then new else x)
termination_by rs => rs.length
decreasing_by simp [redirect]

/-- Induction along the order in which replacements are carried out. -/
theorem replacements_induct {P : List (Id × Id) → Prop} (hnil : P [])
    (hcons : ∀ old new rest, P (redirect old new rest) → P ((old, new) :: rest)) :
    ∀ rs, P rs := by
  intro rs
  induction hn : rs.length generalizing rs with
  | zero =>
    obtain rfl := List.eq_nil_of_length_eq_zero hn
    exact hnil
  | succ n ih =>
    cases rs with
    | nil => cases hn
    | cons r rest => exact hcons r.1 r.2 rest (ih _ (by simpa [redirect] using hn))

theorem substitute_cons (f : Function) (old new : Id) (rest : List (Id × Id)) :
    substitute f ((old, new) :: rest) =
      substitute (f.replaceAllUses old new) (redirect old new rest) := by
  rw [substitute, redirect]

theorem sameFrame_substitute (f : Function) (rs : List (Id × Id)) :
    f.SameFrame (substitute f rs) := by
  induction rs using replacements_induct generalizing f with
  | hnil =>
    rw [substitute]
    exact .refl f
  | hcons old new rest ih =>
    rw [substitute_cons]
    exact (Function.sameFrame_replaceAllUses f old new).trans (ih _)

/-- **Replacing one after the other is renaming.** -/
theorem block?_substitute (f : Function) (rs : List (Id × Id)) (c : BlockKey) :
    (substitute f rs).block? c =
      if c ∈ f.layout then
        (f.block? c).map (fun k =>
          { k with instructions := k.instructions.map (Instruction.mapRefs (rename rs)) })
      else f.block? c := by
  induction rs using replacements_induct generalizing f with
  | hnil =>
    have hid : Instruction.mapRefs (rename []) = id := by
      funext i
      have hr : rename [] = fun x => x := by
        funext x
        rw [rename]
      rw [hr]
      exact i.mapRefs_id
    rw [substitute]
    split
    · cases f.block? c <;> simp [hid]
    · rfl
  | hcons old new rest ih =>
    have hframe := Function.sameFrame_replaceAllUses f old new
    have hcomp : Instruction.mapRefs (rename (redirect old new rest)) ∘
        (fun i => i.replaceUses old new) = Instruction.mapRefs (rename ((old, new) :: rest)) := by
      funext i
      rw [Function.comp_apply, Instruction.replaceUses_eq_mapRefs, Instruction.mapRefs_mapRefs]
      congr 1
      funext x
      rw [rename]
      rfl
    rw [substitute_cons, ih, hframe.layout, Function.block?_replaceAllUses]
    split
    · cases f.block? c <;> simp [hcomp]
    · rfl

/-- An id that is not replaced stays. -/
theorem rename_of_not_mem {rs : List (Id × Id)} {x : Id} (hx : x ∉ rs.map Prod.fst) :
    rename rs x = x := by
  induction rs using replacements_induct with
  | hnil => rw [rename]
  | hcons old new rest ih =>
    obtain ⟨hne, hrest⟩ : x ≠ old ∧ x ∉ rest.map Prod.fst := by simpa using hx
    rw [rename, if_neg hne]
    exact ih (by rwa [map_fst_redirect])

/-- An id becomes itself or one of the replacing values. -/
theorem rename_eq_or_mem (rs : List (Id × Id)) (x : Id) :
    rename rs x = x ∨ ∃ r ∈ rs, rename rs x = r.2 := by
  induction rs using replacements_induct generalizing x with
  | hnil => exact .inl (by rw [rename])
  | hcons old new rest ih =>
    rw [rename]
    rcases ih (if x = old then new else x) with h | ⟨r, hr, h⟩
    · rw [h]
      split
      · exact .inr ⟨(old, new), by simp, rfl⟩
      · exact .inl rfl
    · rw [h]
      obtain ⟨r₀, hr₀, rfl⟩ := mem_redirect.mp hr
      refine .inr ?_
      dsimp only
      split
      · exact ⟨(old, new), by simp, rfl⟩
      · exact ⟨r₀, List.mem_cons_of_mem _ hr₀, rfl⟩

/-- **Replacements by equal values rename to equal values.**  Only the ids that are available count:
what replaces an available id is available too. -/
theorem rename_sound {α : Type _} {rs : List (Id × Id)} {value : Id → α} {available : Id → Prop}
    (hrs : ∀ r ∈ rs, available r.1 → available r.2 ∧ value r.2 = value r.1) {x : Id}
    (hx : available x) : available (rename rs x) ∧ value (rename rs x) = value x := by
  induction rs using replacements_induct generalizing x with
  | hnil =>
    rw [rename]
    exact ⟨hx, rfl⟩
  | hcons old new rest ih =>
    have hhead := hrs (old, new) (by simp)
    have hrest : ∀ r ∈ redirect old new rest,
        available r.1 → available r.2 ∧ value r.2 = value r.1 := by
      intro r hr hr₁
      obtain ⟨r₀, hr₀, rfl⟩ := mem_redirect.mp hr
      have h₀ := hrs r₀ (List.mem_cons_of_mem _ hr₀) hr₁
      dsimp only
      split
      · rename_i he
        rw [he] at h₀
        have h₁ := hhead h₀.1
        exact ⟨h₁.1, h₁.2.trans h₀.2⟩
      · exact h₀
    rw [rename]
    by_cases he : x = old
    · subst he
      rw [if_pos rfl]
      have h₁ := hhead hx
      have h₂ := ih hrest h₁.1
      exact ⟨h₂.1, h₂.2.trans h₁.2⟩
    · rw [if_neg he]
      exact ih hrest hx

/-! ## 3. Chains of replacements -/

/-- One of the replacements puts `b` in the place of `a`. -/
def Leads (rs : List (Id × Id)) (a b : Id) : Prop := (a, b) ∈ rs

/-- No chain of replacements comes back to its start. -/
def Acyclic (rs : List (Id × Id)) : Prop := ∀ x, ¬ Relation.TransGen (Leads rs) x x

/-- A chain of replacements leads from `x` to `y`, where it ends. -/
structure EndsAt (rs : List (Id × Id)) (x y : Id) : Prop where
  chain : Relation.ReflTransGen (Leads rs) x y
  last : y ∉ rs.map Prod.fst

variable {rs rest : List (Id × Id)} {old new a b x y : Id}

theorem acyclic_of_rank (rank : Id → Nat) (hrank : ∀ r ∈ rs, rank r.2 < rank r.1) :
    Acyclic rs := by
  have hlt : ∀ {a b : Id}, Relation.TransGen (Leads rs) a b → rank b < rank a := by
    intro a b h
    induction h with
    | single h => exact hrank _ h
    | tail _ h ih => exact Nat.lt_trans (hrank _ h) ih
  exact fun x h => Nat.lt_irrefl _ (hlt h)

theorem Acyclic.ne (h : Acyclic rs) (hab : Leads rs a b) : b ≠ a := by
  rintro rfl
  exact h b (.single hab)

/-- A redirected replacement stands for the chain of one or two that it shortens. -/
theorem transGen_of_redirect (h : Leads (redirect old new rest) a b) :
    Relation.TransGen (Leads ((old, new) :: rest)) a b := by
  obtain ⟨r, hr, he⟩ := mem_redirect.mp h
  obtain ⟨rfl, rfl⟩ := Prod.mk.inj he
  have hfirst : Leads ((old, new) :: rest) r.1 r.2 := List.mem_cons_of_mem _ hr
  split
  · rename_i hold
    exact .tail (.single (hold ▸ hfirst)) (List.mem_cons_self ..)
  · exact .single hfirst

theorem Acyclic.redirect (h : Acyclic ((old, new) :: rest)) : Acyclic (redirect old new rest) :=
  fun x hx => h x (Relation.TransGen.closed (fun _ _ => transGen_of_redirect) x x hx)

/-- Once an id has been replaced, nothing leads to it any more. -/
theorem ne_of_redirect (hne : new ≠ old) (h : Leads (redirect old new rest) a b) : b ≠ old := by
  obtain ⟨r, -, he⟩ := mem_redirect.mp h
  rw [(Prod.mk.inj he).2]
  split
  · exact hne
  · assumption

/-- **Renaming leads to the end of the chain.**  Replacing the first id puts its value in its place
and shortens the chains that run through it by that id; their ends stay. -/
theorem endsAt_rename (h : Acyclic rs) (x : Id) : EndsAt rs x (rename rs x) := by
  induction rs using replacements_induct generalizing x with
  | hnil =>
    rw [rename]
    exact ⟨.refl, by simp⟩
  | hcons old new rest ih =>
    have hne : new ≠ old := h.ne (List.mem_cons_self ..)
    have hfirst : Relation.ReflTransGen (Leads ((old, new) :: rest)) x
        (if x = old then new else x) := by
      split
      · rename_i hx
        exact hx ▸ .single (List.mem_cons_self ..)
      · exact .refl
    obtain ⟨hchain, hlast⟩ := ih h.redirect (if x = old then new else x)
    rw [rename]
    refine ⟨hfirst.trans (Relation.reflTransGen_closed
      (fun _ _ hab => (transGen_of_redirect hab).to_reflTransGen) _ _ hchain), ?_⟩
    rw [map_fst_redirect] at hlast
    rw [List.map_cons, List.mem_cons, not_or]
    refine ⟨?_, hlast⟩
    -- the chain ends where it starts or where a redirected replacement leads
    rcases hchain.cases_tail with hstart | ⟨z, -, hz⟩
    · rw [hstart]
      split
      · exact hne
      · assumption
    · exact ne_of_redirect hne hz

/-- **Where each value comes before what it replaces, no replaced id is left.** -/
theorem rename_not_mem {rank : Id → Nat} (hrank : ∀ r ∈ rs, rank r.2 < rank r.1) (x : Id) :
    rename rs x ∉ rs.map Prod.fst :=
  (endsAt_rename (acyclic_of_rank rank hrank) x).last

/-- An id that is replaced is replaced by one value only. -/
theorem Leads.unique (hdistinct : (rs.map Prod.fst).Nodup) (ha : Leads rs x a) (hb : Leads rs x b) :
    a = b :=
  (Prod.mk.inj (List.inj_on_of_nodup_map hdistinct ha hb rfl)).2

/-- **A chain has one end.** -/
theorem EndsAt.unique (hdistinct : (rs.map Prod.fst).Nodup) (ha : EndsAt rs x a)
    (hb : EndsAt rs x b) : a = b := by
  obtain ⟨hchain, hlast⟩ := ha
  have hstuck : ∀ {y z : Id}, y ∉ rs.map Prod.fst → ¬ Leads rs y z :=
    fun hy hyz => hy (List.mem_map_of_mem hyz)
  induction hchain using Relation.ReflTransGen.head_induction_on with
  | refl =>
    rcases hb.chain.cases_head with rfl | ⟨c, hac, -⟩
    · rfl
    · exact absurd hac (hstuck hlast)
  | head hxc _ ih =>
    rcases hb.chain.cases_head with rfl | ⟨c, hxc', hcb⟩
    · exact absurd hxc (hstuck hb.last)
    · obtain rfl := Leads.unique hdistinct hxc hxc'
      exact ih ⟨hcb, hb.last⟩

theorem endsAt_iff (hdistinct : (rs.map Prod.fst).Nodup) (hacyclic : Acyclic rs) :
    EndsAt rs x y ↔ rename rs x = y := by
  have hend := endsAt_rename hacyclic x
  exact ⟨hend.unique hdistinct, fun he => he ▸ hend⟩

end PhiRepair
end ShaderIR
