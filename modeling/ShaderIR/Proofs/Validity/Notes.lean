import Mathlib.Data.List.Basic
import ShaderIR.Validity.Check

/-!
# Notes without findings

What it takes for a list of notes to show no violation: no note breaks a rule, no id is defined
twice, every defined or used id lies below the bound, and every used id is defined.

* `Note.findings_eq_nil_iff`, `undefinedIds_eq_nil_iff`: the two parts of the check;
* `Module.check_eq_ok_nil_iff_notes`: the whole check.
-/

namespace ShaderIR

/-- The ids that notes define. -/
def definedIn (ns : List Note) : List Id := ns.filterMap Note.defined?

/-- The ids that notes say are used. -/
def usedIn (ns : List Note) : List Id := ns.filterMap Note.used?

/-- No note breaks a rule. -/
def Unbroken (ns : List Note) : Prop := ∀ v, Note.breaks v ∉ ns

/-! ## 1. Notes put together -/

section Lists

variable {α : Type} {ns ns' : List Note} {n : Note} {notes : α → List Note} {as : List α}

@[simp] theorem definedIn_nil : definedIn [] = [] := rfl
@[simp] theorem usedIn_nil : usedIn [] = [] := rfl
@[simp] theorem unbroken_nil : Unbroken [] := by simp [Unbroken]

@[simp] theorem definedIn_append : definedIn (ns ++ ns') = definedIn ns ++ definedIn ns' :=
  List.filterMap_append

@[simp] theorem usedIn_append : usedIn (ns ++ ns') = usedIn ns ++ usedIn ns' :=
  List.filterMap_append

@[simp] theorem unbroken_append : Unbroken (ns ++ ns') ↔ Unbroken ns ∧ Unbroken ns' := by
  simp only [Unbroken, List.mem_append, not_or, forall_and]

@[simp] theorem definedIn_flatMap :
    definedIn (as.flatMap notes) = as.flatMap (fun a => definedIn (notes a)) :=
  List.filterMap_flatMap

@[simp] theorem usedIn_flatMap :
    usedIn (as.flatMap notes) = as.flatMap (fun a => usedIn (notes a)) :=
  List.filterMap_flatMap

@[simp] theorem unbroken_flatMap : Unbroken (as.flatMap notes) ↔ ∀ a ∈ as, Unbroken (notes a) := by
  simp only [Unbroken, List.mem_flatMap, not_exists, not_and]
  exact ⟨fun h a ha v => h v a ha, fun h v a ha => h a ha v⟩

@[simp] theorem definedIn_unless (holds : Bool) (v : Violation) :
    definedIn (Note.unless holds v) = [] := by
  cases holds <;> rfl

@[simp] theorem usedIn_unless (holds : Bool) (v : Violation) :
    usedIn (Note.unless holds v) = [] := by
  cases holds <;> rfl

@[simp] theorem unbroken_unless {holds : Bool} {v : Violation} :
    Unbroken (Note.unless holds v) ↔ holds = true := by
  cases holds <;> simp [Unbroken, Note.unless]

@[simp] theorem Instruction.definedIn_notes (i : Instruction) :
    definedIn i.notes = i.result?.toList := by
  have huses : definedIn (i.uses.map .uses) = [] := by
    simp [definedIn, List.filterMap_map, Note.defined?, Function.comp_def]
  rw [Instruction.notes, definedIn_append, huses]
  cases i.result? <;> rfl

@[simp] theorem Instruction.usedIn_notes (i : Instruction) : usedIn i.notes = i.uses := by
  have huses : usedIn (i.uses.map .uses) = i.uses := by
    simp [usedIn, List.filterMap_map, Note.used?, Function.comp_def]
  rw [Instruction.notes, usedIn_append, huses]
  cases i.result? <;> rfl

@[simp] theorem Instruction.unbroken_notes (i : Instruction) : Unbroken i.notes := by
  simp [Unbroken, Instruction.notes]

end Lists

/-! ## 2. The findings -/

theorem Note.outOfBounds_eq_nil_iff {bound : UInt32} {id : Id} :
    Note.outOfBounds bound id = [] ↔ id.word < bound := by
  unfold Note.outOfBounds
  split <;> simp [*]

/-- The notes show nothing if no rule is broken, the ids defined are new and below the bound, and
the ids used are below the bound. -/
theorem Note.findings_eq_nil_iff {bound : UInt32} {defined : SortedSet Id} {ns : List Note} :
    Note.findings bound defined ns = [] ↔
      Unbroken ns ∧ (definedIn ns).Nodup ∧
        (∀ id ∈ definedIn ns, id.word < bound ∧ defined.contains id = false) ∧
        ∀ id ∈ usedIn ns, id.word < bound := by
  induction ns generalizing defined with
  | nil => simp [Note.findings]
  | cons n ns ih =>
    cases n with
    | defines id =>
      have hd : definedIn (.defines id :: ns) = id :: definedIn ns := rfl
      have hu : usedIn (.defines id :: ns) = usedIn ns := rfl
      have hb : Unbroken (.defines id :: ns) ↔ Unbroken ns := by simp [Unbroken]
      rw [hd, hu, hb]
      simp only [Note.findings, List.append_eq_nil_iff, outOfBounds_eq_nil_iff, ih,
        SortedSet.contains_add, List.nodup_cons, List.mem_cons, forall_eq_or_imp,
        Bool.or_eq_false_iff, decide_eq_false_iff_not]
      constructor
      · rintro ⟨⟨hlt, hnew⟩, hbr, hnd, hdef, huse⟩
        have hnew : defined.contains id = false := by
          by_contra hc
          simp [hc] at hnew
        exact ⟨hbr, ⟨fun hmem => (hdef id hmem).2.1 rfl, hnd⟩, ⟨⟨hlt, hnew⟩,
          fun x hx => ⟨(hdef x hx).1, (hdef x hx).2.2⟩⟩, huse⟩
      · rintro ⟨hbr, ⟨hid, hnd⟩, ⟨⟨hlt, hnew⟩, hdef⟩, huse⟩
        exact ⟨⟨hlt, by simp [hnew]⟩, hbr, hnd,
          fun x hx => ⟨(hdef x hx).1, fun he => hid (he ▸ hx), (hdef x hx).2⟩, huse⟩
    | uses id =>
      have hd : definedIn (.uses id :: ns) = definedIn ns := rfl
      have hu : usedIn (.uses id :: ns) = id :: usedIn ns := rfl
      have hb : Unbroken (.uses id :: ns) ↔ Unbroken ns := by simp [Unbroken]
      rw [hd, hu, hb]
      simp only [Note.findings, List.append_eq_nil_iff, outOfBounds_eq_nil_iff, ih, List.mem_cons,
        forall_eq_or_imp]
      tauto
    | breaks v =>
      have hb : ¬ Unbroken (.breaks v :: ns) := fun h => h v (by simp)
      simp [Note.findings, hb]

/-- Where no rule is broken, nothing is undefined if every used id is defined. -/
theorem undefinedIds_eq_nil_iff {ns : List Note} (hns : Unbroken ns) :
    undefinedIds ns = [] ↔ ∀ id ∈ usedIn ns, id ∈ definedIn ns := by
  have hlabels : ns.filterMap Note.unknownLabel? = [] := by
    refine List.filterMap_eq_nil_iff.mpr (fun n hn => ?_)
    cases n with
    | breaks v => exact absurd hn (hns v)
    | defines id => rfl
    | uses id => rfl
  have herase : ∀ l : List Id, l.eraseDups = [] ↔ l = [] := by
    intro l
    cases l with
    | nil => simp
    | cons a l => simp [List.eraseDups_cons]
  unfold undefinedIds
  rw [herase, List.filter_eq_nil_iff, hlabels, List.append_nil]
  refine forall_congr' (fun id => imp_congr_right (fun _ => ?_))
  simp [definedIn]

namespace Module

theorem check_eq_ok_nil_iff_notes {m : Module} :
    m.check = .ok [] ↔ m.isReadable = true ∧ Unbroken m.notes ∧ (definedIn m.notes).Nodup ∧
      (∀ id ∈ definedIn m.notes, id.word < m.bound) ∧
      ∀ id ∈ usedIn m.notes, id ∈ definedIn m.notes := by
  have hempty : ∀ id : Id, (SortedMap.empty : SortedSet Id).contains id = false := fun _ => rfl
  unfold check
  split
  · rename_i hr
    simp only [Except.ok.injEq, violations, List.append_eq_nil_iff, List.map_eq_nil_iff,
      Note.findings_eq_nil_iff, hr, true_and, hempty, and_true]
    constructor
    · rintro ⟨⟨hbr, hnd, hdef, -⟩, hund⟩
      exact ⟨hbr, hnd, hdef, (undefinedIds_eq_nil_iff hbr).mp hund⟩
    · rintro ⟨hbr, hnd, hdef, huse⟩
      exact ⟨⟨hbr, hnd, hdef, fun id hid => hdef id (huse id hid)⟩,
        (undefinedIds_eq_nil_iff hbr).mpr huse⟩
  · rename_i hr
    simp [hr]

end Module
end ShaderIR
