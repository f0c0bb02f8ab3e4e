import ShaderIR.Listing

/-!
# Spans and lines

A listing is text that grows at its end, line by line.

* `Span.Covers`: a span that covers a part of the text keeps reading it, since what is added comes
  behind;
* `Instruction.isLine_text`: whatever strings an instruction has, it is written on one line.  The
  end of a line inside a string is escaped, and none of the other parts has one.
-/

namespace ShaderIR

/-! ## 1. What a span reads -/

namespace Text.Span

variable {s : Span} {text part before after : String}

/-- The span starts where the part starts and stops where it stops. -/
def Covers (s : Span) (text part : String) : Prop :=
  ∃ before after, text = before ++ part ++ after ∧
    s = ⟨before.utf8ByteSize, (before ++ part).utf8ByteSize⟩

theorem fits_append (before part after : String) :
    Fits ⟨before.utf8ByteSize, (before ++ part).utf8ByteSize⟩ (before ++ part ++ after) := by
  refine ⟨by simp, String.Pos.Raw.isValid_iff_exists_append.mpr ?_,
    String.Pos.Raw.isValid_iff_exists_append.mpr ⟨before ++ part, after, rfl, rfl⟩⟩
  exact ⟨before, part ++ after, String.append_assoc, rfl⟩

/-- **A span reads the part that it covers.** -/
theorem Covers.read? (h : s.Covers text part) : s.read? text = some part := by
  obtain ⟨before, after, rfl, rfl⟩ := h
  rw [Span.read?, dif_pos (fits_append before part after)]
  have hbytes : (before.toByteArray ++ (part.toByteArray ++ after.toByteArray)).extract
      (before.toByteArray.size + 0) (before.toByteArray.size + part.toByteArray.size) =
        part.toByteArray := by
    rw [ByteArray.extract_append_size_add, ByteArray.extract_append_eq_left rfl]
  refine congrArg some (String.toByteArray_inj.mp ?_)
  simpa [String.append_assoc, String.toByteArray_append] using hbytes

/-- What is added at the end does not matter. -/
theorem Covers.append (h : s.Covers text part) (more : String) : s.Covers (text ++ more) part := by
  obtain ⟨before, after, rfl, rfl⟩ := h
  exact ⟨before, after ++ more, by simp [String.append_assoc], rfl⟩

/-- What has just been added is covered by the span from the old end to the new one. -/
theorem covers_append (text part : String) :
    Covers ⟨text.utf8ByteSize, (text ++ part).utf8ByteSize⟩ (text ++ part) part :=
  ⟨text, "", by simp, rfl⟩

end Text.Span

/-! ## 2. Lines -/

/-- The text has no end of a line. -/
def IsLine (s : String) : Prop := '\n' ∉ s.toList

instance (s : String) : Decidable (IsLine s) := inferInstanceAs (Decidable (¬ _))

namespace Text

variable {s t : String}

@[simp] theorem isLine_append : IsLine (s ++ t) ↔ IsLine s ∧ IsLine t := by
  simp [IsLine, not_or]

@[simp] theorem isLine_join {l : List String} : IsLine (String.join l) ↔ ∀ s ∈ l, IsLine s := by
  simp [IsLine]

theorem not_mem_toDigits {b : Nat} (hb : 1 < b) (n : Nat) : '\n' ∉ Nat.toDigits b n := by
  have hdigit : ∀ d : Nat, '\n' ≠ d.digitChar := fun d => by simp
  induction n using Nat.strongRecOn with
  | _ n ih =>
    rw [Nat.toDigits_eq_if hb]
    split
    · simp [hdigit]
    · have hlt : n / b < n := Nat.div_lt_self (by omega) hb
      simp [hdigit, ih _ hlt]

@[simp] theorem isLine_repr (n : Nat) : IsLine (Nat.repr n) := by
  rw [IsLine, Nat.toList_repr]
  exact not_mem_toDigits (by omega) n

/-- An escaped character has no end of a line. -/
theorem not_mem_escape (c : Char) : '\n' ∉ escape c := by
  by_cases hc : c = '\n'
  · subst hc
    decide
  · have hc' : '\n' ≠ c := fun h => hc h.symm
    unfold escape
    repeat' split
    all_goals simp [hc', escapeByCode, not_mem_toDigits]

@[simp] theorem isLine_quote (s : String) : IsLine (quote s) := by
  simp [IsLine, quote, not_mem_escape]

end Text

open Text

@[simp] theorem Opcode.isLine_mnemonic (o : Opcode) : IsLine o.mnemonic := by
  cases o <;> decide

@[simp] theorem Id.isLine_text (x : Id) : IsLine x.text := by
  have hsign : IsLine "%" := by decide
  simp [Id.text, hsign]

@[simp] theorem Operand.isLine_text (o : Operand) : IsLine o.text := by
  cases o <;> simp [Operand.text]

namespace Instruction

theorem isLine_padLeft {s : String} (hs : IsLine s) (width : Nat) : IsLine (padLeft width s) := by
  have hblanks : IsLine (String.ofList (List.replicate (width - s.length) ' ')) := by simp [IsLine]
  simp [padLeft, hblanks, hs]

@[simp] theorem isLine_resultColumn (result? : Option Id) : IsLine (resultColumn result?) := by
  cases result? with
  | none => decide
  | some x =>
    have hsign : IsLine " = " := by decide
    simp [resultColumn, isLine_padLeft, hsign]

/-- **An instruction is one line.** -/
theorem isLine_text (i : Instruction) : IsLine i.text := by
  have hop : IsLine "Op" := by decide
  have hblank : IsLine " " := by decide
  simp [Instruction.text, hop, hblank]

end Instruction
end ShaderIR
