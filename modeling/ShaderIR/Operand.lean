import ShaderIR.Id
import ShaderIR.Text.Quoted

/-!
# Operands

An operand is a reference to a result, a literal word or a literal string.
-/

namespace ShaderIR

/-- One operand of an instruction. -/
inductive Operand where
  /-- A reference to a result of the module. -/
  | ref (id : Id)
  /-- A literal number or enumerant. -/
  | literal (word : UInt32)
  /-- A literal string. -/
  | string (text : String)
deriving DecidableEq, Repr

namespace Operand

/-- The id of a reference. -/
def id? : Operand → Option Id
  | ref id => some id
  | _ => none

/-- The word of a literal. -/
def literal? : Operand → Option UInt32
  | literal word => some word
  | _ => none

/-- The text of a literal string. -/
def string? : Operand → Option String
  | string text => some text
  | _ => none

/-- Puts `new` in the place of a reference to `old`. -/
def replace (old new : Id) : Operand → Operand
  | ref id => ref (if id = old then new else id)
  | o => o

/-- The operand as a listing shows it. -/
def text : Operand → String
  | ref id => id.text
  | literal word => Nat.repr word.toNat
  | string text => Text.quote text

@[simp] theorem id?_ref (id : Id) : (ref id).id? = some id := rfl
@[simp] theorem id?_literal (word : UInt32) : (literal word).id? = none := rfl
@[simp] theorem id?_string (text : String) : (string text).id? = none := rfl

end Operand
end ShaderIR
