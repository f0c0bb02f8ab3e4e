/-!
# Text counted in bytes

Places in a text are counted in bytes of UTF-8, so one may lie in the middle of a character.

* `fitting`: a text that is written to a place with room for so many bytes;
* `Span`: the part of a text between two places.  A span that starts or stops inside a character
  cannot be read.
-/

namespace ShaderIR.Text

/-- The character that stands for a broken one. -/
def replacementChar : Char := Char.ofNat 0xfffd

/-- The characters that fit into `room` bytes of UTF-8.  A character of which only some bytes fit is
shown as broken, and nothing follows it. -/
def fitting (room : Nat) : List Char → List Char
  | [] => []
  | c :: rest =>
    if c.utf8Size ≤ room then c :: fitting (room - c.utf8Size) rest
    else if room = 0 then []
    else [replacementChar]

/-- A run of consecutive bytes. -/
structure Span where
  /-- The first byte. -/
  start : Nat
  /-- The byte after the last one. -/
  stop : Nat
deriving DecidableEq, Repr

namespace Span

/-- Whether both ends lie between characters of the text, the start not behind the stop. -/
def Fits (s : Span) (text : String) : Prop :=
  s.start ≤ s.stop ∧ String.Pos.Raw.IsValid text ⟨s.start⟩ ∧ String.Pos.Raw.IsValid text ⟨s.stop⟩

instance (s : Span) (text : String) : Decidable (s.Fits text) :=
  inferInstanceAs (Decidable (_ ∧ _ ∧ _))

/-- The part of the text, if the span fits it. -/
def read? (s : Span) (text : String) : Option String :=
  if h : s.Fits text then some (text.extract (text.pos ⟨s.start⟩ h.2.1) (text.pos ⟨s.stop⟩ h.2.2))
  else none

end Span

end ShaderIR.Text
