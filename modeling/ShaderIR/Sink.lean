import ShaderIR.Text.Bytes

/-!
# Where output goes

A writer takes text and says whether it took all of it.  A `Sink` is a place that may only have room
for so many bytes.  A tool has two outputs, and either may refuse text; those of a `Console` never
do.
-/

namespace ShaderIR

/-- Writes text to a place of type `σ` and says whether all of it was taken. -/
abbrev Writer (σ : Type) := String → σ → Bool × σ

/-- A place that takes text up to a number of bytes. -/
structure Sink where
  /-- How many bytes there is room for; without a limit there is room for all. -/
  limit? : Option Nat
  /-- Everything that was sent to the sink. -/
  sent : String

namespace Sink

/-- The sink that nothing was sent to. -/
def empty (limit? : Option Nat) : Sink := ⟨limit?, ""⟩

/-- Whether everything that was sent found room. -/
def hasRoom (s : Sink) : Bool := s.limit?.all (fun limit => s.sent.utf8ByteSize ≤ limit)

/-- Sends text to the sink. -/
def write : Writer Sink := fun text s =>
  let s := { s with sent := s.sent ++ text }
  (s.hasRoom, s)

/-- The text that found room. -/
def accepted (s : Sink) : String :=
  match s.limit? with
  | some limit => String.ofList (Text.fitting limit s.sent.toList)
  | none => s.sent

end Sink

/-- The two outputs of a tool, with a place of type `σ` behind them. -/
structure Outputs (σ : Type) where
  /-- Where a tool prints. -/
  out : Writer σ
  /-- Where it prints diagnostics. -/
  err : Writer σ

/-- What a tool has printed to outputs that take everything. -/
structure Console where
  /-- What was printed. -/
  out : String
  /-- What was printed as a diagnostic. -/
  err : String
deriving DecidableEq, Repr

namespace Console

/-- The console before anything is printed. -/
def empty : Console := ⟨"", ""⟩

/-- Outputs that take everything. -/
def outputs : Outputs Console where
  out text c := (true, { c with out := c.out ++ text })
  err text c := (true, { c with err := c.err ++ text })

end Console
end ShaderIR
