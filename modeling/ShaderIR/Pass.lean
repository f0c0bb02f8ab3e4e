import ShaderIR.DeadBranch.Elimination
import ShaderIR.Listing
import ShaderIR.Sink
import ShaderIR.Validity.Check

/-!
# Passes

A pass takes a module to a module and reports a status; on the side it may write to a place of type
`σ`.  A list of passes is again a pass: it runs one after the other and stops at the first failure.

* `Pass.deadBranches`, `Pass.check`: the transformation and the check;
* `Pass.printModule`, `Pass.printOrder`: writing a module and its structured orders;
* `Pass.sequence`: several passes as one;
* `runNamedWith`, `runNamed`: passes chosen by name.
-/

namespace ShaderIR

/-- A named step over modules with a place `σ` to write to. -/
structure Pass (σ : Type) where
  /-- The name of the pass. -/
  name : String
  /-- What it does to a module. -/
  run : Module → σ → Except Fault (Module × Status × σ)

namespace Pass

variable {σ : Type}

/-! ## 1. The passes -/

/-- Eliminates dead branches in modules with allowed extensions. -/
def deadBranches (w : Whitelist) : Pass σ where
  name := "eliminate-dead-branches"
  run m place := do
    let (m, status) ← m.eliminateDeadBranches w
    .ok (m, status, place)

/-- Fails on a module that breaks a rule. -/
def check : Pass σ where
  name := "verify"
  run m place := do
    let violations ← m.check
    .ok (m, if violations.isEmpty then .unchanged else .failure, place)

/-- The status of a pass that only writes. -/
def writtenStatus (complete : Bool) : Status := if complete then .unchanged else .failure

/-- Writes the text of the module. -/
def printModule (name : String) (writer : Writer σ) : Pass σ where
  name := name
  run m place := do
    let (complete, place) := writer (← m.text) place
    .ok (m, writtenStatus complete, place)

/-- The line of a function: its id and the labels in structured order. -/
def orderLine (f : Function) : Except Fault String := do
  let order ← f.readStructuredOrder
  .ok (f.id.text ++ ":" ++ String.join ((f.labelsOf order).map (fun l => " " ++ l.text)) ++ "\n")

/-- Writes the lines of functions until the writer takes no more. -/
def writeOrders (writer : Writer σ) (place : σ) : List Function → Except Fault (Bool × σ)
  | [] => .ok (true, place)
  | f :: fs => do
    let (complete, place) := writer (← orderLine f) place
    if complete then writeOrders writer place fs else .ok (false, place)

/-- Writes the structured order of every function, one line each. -/
def printOrder (name : String) (writer : Writer σ) : Pass σ where
  name := name
  run m place := do
    let (complete, place) ← writeOrders writer place m.functions.slots.toList
    .ok (m, writtenStatus complete, place)

/-! ## 2. Several passes -/

/-- Runs passes in order, up to the first that fails. -/
def runAll (m : Module) (status : Status) (place : σ) :
    List (Pass σ) → Except Fault (Module × Status × σ)
  | [] => .ok (m, status, place)
  | p :: ps => do
    let (m, result, place) ← p.run m place
    if result.isFailure then .ok (m, status.combine result, place)
    else runAll m (status.combine result) place ps

/-- Several passes as one. -/
def sequence (passes : List (Pass σ)) : Pass σ where
  name := "module-pass-manager"
  run m place := runAll m .unchanged place passes

/-! ## 3. Passes by name -/

/-- The pass with a name, as a tool with these outputs offers it. -/
def ofName (outputs : Outputs σ) (w : Whitelist) (name : String) : Except Refusal (Pass σ) :=
  match name with
  | "eliminate-dead-branches" => .ok (deadBranches w)
  | "verify" => .ok check
  | "module-stdout" => .ok (printModule name outputs.out)
  | "module-stderr" => .ok (printModule name outputs.err)
  | "order-stdout" => .ok (printOrder name outputs.out)
  | "order-stderr" => .ok (printOrder name outputs.err)
  | _ => .error (.unknownPass name)

/-- The passes with the given names.  With `checked`, the module is checked before the first and
after each. -/
def ofNames (outputs : Outputs σ) (w : Whitelist) (checked : Bool) (names : List String) :
    Except Refusal (List (Pass σ)) := do
  let checks : List (Pass σ) := if checked then [check] else []
  let passes ← names.mapM (ofName outputs w)
  .ok (checks ++ passes.flatMap (fun p => p :: checks))

end Pass

/-- Runs the passes with the given names over a module, with these outputs.  An unknown name is
refused before anything is run. -/
def runNamedWith {σ : Type} (outputs : Outputs σ) (place : σ) (m : Module) (checked : Bool)
    (names : List String) (w : Whitelist) :
    Except Refusal (Except Fault (Module × Status × σ)) := do
  let passes ← Pass.ofNames outputs w checked names
  .ok ((Pass.sequence passes).run m place)

/-- The same with outputs that take everything. -/
def runNamed (m : Module) (checked : Bool) (names : List String) (w : Whitelist) :
    Except Refusal (Except Fault (Module × Status × Console)) :=
  runNamedWith Console.outputs Console.empty m checked names w

end ShaderIR
