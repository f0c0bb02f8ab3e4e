import ShaderIR.ConstantTable
import ShaderIR.DeadBranch.Proposal
import ShaderIR.Dominance
import ShaderIR.Selection

/-!
# Folding selections

The headers of a function are visited in structured order, an outer construct before what is nested
in it.  A reachable header whose condition is a known constant gets the strongest legal ending.
-/

namespace ShaderIR

/-- A function in the course of folding. -/
structure Folding where
  /-- The function as it is now. -/
  function : Function
  /-- The known constants. -/
  constants : ConstantTable
  /-- The ids for new constants. -/
  ids : IdSupply
  /-- The blocks that can be reached now. -/
  reachable : KeySet BlockKey
  /-- Whether a header was given a new ending. -/
  changed : Bool

namespace Folding

/-- The state after a header was given a new ending. -/
def edited (s : Folding) (f : Function) : Folding :=
  { s with function := f, reachable := f.reachable, changed := true }

/-- A constant condition for a header and its value: the condition it has, or a new `true` where
that is no boolean. -/
def condition (s : Folding) (sel : SelectionBranch) : Except Fault (Id × Bool × Folding) :=
  match s.constants.bool? sel.condition with
  | some value => .ok (sel.condition, value, s)
  | none => do
    let (id, constants, ids) ← s.constants.trueConstant s.ids
    .ok (id, true, { s with constants := constants, ids := ids })

/-- Ends a header with a branch that still names its merge block.  A header that already has this
form is left alone. -/
def keepMerge (s : Folding) (header : BlockKey) (sel : SelectionBranch) (live : Id) :
    Except Fault Folding := do
  let (cond, value, s) ← s.condition sel
  let ifTrue := if value then live else sel.merge
  let ifFalse := if value then sel.merge else live
  if sel.branch = .branchConditional cond ifTrue ifFalse then .ok s
  else do
    let f ← s.function.editBlock header (fun b => b.narrowSelection sel.merge cond ifTrue ifFalse)
    .ok (s.edited f)

/-- Gives a header that always goes to `live` its new ending. -/
def apply (s : Folding) (header : BlockKey) (sel : SelectionBranch) (live : Id) :
    Except Fault Folding :=
  match s.function.verdict s.reachable header live sel.merge with
  | .fold => do
    let f ← s.function.editBlock header (fun b => b.foldSelection live)
    .ok (s.edited f)
  | .keepMerge => s.keepMerge header sel live
  | .reject => .ok s

/-- Visits one block. -/
def visit (s : Folding) (b : BlockKey) : Except Fault Folding :=
  if s.reachable.contains b then
    match (s.function.block? b).bind Block.selection? with
    | some sel =>
      match s.constants.takenTarget? sel.branch with
      | some live => s.apply b sel live
      | none => .ok s
    | none => .ok s
  else .ok s

/-- Visits the blocks of a function in structured order. -/
def run (f : Function) (constants : ConstantTable) (ids : IdSupply) : Except Fault Folding := do
  let order ← f.readStructuredOrder
  order.foldlM visit ⟨f, constants, ids, f.reachable, false⟩

end Folding
end ShaderIR
