import ShaderIR.DeadBranch.Folding
import ShaderIR.DeadBranch.PhiRepair
import ShaderIR.Status
import ShaderIR.Whitelist

/-!
# Eliminating dead branches

Selections on known constants are folded, the phis are repaired, and the blocks that have become
unreachable are removed, function by function along the call trees of the entry points.  New
constants go to the end of the globals, and the names and decorations of ids that no longer exist
are removed.

* `Function.eliminateDeadBranches`: one function;
* `Module.callOrder`: the functions that are called at all, callers first;
* `Module.eliminateDeadBranches`: the whole module.
-/

namespace ShaderIR

/-- What the functions of a module share while they are processed. -/
structure Workspace where
  /-- The known constants. -/
  constants : ConstantTable
  /-- The ids for new globals. -/
  ids : IdSupply
  /-- The ids that no longer exist. -/
  killed : SortedSet Id
deriving DecidableEq

/-- The workspace of a module before anything is processed. -/
def Workspace.ofModule (m : Module) : Workspace := ⟨.ofModule m, m.supply, SortedMap.empty⟩

/-- Folds the selections of a function on known constants and removes what becomes dead.  The last
component says whether anything changed. -/
def Function.eliminateDeadBranches (f : Function) (w : Workspace) :
    Except Fault (Function × Workspace × Bool) := do
  let folded ← Folding.run f w.constants w.ids
  let repaired ← PhiRepair.run folded.function folded.constants folded.ids
  let killed := w.killed.addAll (repaired.replacements.map Prod.fst)
  let (f, killed, removed) ← repaired.function.removeUnreachable killed
  .ok (f, ⟨repaired.constants, repaired.ids, killed⟩,
    folded.changed || repaired.changed || removed)

namespace Module

/-- The functions that a function calls. -/
def calls (m : Module) (k : FunctionKey) : List FunctionKey :=
  (((m.function? k).map Function.callees).getD []).filterMap m.functionOf?

/-- The functions in the call trees of the entry points, each once and those nearest to an entry
point first. -/
def callOrder (m : Module) : List FunctionKey :=
  Graph.search m.calls m.functionKeys (m.entryPointFunctions.filterMap m.functionOf?)

/-- Why the dead branches of a module are left alone, if they are. -/
def refusal? (m : Module) (w : Whitelist) : Option Refusal :=
  match w.firstUnsupported? m with
  | some name => some (.unsupportedExtension name)
  | none =>
    if !m.hasCapability .shader then some .missingShaderCapability
    else if m.hasAnnotation .groupDecorate then some .groupDecorations
    else none

/-- Processes one function of a module. -/
def processFunction (state : Module × Workspace × Bool) (k : FunctionKey) :
    Except Fault (Module × Workspace × Bool) := do
  let (m, w, changed) := state
  let f ← m.function k
  let (f, w, changed') ← f.eliminateDeadBranches w
  .ok (m.setFunction k f, w, changed || changed')

/-- Processes the functions along the call trees, then adds the new globals and cleans up. -/
def processFunctions (m : Module) : Except Fault (Module × Bool) := do
  let (m, w, changed) ← m.callOrder.foldlM processFunction (m, .ofModule m, false)
  let (created, _) := w.constants.takeNewGlobals
  let m ← { m with globals := m.globals ++ created }.adopt w.ids
  .ok (m.removeDebugInfo w.killed, changed)

/-- Eliminates the dead branches of a module. -/
def eliminateDeadBranches (m : Module) (w : Whitelist) : Except Fault (Module × Status) :=
  match m.refusal? w with
  | some r => .ok (m, r.status)
  | none => do
    let (m, changed) ← m.processFunctions
    .ok (m, .ofChanged changed)

end Module
end ShaderIR
