/-!
# The outcome of a pass

A pass refuses a module, leaves it as it is, or changes it.  A refusal has a reason.
-/

namespace ShaderIR

/-- How a pass ended. -/
inductive Status where
  /-- The pass refused the module. -/
  | failure
  /-- The pass ran and changed nothing. -/
  | unchanged
  /-- The pass ran and changed the module. -/
  | changed
deriving DecidableEq, Repr

namespace Status

/-- The successful outcome of a pass that changed something or not. -/
def ofChanged (c : Bool) : Status := if c then changed else unchanged

/-- The outcome of two passes: a failure of either is one, and otherwise a change of either. -/
def combine : Status → Status → Status
  | failure, _ => failure
  | _, failure => failure
  | changed, _ => changed
  | _, changed => changed
  | unchanged, unchanged => unchanged

/-- Whether the module was refused. -/
def isFailure (s : Status) : Bool := s = failure

/-- Whether the module was changed. -/
def hasChanged (s : Status) : Bool := s = changed

/-- The name of the outcome. -/
def name : Status → String
  | failure => "Failure"
  | unchanged => "SuccessWithoutChange"
  | changed => "SuccessWithChange"

/-- The outcome with a name. -/
def ofName? (name : String) : Option Status :=
  [failure, unchanged, changed].find? (fun s => s.name = name)

end Status

/-- Why a module, or a list of passes, is not processed. -/
inductive Refusal where
  /-- The module uses an extension that is not known. -/
  | unsupportedExtension (name : String)
  /-- The module is no shader, so its control flow need not be structured. -/
  | missingShaderCapability
  /-- Decorations of groups cannot be kept consistent. -/
  | groupDecorations
  /-- There is no pass with this name. -/
  | unknownPass (name : String)
deriving DecidableEq, Repr

namespace Refusal

/-- The wording of a refusal. -/
def message : Refusal → String
  | unsupportedExtension name => "module declares unsupported extension `" ++ name ++ "`"
  | missingShaderCapability => "module does not declare the `Shader` capability"
  | groupDecorations => "module uses `OpGroupDecorate`"
  | unknownPass name => "unknown pass `" ++ name ++ "`"

/-- The status a refusal is reported with: some only say that there is nothing to do. -/
def status : Refusal → Status
  | unsupportedExtension _ => .failure
  | missingShaderCapability => .unchanged
  | groupDecorations => .unchanged
  | unknownPass _ => .failure

end Refusal
end ShaderIR
