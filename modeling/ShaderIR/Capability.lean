/-!
# Capabilities

What a module declares it needs.  Only the capabilities the library asks about are listed.
-/

namespace ShaderIR

/-- A capability of the module format. -/
inductive Capability where
  | matrix | shader | geometry | tessellation | addresses | linkage | kernel | float64 | int64
  | int16
deriving DecidableEq, Repr

namespace Capability

/-- The enumerant of the module format. -/
def number : Capability → UInt32
  | matrix => 0
  | shader => 1
  | geometry => 2
  | tessellation => 3
  | addresses => 4
  | linkage => 5
  | kernel => 6
  | float64 => 10
  | int64 => 11
  | int16 => 22

/-- The name of the capability. -/
def name : Capability → String
  | matrix => "Matrix"
  | shader => "Shader"
  | geometry => "Geometry"
  | tessellation => "Tessellation"
  | addresses => "Addresses"
  | linkage => "Linkage"
  | kernel => "Kernel"
  | float64 => "Float64"
  | int64 => "Int64"
  | int16 => "Int16"

/-- Every capability, by increasing number. -/
def all : List Capability :=
  [matrix, shader, geometry, tessellation, addresses, linkage, kernel, float64, int64, int16]

/-- The capability with a name. -/
def ofName? (name : String) : Option Capability := all.find? (fun c => c.name = name)

/-- The name determines the capability. -/
@[simp] theorem ofName?_name (c : Capability) : ofName? c.name = some c := by
  cases c <;> decide

end Capability
end ShaderIR
