import ShaderIR.Module

/-!
# Allowed extensions

An extension can change the meaning of instructions, so a transformation only touches modules whose
extensions are all on a list of known ones.
-/

namespace ShaderIR

/-- The names of the extensions that may be present. -/
structure Whitelist where
  /-- The names, in increasing order. -/
  names : SortedSet String
deriving DecidableEq

namespace Whitelist

/-- The list of the given names. -/
def ofNames (names : List String) : Whitelist := ⟨SortedSet.ofElements names⟩

/-- The extensions known to leave branches and blocks as they are. -/
def knownExtensions : List String :=
  ["SPV_AMD_shader_explicit_vertex_parameter",
   "SPV_AMD_shader_trinary_minmax",
   "SPV_AMD_gcn_shader",
   "SPV_KHR_shader_ballot",
   "SPV_AMD_shader_ballot",
   "SPV_AMD_gpu_shader_half_float",
   "SPV_KHR_shader_draw_parameters",
   "SPV_KHR_subgroup_vote",
   "SPV_KHR_16bit_storage",
   "SPV_KHR_device_group",
   "SPV_KHR_multiview",
   "SPV_NVX_multiview_per_view_attributes",
   "SPV_NV_viewport_array2",
   "SPV_NV_stereo_view_rendering",
   "SPV_NV_sample_mask_override_coverage",
   "SPV_NV_geometry_shader_passthrough",
   "SPV_AMD_texture_gather_bias_lod",
   "SPV_KHR_storage_buffer_storage_class",
   "SPV_KHR_variable_pointers",
   "SPV_AMD_gpu_shader_int16",
   "SPV_KHR_post_depth_coverage",
   "SPV_KHR_shader_atomic_counter_ops"]

/-- The list of the known extensions. -/
def default : Whitelist := ofNames knownExtensions

/-- Whether a name is on the list. -/
def contains (w : Whitelist) (name : String) : Bool := w.names.contains name

/-- The number of names. -/
def size (w : Whitelist) : Nat := w.names.size

/-- Whether nothing is allowed. -/
def isEmpty (w : Whitelist) : Bool := w.names.isEmpty

/-- The first extension of a module that is not on the list. -/
def firstUnsupported? (w : Whitelist) (m : Module) : Option String :=
  m.extensionNames.find? (fun name => !w.contains name)

/-- Whether every extension of a module is on the list. -/
def supports (w : Whitelist) (m : Module) : Bool := (w.firstUnsupported? m).isNone

end Whitelist
end ShaderIR
