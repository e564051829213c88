import ScriptImage.Json.Printer

/-!
The manifest of a link: what each module contributed, in order, and the totals of the image.
-/

namespace ScriptImage

structure LinkInput where
  /-- Name of the module. -/
  file : String
  /-- Address of its first instruction in the image. -/
  baseAddress : UInt32
  firstScriptId : UInt32
  /-- Slots taken by the modules before. -/
  globalOffset : UInt32
  scripts : Nat
  instructions : Nat
  /-- Texts that the image already held. -/
  dedupHits : Nat
  deriving DecidableEq, Repr

structure LinkManifest where
  version : UInt32
  inputs : List LinkInput
  totalScripts : Nat
  totalInstructions : Nat
  totalGlobalSlots : UInt32
  /-- Bytes of data of all modules together. -/
  dataBytesBefore : Nat
  /-- Bytes of data of the image. -/
  dataBytesAfter : Nat
  buildProperties : List String
  sourceDirs : List String
  deriving DecidableEq, Repr

namespace LinkInput

def toJson (i : LinkInput) : Json :=
  .record [("file", .str i.file), ("base_address", .nat i.baseAddress.toNat),
    ("first_script_id", .nat i.firstScriptId.toNat), ("global_offset", .nat i.globalOffset.toNat),
    ("scripts", .nat i.scripts), ("instructions", .nat i.instructions),
    ("dedup_hits", .nat i.dedupHits)]

end LinkInput

namespace LinkManifest

def toJson (m : LinkManifest) : Json :=
  .record [("version", .nat m.version.toNat), ("inputs", .array (m.inputs.map LinkInput.toJson)),
    ("total_scripts", .nat m.totalScripts), ("total_instructions", .nat m.totalInstructions),
    ("total_global_slots", .nat m.totalGlobalSlots.toNat),
    ("data_bytes_before", .nat m.dataBytesBefore), ("data_bytes_after", .nat m.dataBytesAfter),
    ("build_properties", .array (m.buildProperties.map .str)),
    ("source_dirs", .array (m.sourceDirs.map .str))]

end LinkManifest

end ScriptImage
