import ScriptImage.Json.Decode
import ScriptImage.Json.Printer
import ScriptImage.Image

/-!
The JSON form of images. Every table is written and read as it stands, the derived ones too, so
that reading does not repair an image. Each writer stands beside its reader.
-/

namespace ScriptImage

namespace SymbolRef

def toJson : SymbolRef → Json
  | .internal id => .record [("Internal", .nat id.toNat)]
  | .external p => .record [("External", .nat p.toNat)]

def ofJson? (j : Json) : Option SymbolRef :=
  match j.variant? with
  | some ("Internal", some v) => v.word?.map .internal
  | some ("External", some v) => v.word?.map .external
  | _ => none

end SymbolRef

namespace Operand

def toJson : Operand → Json
  | .none => .str "None"
  | .int v => .record [("Int", .int v.toInt)]
  | .float v => .record [("Float", .float v)]
  | .bool b => .record [("Bool", .bool b)]
  | .address a => .record [("Addr", .nat a.toNat)]
  | .script r => .record [("Script", r.toJson)]
  | .variable r => .record [("Var", r.toJson)]

def ofJson? (j : Json) : Option Operand :=
  match j.variant? with
  | some ("None", Option.none) | some ("None", some .null) => some .none
  | some ("Int", some v) => v.signed?.map .int
  | some ("Float", some v) => v.float?.map .float
  | some ("Bool", some v) => v.bool?.map .bool
  | some ("Addr", some v) => v.word?.map .address
  | some ("Script", some v) => (SymbolRef.ofJson? v).map .script
  | some ("Var", some v) => (SymbolRef.ofJson? v).map .variable
  | _ => Option.none

end Operand

namespace Instruction

def toJson (i : Instruction) : Json :=
  .record [("opcode", .str i.opcode.name), ("mode", .str i.mode.name),
    ("data_type", .str i.type.name), ("operand", i.operand.toJson), ("line", .nat i.line.toNat)]

def ofJson? (j : Json) : Option Instruction := do
  match ← j.record? ["opcode", "mode", "data_type", "operand", "line"] with
  | [opcode, mode, type, operand, line] =>
    let opcode ← opcode.unit?.bind Opcode.ofName?
    let mode ← mode.unit?.bind Mode.ofName?
    let type ← type.unit?.bind DataType.ofName?
    let operand ← Operand.ofJson? operand
    let line ← line.word?
    return { opcode, mode, type, operand, line }
  | _ => none

end Instruction

namespace GlobalVar

def toJson (v : GlobalVar) : Json := .record [("name", .str v.name), ("size", .nat v.size.toNat)]

def ofJson? (j : Json) : Option GlobalVar := do
  match ← j.record? ["name", "size"] with
  | [name, size] => return { name := ← name.string?, size := ← size.word? }
  | _ => none

end GlobalVar

namespace GlobalTable

def toJson (t : GlobalTable) : Json :=
  .record [("vars", .record (t.entries.map fun (k, v) => (k, v.toJson))),
    ("starts", .array (t.starts.map fun s => .nat s.toNat)), ("slots", .nat t.slots.toNat)]

def ofJson? (j : Json) : Option GlobalTable := do
  match ← j.record? ["vars", "starts", "slots"] with
  | [vars, starts, slots] =>
    let entries ← vars.map? GlobalVar.ofJson?
    let starts ← starts.list? Json.word?
    let slots ← slots.word?
    return { entries, starts, slots }
  | _ => none

end GlobalTable

namespace DataSection

def entryToJson (e : TextEntry) : Json :=
  .record [("offset", .nat e.offset.toNat), ("len", .nat e.length.toNat)]

def entryOfJson? (j : Json) : Option TextEntry := do
  match ← j.record? ["offset", "len"] with
  | [offset, length] => return { offset := ← offset.word?, length := ← length.word? }
  | _ => none

def toJson (d : DataSection) : Json :=
  .record [("bytes", .array (d.bytes.map fun b => .nat b.toNat)),
    ("strings", .array (d.entries.map entryToJson))]

def ofJson? (j : Json) : Option DataSection := do
  match ← j.record? ["bytes", "strings"] with
  | [bytes, entries] =>
    let bytes ← bytes.list? Json.byte?
    let entries ← entries.list? entryOfJson?
    return { bytes, entries }
  | _ => none

end DataSection

namespace Script

def toJson (s : Script) : Json :=
  .record [("id", .nat s.id.toNat), ("name", .str s.name), ("param_count", .nat s.params.toNat),
    ("global_count", .nat s.boundary.toNat), ("local_vars", .array (s.locals.map .str)),
    ("address", .nat s.address.toNat), ("source_file", .str s.source)]

def ofJson? (j : Json) : Option Script := do
  match ← j.record? ["id", "name", "param_count", "global_count", "local_vars", "address",
      "source_file"] with
  | [id, name, params, boundary, locals, address, source] =>
    let id ← id.word?
    let name ← name.string?
    let params ← params.word?
    let boundary ← boundary.word?
    let locals ← locals.list? Json.string?
    let address ← address.word?
    let source ← source.string?
    return { id, name, params, boundary, locals, address, source }
  | _ => none

end Script

namespace InitialValue

def toJson : InitialValue → Json
  | .number v => .record [("Float", .float v)]
  | .expression e => .record [("Expr", .str e)]

def ofJson? (j : Json) : Option InitialValue :=
  match j.variant? with
  | some ("Float", some v) => v.float?.map .number
  | some ("Expr", some v) => v.string?.map .expression
  | _ => none

end InitialValue

namespace Initializer

def toJson (x : Initializer) : Json := .record [("name", .str x.name), ("value", x.value.toJson)]

def ofJson? (j : Json) : Option Initializer := do
  match ← j.record? ["name", "value"] with
  | [name, value] => return { name := ← name.string?, value := ← InitialValue.ofJson? value }
  | _ => none

end Initializer

namespace Image

def toJson (m : Image) : Json :=
  .record [("version", .nat m.version.toNat), ("globals", m.globals.toJson),
    ("scripts", .array (m.scripts.map Script.toJson)),
    ("code", .array (m.code.map Instruction.toJson)), ("data", m.data.toJson),
    ("autostart", .array (m.autostart.map SymbolRef.toJson)),
    ("inits", .array (m.inits.map Initializer.toJson))]

def ofJson? (j : Json) : Option Image := do
  match ← j.record? ["version", "globals", "scripts", "code", "data", "autostart", "inits"] with
  | [version, globals, scripts, code, data, autostart, inits] =>
    let version ← version.word?
    let globals ← GlobalTable.ofJson? globals
    let scripts ← scripts.list? Script.ofJson?
    let code ← code.list? Instruction.ofJson?
    let data ← DataSection.ofJson? data
    let autostart ← autostart.list? SymbolRef.ofJson?
    let inits ← inits.list? Initializer.ofJson?
    return { version, globals, scripts, code, data, autostart, inits }
  | _ => none

def ofJsonText? (s : String) : Option Image := (Json.ofString? s).bind ofJson?

def jsonText (m : Image) : String := m.toJson.compactText

end Image

end ScriptImage
