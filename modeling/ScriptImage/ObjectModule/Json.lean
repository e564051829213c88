import ScriptImage.Image.Json
import ScriptImage.ObjectModule

/-!
The JSON form of object modules. The tables of imports keep the first of equal entries, and the
addresses of text pushes are read in any order.
-/

namespace ScriptImage

namespace ImportedVar

def toJson (v : ImportedVar) : Json :=
  .record [("name", .str v.name), ("index", .nat v.index.toNat)]

def ofJson? (j : Json) : Option ImportedVar := do
  match ← j.record? ["name", "index"] with
  | [name, index] => return { name := ← name.string?, index := ← index.word? }
  | _ => none

end ImportedVar

namespace ImportedScript

def toJson (s : ImportedScript) : Json :=
  .record [("name", .str s.name), ("params", .nat s.params.toNat)]

def ofJson? (j : Json) : Option ImportedScript := do
  match ← j.record? ["name", "params"] with
  | [name, params] => return { name := ← name.string?, params := ← params.word? }
  | _ => none

end ImportedScript

namespace ObjectModule

def toJson (m : ObjectModule) : Json :=
  .record [("name", .str m.name), ("image", m.image.toJson),
    ("extern_vars", .array (m.importedVars.map ImportedVar.toJson)),
    ("extern_scripts", .array (m.importedScripts.map ImportedScript.toJson)),
    ("string_instructions", .array (m.textPushes.map fun a => .nat a.toNat))]

def ofJson? (j : Json) : Option ObjectModule := do
  match ← j.record? ["name", "image", "extern_vars", "extern_scripts", "string_instructions"] with
  | [name, image, vars, scripts, pushes] =>
    let name ← name.string?
    let image ← Image.ofJson? image
    let importedVars ← distinct <$> vars.list? ImportedVar.ofJson?
    let importedScripts ← distinct <$> scripts.list? ImportedScript.ofJson?
    let textPushes ← ascending <$> pushes.list? Json.word?
    return { name, image, importedVars, importedScripts, textPushes }
  | _ => none

def ofJsonText? (s : String) : Option ObjectModule := (Json.ofString? s).bind ofJson?

def jsonText (m : ObjectModule) : String := m.toJson.compactText

end ObjectModule

end ScriptImage
