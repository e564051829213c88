import ScriptImage.Image.Codec
import ScriptImage.ObjectModule

/-!
The stored form of object modules: magic, name, the image without its magic, the two tables of
imports, which hold no entry twice, and the addresses of text pushes.
-/

namespace ScriptImage

namespace ImportedVar

def encode (v : ImportedVar) : List UInt8 := Bytes.text v.name ++ Bytes.word v.index

def decode : Decoder ImportedVar := do
  let name ← Decoder.text
  let index ← Decoder.word
  return { name, index }

end ImportedVar

namespace ImportedScript

def encode (s : ImportedScript) : List UInt8 := Bytes.text s.name ++ Bytes.word s.params

def decode : Decoder ImportedScript := do
  let name ← Decoder.text
  let params ← Decoder.word
  return { name, params }

end ImportedScript

namespace ObjectModule

/-- The bytes `CHLO`. -/
def magic : List UInt8 := [67, 72, 76, 79]

/-- Reads `n` elements after those of a list, none of them twice. -/
def decodeNew [DecidableEq α] (d : Decoder α) (duplicate : Corruption) :
    Nat → List α → Decoder (List α)
  | 0, xs => return xs
  | n + 1, xs => do
    let x ← d
    if x ∈ xs then Decoder.fail (.corrupted duplicate)
    else decodeNew d duplicate n (xs ++ [x])

def encode (m : ObjectModule) : List UInt8 :=
  magic ++ Bytes.text m.name ++ m.image.encodeBody
    ++ Bytes.list ImportedVar.encode m.importedVars
    ++ Bytes.list ImportedScript.encode m.importedScripts
    ++ Bytes.list Bytes.word m.textPushes

def decoder : Decoder ObjectModule := do
  Decoder.magic magic
  let name ← Decoder.text
  let image ← Image.decodeBody
  let vars ← Decoder.count 8
  let importedVars ← decodeNew ImportedVar.decode .duplicateImportedVar vars []
  let scripts ← Decoder.count 8
  let importedScripts ← decodeNew ImportedScript.decode .duplicateImportedScript scripts []
  let pushes ← Decoder.list 4 Decoder.word
  Decoder.finish
  return { name, image, importedVars, importedScripts, textPushes := ascending pushes }

def decode (bs : List UInt8) : Except FormatError ObjectModule := decoder.run bs

end ObjectModule

end ScriptImage
