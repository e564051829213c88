import ScriptImage.Bytes.Decoder
import ScriptImage.Image

/-!
The stored form of images. After the four-byte magic and the version come the globals, scripts,
instructions, data bytes, autostart references and initializers, each a counted list. Each
encoder stands beside its decoder; a decoder refuses codes, names and targets that no encoder
writes.
-/

namespace ScriptImage

namespace GlobalVar

def encode (v : GlobalVar) : List UInt8 := Bytes.text v.name ++ Bytes.word v.size

def decode : Decoder GlobalVar := do
  let name ← Decoder.text
  let size ← Decoder.word
  return ⟨name, max size 1⟩

end GlobalVar

namespace DeclareError

def corruption : DeclareError → Corruption
  | .duplicateName => .duplicateGlobal
  | .slotOverflow => .slotOverflow

end DeclareError

namespace GlobalTable

def encode (t : GlobalTable) : List UInt8 := Bytes.list GlobalVar.encode t.vars

/-- Declares `n` stored variables after those of a table. -/
def decodeInto : Nat → GlobalTable → Decoder GlobalTable
  | 0, t => return t
  | n + 1, t => do
    let v ← GlobalVar.decode
    match t.declare v with
    | .ok (_, t) => decodeInto n t
    | .error e => Decoder.fail (.corrupted e.corruption)

def decode : Decoder GlobalTable := do
  let n ← Decoder.count 8
  decodeInto n .empty

end GlobalTable

namespace Script

def encode (s : Script) : List UInt8 :=
  Bytes.word s.id ++ Bytes.text s.name ++ Bytes.word s.params ++ Bytes.word s.boundary
    ++ Bytes.word s.address ++ Bytes.list Bytes.text s.locals ++ Bytes.text s.source

def decode : Decoder Script := do
  let id ← Decoder.word
  let name ← Decoder.text
  let params ← Decoder.word
  let boundary ← Decoder.word
  let address ← Decoder.word
  let locals ← Decoder.list 4 Decoder.text
  let source ← Decoder.text
  return { id, name, params, boundary, address, locals, source }

end Script

namespace Instruction

/-- Three code bytes, the operand word and the line. -/
def encodedSize : Nat := 11

def encode (i : Instruction) : List UInt8 :=
  [i.opcode.code, i.mode.code, i.type.code] ++ Bytes.signed i.operand.word ++ Bytes.word i.line

/-- Reads the code of a field that has only some codes. -/
def decodeCode (field : CodeField) (ofCode? : UInt8 → Option α) : Decoder α := do
  let b ← Decoder.byte
  match ofCode? b with
  | some x => return x
  | none => Decoder.fail (.unknownCode field b)

def decode : Decoder Instruction := do
  let opcode ← decodeCode .opcode Opcode.ofCode?
  let mode ← decodeCode .mode Mode.ofCode?
  let type ← decodeCode .dataType DataType.ofCode?
  let word ← Decoder.signed
  match Operand.ofWord? opcode mode type word with
  | none => Decoder.fail (.corrupted (.negativeTarget opcode word))
  | some operand =>
    let line ← Decoder.word
    return { opcode, mode, type, operand, line }

end Instruction

namespace SymbolRef

def decodeWord : Decoder SymbolRef := decode <$> Decoder.signed

end SymbolRef

namespace InitialValue

/-- A tag byte, then the float or the source text. -/
def encode : InitialValue → List UInt8
  | .number v => 0 :: Bytes.float v
  | .expression e => 1 :: Bytes.text e

def decode : Decoder InitialValue := do
  let tag ← Decoder.byte
  if tag = 0 then .number <$> Decoder.float
  else if tag = 1 then .expression <$> Decoder.text
  else Decoder.fail (.unknownCode .initializer tag)

end InitialValue

namespace Initializer

def encode (x : Initializer) : List UInt8 := Bytes.text x.name ++ x.value.encode

def decode : Decoder Initializer := do
  let name ← Decoder.text
  let value ← InitialValue.decode
  return { name, value }

end Initializer

namespace Image

/-- The bytes `CHL` and a zero. -/
def magic : List UInt8 := [67, 72, 76, 0]

/-- An image without its magic, as it also stands inside an object module. -/
def encodeBody (m : Image) : List UInt8 :=
  Bytes.word m.version ++ m.globals.encode ++ Bytes.list Script.encode m.scripts
    ++ Bytes.list Instruction.encode m.code ++ Bytes.blob m.data.bytes
    ++ Bytes.list (fun r : SymbolRef => Bytes.signed r.encode) m.autostart
    ++ Bytes.list Initializer.encode m.inits

def decodeBody : Decoder Image := do
  let version ← Decoder.word
  let globals ← GlobalTable.decode
  let scripts ← Decoder.list 28 Script.decode
  let code ← Decoder.list Instruction.encodedSize Instruction.decode
  let data ← Decoder.blob
  let autostart ← Decoder.list 4 SymbolRef.decodeWord
  let inits ← Decoder.list 5 Initializer.decode
  return { version, globals, scripts, code, data := .ofBytes data, autostart, inits }

def encode (m : Image) : List UInt8 := magic ++ m.encodeBody

def decoder : Decoder Image := do
  Decoder.magic magic
  let m ← decodeBody
  Decoder.finish
  return m

def decode (bs : List UInt8) : Except FormatError Image := decoder.run bs

end Image

end ScriptImage
