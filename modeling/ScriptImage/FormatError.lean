import ScriptImage.Operand

/-!
Why a stored file or an image is refused. A file is refused when its bytes do not follow the
format; an image is corrupt when its tables contradict each other.
-/

namespace ScriptImage

inductive Corruption where
  | duplicateGlobal
  | slotOverflow
  | negativeTarget (opcode : Opcode) (word : Int32)
  | duplicateImportedVar
  | duplicateImportedScript
  | scriptId (name : String) (id : UInt32) (position : Nat)
  | unterminated (name : String) (address : UInt32)
  | unknownVariable (pc : Nat) (script : String) (id : UInt32)
  | jumpOutside (pc : Nat) (target : UInt32) (size : Nat)
  | unknownScript (pc : Nat) (id : UInt32)
  | placeholder (pc : Nat)
  | unpairedReference (pc : Nat)
  | badAutostart (entry : SymbolRef)
  deriving DecidableEq, Repr

namespace Corruption

def message : Corruption → String
  | .duplicateGlobal => "duplicate global variable name"
  | .slotOverflow => "global variables overflow the slot space"
  | .negativeTarget o w => s!"{o.mnemonic} has a negative target {w.toInt}"
  | .duplicateImportedVar => "duplicate extern variable"
  | .duplicateImportedScript => "duplicate extern script"
  | .scriptId name id position => s!"script `{name}` has id {id} at position {position}"
  | .unterminated name address => s!"script `{name}` at {address} is not terminated by END"
  | .unknownVariable pc script id => s!"op {pc} in `{script}` references unknown variable {id}"
  | .jumpOutside pc target size => s!"op {pc} jumps to {target} but code size is {size}"
  | .unknownScript pc id => s!"op {pc} references unknown script {id}"
  | .placeholder pc => s!"op {pc} keeps an unresolved placeholder"
  | .unpairedReference pc => s!"op {pc} is a reference without its float PUSH"
  | .badAutostart entry => s!"autostart entry {entry.describe} is not a script"

end Corruption

/-- The fields of the format that hold one of a fixed set of codes. -/
inductive CodeField where
  | opcode
  | mode
  | dataType
  | initializer
  deriving DecidableEq, Repr

namespace CodeField

def label : CodeField → String
  | .opcode => "opcode"
  | .mode => "mode"
  | .dataType => "data type"
  | .initializer => "initializer"

end CodeField

inductive FormatError where
  | invalidMagic (expected : List UInt8)
  | unexpectedEof (needed offset : Nat)
  | invalidCount (count offset : Nat)
  | unknownCode (field : CodeField) (code : UInt8)
  | trailingBytes (offset : Nat)
  | invalidUtf8
  | corrupted (cause : Corruption)
  deriving DecidableEq, Repr

namespace FormatError

def hexDigit (n : Nat) : Char := "0123456789ABCDEF".toList.getD n '0'

def hexByte (b : UInt8) : String := String.ofList [hexDigit (b.toNat / 16), hexDigit (b.toNat % 16)]

def message : FormatError → String
  | .invalidMagic expected =>
    "invalid magic (expected [" ++ ", ".intercalate (expected.map fun b => toString b) ++ "])"
  | .unexpectedEof needed offset => s!"unexpected EOF: need {needed} bytes at {offset}"
  | .invalidCount count offset => s!"invalid count {count} at {offset}"
  | .unknownCode field code => s!"unknown {field.label} code 0x" ++ hexByte code
  | .trailingBytes offset => s!"trailing bytes at {offset}"
  | .invalidUtf8 => "invalid utf-8"
  | .corrupted cause => "corrupted: " ++ cause.message

end FormatError

end ScriptImage
