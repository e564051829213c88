import ScriptImage.Bytes.Decoder

/-!
Records written and read field by field. A shape says what to read next; a field is a value
together with its shape.
-/

namespace ScriptImage

inductive Shape where
  | bytes (n : Nat)
  | byte
  | word
  | signed
  | float
  | blob
  | text
  deriving DecidableEq, Repr

inductive Field where
  | bytes (value : List UInt8)
  | byte (value : UInt8)
  | word (value : UInt32)
  | signed (value : Int32)
  | float (value : Binary32)
  | blob (value : List UInt8)
  | text (value : String)
  deriving DecidableEq, Repr

namespace Field

def shape : Field → Shape
  | .bytes bs => .bytes bs.length
  | .byte _ => .byte
  | .word _ => .word
  | .signed _ => .signed
  | .float _ => .float
  | .blob _ => .blob
  | .text _ => .text

def encode : Field → List UInt8
  | .bytes bs => bs
  | .byte b => [b]
  | .word w => Bytes.word w
  | .signed w => Bytes.signed w
  | .float x => Bytes.float x
  | .blob bs => Bytes.blob bs
  | .text s => Bytes.text s

end Field

def Shape.read : Shape → Decoder Field
  | .bytes n => .bytes <$> Decoder.bytes n
  | .byte => .byte <$> Decoder.byte
  | .word => .word <$> Decoder.word
  | .signed => .signed <$> Decoder.signed
  | .float => .float <$> Decoder.float
  | .blob => .blob <$> Decoder.blob
  | .text => .text <$> Decoder.text

end ScriptImage
