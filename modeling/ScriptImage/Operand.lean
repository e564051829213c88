import ScriptImage.Fault
import ScriptImage.Binary32
import ScriptImage.Opcode

/-!
Operands of instructions and their 32-bit words. A symbol is referred to by its id, or by its
position in a table of symbols defined elsewhere; the second is stored as a negative word. Which
operand a word stands for is decided by the operation, the mode and the data type around it.
-/

namespace ScriptImage

inductive SymbolRef where
  /-- Id within the module or image itself. -/
  | internal (id : UInt32)
  /-- Position in the module's table of symbols defined elsewhere. -/
  | external (position : UInt32)
  deriving DecidableEq, Repr

namespace SymbolRef

/-- The stored word: an id as it is, position `p` as `-(p + 1)`. -/
def encode : SymbolRef → Int32
  | .internal id => Word.saturateSigned id
  | .external p => Int32.ofInt (-(if p.toNat ≤ 0x7FFFFFFF then p.toNat else 0x7FFFFFFE : Nat) - 1)

def decode (word : Int32) : SymbolRef :=
  if 0 ≤ word.toInt then .internal (UInt32.ofNat word.toInt.toNat)
  else .external (UInt32.ofNat (-(word.toInt + 1)).toNat)

def internal? : SymbolRef → Option UInt32
  | .internal id => some id
  | .external _ => none

/-- Written in listings as `#id`, and with a marker for a symbol defined elsewhere. -/
def display : SymbolRef → String
  | .internal id => s!"#{id}"
  | .external p => s!"extern#{p}"

/-- Written in reports about lists of references. -/
def describe : SymbolRef → String
  | .internal id => s!"Internal({id})"
  | .external p => s!"External({p})"

end SymbolRef

inductive Operand where
  | none
  | int (value : Int32)
  | float (value : Binary32)
  | bool (value : Bool)
  | address (target : UInt32)
  | script (ref : SymbolRef)
  | variable (ref : SymbolRef)
  deriving DecidableEq, Repr

namespace Operand

/-- The word stored for an operand. -/
def word : Operand → Int32
  | .none => 0
  | .int v => v
  | .float v => v.bits.toInt32
  | .bool b => if b then 1 else 0
  | .address a => Word.saturateSigned a
  | .script r | .variable r => r.encode

/-- The operand a stored word stands for; none for a negative address. -/
def ofWord? (opcode : Opcode) (mode : Mode) (type : DataType) (word : Int32) : Option Operand :=
  match opcode.kind with
  | .none => some .none
  | .address => if 0 ≤ word.toInt then some (.address word.toUInt32) else Option.none
  | .script => some (.script (.decode word))
  | .variable =>
    match mode with
    | .direct => some (.variable (.decode word))
    | .reference => some .none
  | .value =>
    match type with
    | .void => some .none
    | .int => some (.int word)
    | .float => some (.float ⟨word.toUInt32⟩)
    | .bool => some (.bool (word != 0))
    | .var => some (.variable (.decode word))

/-- Equality of values: floats are compared as numbers, all else as it is. -/
def valueEq : Operand → Operand → Bool
  | .float x, .float y => x.numericEq y
  | a, b => a == b

end Operand

end ScriptImage
