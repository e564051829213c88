import ScriptImage.Operand

/-!
Instructions: an operation with its mode, data type and operand, and the source line it came
from. A variable is either named by the operand, or by reference: then the float pushed two
instructions earlier carries the variable id.
-/

namespace ScriptImage

structure Instruction where
  opcode : Opcode
  mode : Mode := .direct
  type : DataType := .void
  operand : Operand := .none
  /-- Source line, for reports only. -/
  line : UInt32 := 0
  deriving DecidableEq, Repr

namespace Instruction

def op (o : Opcode) : Instruction := { opcode := o }

def endRun : Instruction := op .endRun

def pushInt (v : Int32) : Instruction := { opcode := .push, type := .int, operand := .int v }

def pushFloat (v : Binary32) : Instruction :=
  { opcode := .push, type := .float, operand := .float v }

def pushBool (b : Bool) : Instruction := { opcode := .push, type := .bool, operand := .bool b }

def pushVar (r : SymbolRef) : Instruction :=
  { opcode := .push, type := .var, operand := .variable r }

/-- The float push that carries a variable id to a reference. -/
def pushVarId (r : SymbolRef) : Instruction := pushFloat (.ofInt r.encode.toInt)

def load (r : SymbolRef) : Instruction :=
  { opcode := .load, type := .float, operand := .variable r }

def store (r : SymbolRef) : Instruction :=
  { opcode := .store, type := .float, operand := .variable r }

def byReference (o : Opcode) : Instruction := { opcode := o, mode := .reference, type := .float }

def jump (o : Opcode) (target : UInt32) : Instruction :=
  { opcode := o, type := .int, operand := .address target }

def call (r : SymbolRef) : Instruction := { opcode := .call, type := .int, operand := .script r }

def start (r : SymbolRef) : Instruction := { opcode := .start, type := .int, operand := .script r }

def sys (n : Int32) : Instruction := { opcode := .sys, type := .int, operand := .int n }

def cast (t : DataType) : Instruction := { opcode := .cast, type := t }

def atLine (i : Instruction) (line : UInt32) : Instruction := { i with line }

/-- Whether the instruction takes its variable from the float pushed before it. -/
def isReference (i : Instruction) : Bool := i.mode == .reference && i.opcode.kind == .variable

/-- The variable a float push names when its value is a whole number. -/
def floatVariable? (i : Instruction) : Option SymbolRef :=
  match i.opcode, i.operand with
  | .push, .float v => if v.isIntegral then some (.decode v.toInt32) else none
  | _, _ => none

/-- Same stored form up to the source line. -/
def sameEncoding (i j : Instruction) : Bool :=
  i.opcode == j.opcode && i.mode == j.mode && i.type == j.type && i.operand == j.operand

/-- Equality of all fields, with floats compared as numbers. -/
def valueEq (i j : Instruction) : Bool :=
  i.opcode == j.opcode && i.mode == j.mode && i.type == j.type && i.operand.valueEq j.operand
    && i.line == j.line

def operandText (i : Instruction) : String :=
  match i.operand with
  | .none => if i.opcode = .cast then " " ++ i.type.label else ""
  | .int v => s!" {i.type.label} {v.toInt}"
  | .float v => " float " ++ v.display
  | .bool b => s!" bool {b}"
  | .address a => s!" @{a}"
  | .script r | .variable r => " " ++ r.display

/-- The line of a listing, such as `PUSH int 3` or `LOAD [ref]`. -/
def display (i : Instruction) : String :=
  i.opcode.mnemonic ++ (if i.mode = .reference then " [ref]" else "") ++ i.operandText

end Instruction

end ScriptImage
