/-!
The operations of the virtual machine. Each has a stored code, a mnemonic for listings and one
kind of operand; modes and data types qualify the operand.
-/

namespace ScriptImage

/-- What an operation takes from the operand word of its instruction. -/
inductive OperandKind where
  | none
  | address
  | script
  | variable
  | value
  deriving DecidableEq, Repr

inductive Opcode where
  | nop
  | endRun
  | push
  | pop
  | dup
  | swap
  | cast
  | load
  | store
  | add
  | sub
  | mul
  | div
  | mod
  | neg
  | not
  | and
  | or
  | eq
  | neq
  | lt
  | le
  | gt
  | ge
  | jmp
  | jz
  | jnz
  | except
  | call
  | start
  | sys
  | ret
  deriving DecidableEq, Repr

namespace Opcode

def all : List Opcode :=
  [.nop, .endRun, .push, .pop, .dup, .swap, .cast, .load, .store, .add, .sub, .mul, .div,
    .mod, .neg, .not, .and, .or, .eq, .neq, .lt, .le, .gt, .ge, .jmp, .jz, .jnz, .except,
    .call, .start, .sys, .ret]

/-- The byte stored in images. -/
def code : Opcode → UInt8
  | .nop => 0x00
  | .endRun => 0x01
  | .push => 0x02
  | .pop => 0x03
  | .dup => 0x04
  | .swap => 0x05
  | .cast => 0x06
  | .load => 0x07
  | .store => 0x08
  | .add => 0x10
  | .sub => 0x11
  | .mul => 0x12
  | .div => 0x13
  | .mod => 0x14
  | .neg => 0x15
  | .not => 0x16
  | .and => 0x17
  | .or => 0x18
  | .eq => 0x19
  | .neq => 0x1A
  | .lt => 0x1B
  | .le => 0x1C
  | .gt => 0x1D
  | .ge => 0x1E
  | .jmp => 0x20
  | .jz => 0x21
  | .jnz => 0x22
  | .except => 0x23
  | .call => 0x30
  | .start => 0x31
  | .sys => 0x32
  | .ret => 0x33

def mnemonic : Opcode → String
  | .nop => "NOP"
  | .endRun => "END"
  | .push => "PUSH"
  | .pop => "POP"
  | .dup => "DUP"
  | .swap => "SWAP"
  | .cast => "CAST"
  | .load => "LOAD"
  | .store => "STORE"
  | .add => "ADD"
  | .sub => "SUB"
  | .mul => "MUL"
  | .div => "DIV"
  | .mod => "MOD"
  | .neg => "NEG"
  | .not => "NOT"
  | .and => "AND"
  | .or => "OR"
  | .eq => "EQ"
  | .neq => "NEQ"
  | .lt => "LT"
  | .le => "LEQ"
  | .gt => "GT"
  | .ge => "GEQ"
  | .jmp => "JMP"
  | .jz => "JZ"
  | .jnz => "JNZ"
  | .except => "EXCEPT"
  | .call => "CALL"
  | .start => "START"
  | .sys => "SYS"
  | .ret => "RET"

/-- The name used in the JSON form. -/
def name : Opcode → String
  | .nop => "Nop"
  | .endRun => "End"
  | .push => "Push"
  | .pop => "Pop"
  | .dup => "Dup"
  | .swap => "Swap"
  | .cast => "Cast"
  | .load => "Load"
  | .store => "Store"
  | .add => "Add"
  | .sub => "Sub"
  | .mul => "Mul"
  | .div => "Div"
  | .mod => "Mod"
  | .neg => "Neg"
  | .not => "Not"
  | .and => "And"
  | .or => "Or"
  | .eq => "Eq"
  | .neq => "Neq"
  | .lt => "Lt"
  | .le => "Le"
  | .gt => "Gt"
  | .ge => "Ge"
  | .jmp => "Jmp"
  | .jz => "Jz"
  | .jnz => "Jnz"
  | .except => "Except"
  | .call => "Call"
  | .start => "Start"
  | .sys => "Sys"
  | .ret => "Ret"

/-- Jumps take an address, calls a script, accesses a variable, and a push or system call a
plain value; all else takes nothing. -/
def kind : Opcode → OperandKind
  | .jmp | .jz | .jnz | .except => .address
  | .call | .start => .script
  | .load | .store => .variable
  | .push | .sys => .value
  | _ => .none

def ofCode? (b : UInt8) : Option Opcode := all.find? fun o => o.code == b

def ofMnemonic? (s : String) : Option Opcode := all.find? fun o => o.mnemonic == s

def ofName? (s : String) : Option Opcode := all.find? fun o => o.name == s

@[simp] theorem ofCode?_code (o : Opcode) : ofCode? o.code = some o := by
  cases o <;> rfl

end Opcode

/-- How an instruction finds its variable. -/
inductive Mode where
  /-- The instruction carries its operand. -/
  | direct
  /-- The variable id is the float pushed two instructions earlier. -/
  | reference
  deriving DecidableEq, Repr

namespace Mode

def all : List Mode := [.direct, .reference]

def code : Mode → UInt8
  | .direct => 0
  | .reference => 1

def name : Mode → String
  | .direct => "Direct"
  | .reference => "Reference"

def ofCode? (b : UInt8) : Option Mode := all.find? fun m => m.code == b

def ofName? (s : String) : Option Mode := all.find? fun m => m.name == s

@[simp] theorem ofCode?_code (m : Mode) : ofCode? m.code = some m := by
  cases m <;> rfl

end Mode

/-- The declared type of an operand. -/
inductive DataType where
  | void
  | int
  | float
  | bool
  | var
  deriving DecidableEq, Repr

namespace DataType

def all : List DataType := [.void, .int, .float, .bool, .var]

def code : DataType → UInt8
  | .void => 0
  | .int => 1
  | .float => 2
  | .bool => 3
  | .var => 4

/-- The short name used in listings. -/
def label : DataType → String
  | .void => "void"
  | .int => "int"
  | .float => "float"
  | .bool => "bool"
  | .var => "var"

/-- The name used in the JSON form. -/
def name : DataType → String
  | .void => "Void"
  | .int => "Int"
  | .float => "Float"
  | .bool => "Bool"
  | .var => "Var"

def ofCode? (b : UInt8) : Option DataType := all.find? fun t => t.code == b

def ofName? (s : String) : Option DataType := all.find? fun t => t.name == s

@[simp] theorem ofCode?_code (t : DataType) : ofCode? t.code = some t := by
  cases t <;> rfl

end DataType

end ScriptImage
