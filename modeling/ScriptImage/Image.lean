import ScriptImage.GlobalTable
import ScriptImage.DataSection
import ScriptImage.Instruction

/-!
Images: global variables, scripts over one shared sequence of instructions, texts, the scripts
started at load time and the initial values of globals. A script is the run of instructions from
its address up to the first END; ids up to its boundary are globals, and those above its locals.
-/

namespace ScriptImage

structure Script where
  id : UInt32
  name : String
  /-- Number of parameters, which are the first locals. -/
  params : UInt32
  /-- The last id that names a global in this script. -/
  boundary : UInt32
  locals : List String
  /-- Address of the first instruction. -/
  address : UInt32
  /-- Source file, for reports only. -/
  source : String
  deriving DecidableEq, Repr

inductive InitialValue where
  | number (value : Binary32)
  /-- A constant expression in source form. -/
  | expression (source : String)
  deriving DecidableEq, Repr

namespace InitialValue

def display : InitialValue → String
  | .number v => v.display
  | .expression e => e

def valueEq : InitialValue → InitialValue → Bool
  | .number x, .number y => x.numericEq y
  | a, b => a == b

end InitialValue

structure Initializer where
  name : String
  value : InitialValue
  deriving DecidableEq, Repr

namespace Initializer

/-- The entry for the null variable, which opens every list of initializers. -/
def null : Initializer := ⟨"Null", .number ⟨0⟩⟩

def valueEq (x y : Initializer) : Bool := x.name == y.name && x.value.valueEq y.value

end Initializer

/-- What a variable id means inside a script. -/
inductive VarName where
  | null
  | global (name : String) (element : UInt32)
  | local (name : String)
  deriving DecidableEq, Repr

namespace VarName

def display : VarName → String
  | .null => "Null"
  | .global name element => if element = 0 then name else s!"{name}+{element}"
  | .local name => s!"local {name}"

end VarName

/-- The format version of new images. -/
def formatVersion : UInt32 := 8

structure Image where
  version : UInt32 := formatVersion
  globals : GlobalTable := {}
  scripts : List Script := []
  code : List Instruction := []
  data : DataSection := {}
  autostart : List SymbolRef := []
  inits : List Initializer := [.null]
  deriving DecidableEq, Repr

/-- The instructions up to and including the first END. -/
def closedRun? : List Instruction → Option (List Instruction)
  | [] => none
  | i :: r => if i.opcode = .endRun then some [i] else (closedRun? r).map (i :: ·)

namespace Image

def empty : Image := {}

/-- The script at position `id - 1` if it has that id, else the first one that has it. -/
def scriptById? (m : Image) (id : UInt32) : Option Script :=
  match id.toNat with
  | 0 => none
  | n + 1 => do
    let s ← m.scripts[n]?
    if s.id = id then some s else m.scripts.find? fun s => s.id == id

def scriptByName? (m : Image) (name : String) : Option Script :=
  m.scripts.find? fun s => s.name == name

/-- The run of instructions at an address, when END closes it. -/
def runAt? (m : Image) (address : UInt32) : Option (List Instruction) :=
  closedRun? (m.code.drop address.toNat)

def scriptCode? (m : Image) (s : Script) : Option (List Instruction) := m.runAt? s.address

/-- What a variable id means inside a script. -/
def varName? (m : Image) (s : Script) (id : UInt32) : Option VarName :=
  if id = 0 then some .null
  else if id ≤ s.boundary then
    (m.globals.bySlot? id).map fun (v, element) => .global v.name element
  else s.locals[id.toNat - s.boundary.toNat - 1]?.map .local

def nextAddress (m : Image) : UInt32 := Word.saturate m.code.length

/-- Equality of all fields, with floats compared as numbers. -/
def valueEq (a b : Image) : Bool :=
  a.version == b.version && a.globals == b.globals && a.scripts == b.scripts
    && a.code.length == b.code.length && (a.code.zip b.code).all (fun p => p.1.valueEq p.2)
    && a.data == b.data && a.autostart == b.autostart
    && a.inits.length == b.inits.length && (a.inits.zip b.inits).all (fun p => p.1.valueEq p.2)

end Image

end ScriptImage
