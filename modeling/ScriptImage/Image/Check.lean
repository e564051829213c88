import ScriptImage.Image
import ScriptImage.FormatError

/-!
Whether the tables of an image fit together. Script ids count from 1, every run is closed, every
variable, target and script an instruction names exists, no placeholder is left, every reference
has its float push, and what starts at load time is a script. The first defect is reported.
-/

namespace ScriptImage.Image

/-- A variable operand of a run that names nothing in its script. -/
def variableDefect? (m : Image) (s : Script) (i : Instruction) (k : Nat) : Option Corruption :=
  match i.operand with
  | .variable (.internal v) =>
    if (m.varName? s v).isNone then some (.unknownVariable (s.address.toNat + k) s.name v)
    else none
  | _ => none

def scriptDefect? (m : Image) (s : Script) (position : Nat) : Option Corruption :=
  if s.id.toNat ≠ position + 1 then some (.scriptId s.name s.id (position + 1))
  else
    match m.scriptCode? s with
    | none => some (.unterminated s.name s.address)
    | some run => run.zipIdx.findSome? fun (i, k) => m.variableDefect? s i k

/-- Whether a script id is one of those that count the scripts of the image. -/
def isScriptId (m : Image) (id : UInt32) : Bool := 1 ≤ id.toNat && id.toNat ≤ m.scripts.length

def operandDefect? (m : Image) (i : Instruction) (pc : Nat) : Option Corruption :=
  match i.operand with
  | .address a => if m.code.length ≤ a.toNat then some (.jumpOutside pc a m.code.length) else none
  | .script (.internal id) => if m.isScriptId id then none else some (.unknownScript pc id)
  | .script (.external _) | .variable (.external _) => some (.placeholder pc)
  | _ => none

/-- The instruction two positions earlier. -/
def paired? (m : Image) (pc : Nat) : Option Instruction :=
  if 2 ≤ pc then m.code[pc - 2]? else none

def referenceDefect? (m : Image) (i : Instruction) (pc : Nat) : Option Corruption :=
  if i.isReference ∧ ((m.paired? pc).bind Instruction.floatVariable?).isNone then
    some (.unpairedReference pc)
  else none

def codeDefect? (m : Image) (i : Instruction) (pc : Nat) : Option Corruption :=
  m.operandDefect? i pc <|> m.referenceDefect? i pc

def autostartDefect? (m : Image) : SymbolRef → Option Corruption
  | .internal id => if m.isScriptId id then none else some (.badAutostart (.internal id))
  | r => some (.badAutostart r)

/-- The first defect: of scripts in order, then of instructions, then of the autostart list. -/
def defect? (m : Image) : Option Corruption :=
  (m.scripts.zipIdx.findSome? fun (s, i) => m.scriptDefect? s i)
    <|> (m.code.zipIdx.findSome? fun (i, pc) => m.codeDefect? i pc)
    <|> m.autostart.findSome? m.autostartDefect?

def isValid (m : Image) : Bool := m.defect?.isNone

end ScriptImage.Image
