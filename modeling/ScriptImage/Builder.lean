import ScriptImage.ObjectModule

/-!
Building an object module step by step. Globals are declared before the scripts that see them:
the boundary of a script is the number of slots taken when it is begun.
-/

namespace ScriptImage

structure Builder where
  /-- Source file recorded on each script. -/
  source : String
  result : ObjectModule
  deriving DecidableEq, Repr

namespace DeclareError

def message (name : String) : DeclareError → String
  | .duplicateName => s!"global `{name}` declared twice"
  | .slotOverflow => s!"global `{name}` does not fit in the slot space"

end DeclareError

namespace Builder

def new (name : String) : Builder := ⟨name, { name }⟩

def image (b : Builder) : Image := b.result.image

def withImage (b : Builder) (m : Image) : Builder :=
  { b with result := { b.result with image := m } }

def declare (b : Builder) (v : GlobalVar) : Except DeclareError (SymbolRef × Builder) := do
  let (id, globals) ← b.image.globals.declare v
  return (.internal id, b.withImage { b.image with globals })

def global (b : Builder) (name : String) : Except DeclareError (SymbolRef × Builder) :=
  b.declare (.scalar name)

def array (b : Builder) (name : String) (size : UInt32) :
    Except DeclareError (SymbolRef × Builder) :=
  b.declare (.array name size)

/-- Records the initial value of a global. -/
def setInitial (b : Builder) (name : String) (value : InitialValue) : Builder :=
  b.withImage { b.image with inits := b.image.inits ++ [⟨name, value⟩] }

/-- Appends a text to the data section and gives its offset. -/
def text (b : Builder) (s : String) : UInt32 × Builder :=
  let (offset, data) := b.image.data.pushText s
  (offset, b.withImage { b.image with data })

def importVar (b : Builder) (name : String) (index : UInt32) : SymbolRef × Builder :=
  let (p, importedVars) := insertNew b.result.importedVars ⟨name, index⟩
  (.external (Word.saturate p), { b with result := { b.result with importedVars } })

def importScript (b : Builder) (name : String) (params : UInt32) : SymbolRef × Builder :=
  let (p, importedScripts) := insertNew b.result.importedScripts ⟨name, params⟩
  (.external (Word.saturate p), { b with result := { b.result with importedScripts } })

/-- Begins a script at the current address; its locals start with the parameters. -/
def beginScript (b : Builder) (name : String) (params : UInt32) (locals : List String) :
    SymbolRef × Builder :=
  let id := Word.saturate b.image.scripts.length + 1
  let script : Script := {
    id, name, params, locals
    boundary := b.image.globals.slots
    address := b.image.nextAddress
    source := b.source }
  (.internal id, b.withImage { b.image with scripts := b.image.scripts ++ [script] })

/-- A local variable of the script begun last. -/
def local? (b : Builder) (name : String) : Option SymbolRef := do
  let s ← b.image.scripts.getLast?
  let i ← s.locals.idxOf? name
  return .internal (s.boundary + 1 + Word.saturate i)

/-- Appends an instruction and gives its address. -/
def emit (b : Builder) (i : Instruction) : UInt32 × Builder :=
  (b.image.nextAddress, b.withImage { b.image with code := b.image.code ++ [i] })

/-- Appends a text and the push of its offset, and gives the address of the push. -/
def pushText (b : Builder) (s : String) : UInt32 × Builder :=
  let (offset, b) := b.text s
  let (address, b) := b.emit (.pushInt (Word.saturateSigned offset))
  (address, { b with
    result := { b.result with textPushes := insertAscending address b.result.textPushes } })

def here (b : Builder) : UInt32 := b.image.nextAddress

/-- Gives the jump at an address another target; anything else there stays as it is. -/
def patchJump (b : Builder) (address target : UInt32) : Builder :=
  b.withImage { b.image with
    code := b.image.code.modify address.toNat fun i =>
      match i.operand with
      | .address _ => { i with operand := .address target }
      | _ => i }

def autostart (b : Builder) (s : SymbolRef) : Builder :=
  b.withImage { b.image with autostart := b.image.autostart ++ [s] }

end Builder

end ScriptImage
