import ScriptImage.ObjectModule
import ScriptImage.Link.Error

/-!
Relocating the instructions of a module. A relocation holds what the ids, positions and offsets
of one module become in the image. Each instruction of a run is moved on its own; the float that
a reference reads two instructions later is given the id of its variable when the whole run has
been moved.
-/

namespace ScriptImage

structure Relocation where
  /-- Ids of the module's scripts and their new ids, the latest first. -/
  scripts : List (UInt32 × UInt32)
  /-- New ids of imported scripts, by position. -/
  importedScripts : List UInt32
  /-- New ids of imported variables, by position. -/
  importedVars : List UInt32
  /-- Offsets of texts and their new offsets, the latest first. -/
  texts : List (UInt32 × UInt32)
  /-- Slots taken by the modules before. -/
  globalOffset : UInt32
  /-- What is added to boundaries and ids of locals: the slots of all other modules. -/
  localShift : UInt32
  /-- Slots of the module itself. -/
  slots : UInt32
  deriving DecidableEq, Repr

/-- The variables of a script: its boundary and its number of locals. -/
structure Scope where
  boundary : UInt32
  locals : UInt32
  deriving DecidableEq, Repr

def Script.scope (s : Script) : Scope := ⟨s.boundary, Word.saturate s.locals.length⟩

/-- An instruction on its way into the image. -/
structure Moved where
  oldAddress : UInt32
  newAddress : UInt32
  before : Instruction
  /-- The instruction with its own operand relocated. -/
  after : Instruction
  /-- For a reference, the new id that the float pushed two instructions earlier carries. -/
  pairedId : Option UInt32
  deriving DecidableEq, Repr

namespace Relocation

/-- The new id of a script, or the kind and id of the symbol that does not exist. -/
def scriptId (r : Relocation) : SymbolRef → Except (SymbolKind × UInt32) UInt32
  | .internal id =>
    match r.scripts.lookup id with
    | some new => .ok new
    | none => .error (.script, id)
  | .external p =>
    match r.importedScripts[p.toNat]? with
    | some new => .ok new
    | none => .error (.importedScript, p)

def scriptRef (r : Relocation) (s : SymbolRef) (address : UInt32) : Except Stop UInt32 :=
  match r.scriptId s with
  | .ok id => .ok id
  | .error (kind, id) => Stop.refuse (.unknownSymbol address kind id)

/-- The new id of a local variable. -/
def localVariable (r : Relocation) (v : UInt32) (scope : Scope) (address : UInt32) :
    Except Stop UInt32 := do
  let past ← Word.sub v scope.boundary
  let i ← Word.sub past 1
  if scope.locals ≤ i then Stop.refuse (.unknownSymbol address .localVariable v)
  else
    match Word.add v r.localShift with
    | .ok id => return id
    | .error _ => Stop.refuse (.unknownSymbol address .localVariable v)

/-- The new id of a variable: 0 stays, ids past the boundary are locals, others globals. -/
def varRef (r : Relocation) (v : SymbolRef) (scope : Scope) (address : UInt32) :
    Except Stop UInt32 :=
  match v with
  | .internal v =>
    if v = 0 then .ok 0
    else if scope.boundary < v then r.localVariable v scope address
    else if r.slots < v then Stop.refuse (.unknownSymbol address .globalVariable v)
    else liftM (Word.add v r.globalOffset)
  | .external p =>
    match r.importedVars[p.toNat]? with
    | some id => .ok id
    | none => Stop.refuse (.unknownSymbol address .importedVariable p)

/-- The new target of a jump, which keeps its distance from the start of its script. -/
def target (target start newStart address : UInt32) : Except Stop UInt32 :=
  let t : Int := target.toNat - start.toNat + newStart.toNat
  if 0 ≤ t ∧ t < 0x100000000 then .ok (UInt32.ofNat t.toNat)
  else Stop.refuse (.badJumpTarget address t)

/-- The new offset of a text. -/
def textOffset (r : Relocation) (offset : Int32) (address : UInt32) : Except Stop UInt32 :=
  if 0 ≤ offset.toInt then
    match r.texts.lookup offset.toUInt32 with
    | some new => .ok new
    | none => Stop.refuse (.unknownText address offset)
  else Stop.refuse (.unknownText address offset)

/-- The relocated operand of an instruction; `isText` says that it pushes the offset of a text. -/
def operand (r : Relocation) (i : Instruction) (isText : Bool) (scope : Scope)
    (start newStart address : UInt32) : Except Stop Operand :=
  match i.operand with
  | .address a => .address <$> target a start newStart address
  | .script s => (fun id => .script (.internal id)) <$> r.scriptRef s address
  | .variable v => (fun id => .variable (.internal id)) <$> r.varRef v scope address
  | .int offset =>
    if isText then (fun o => .int (Word.saturateSigned o)) <$> r.textOffset offset address
    else .ok i.operand
  | _ => .ok i.operand

/-- The new id of the variable that the float before a reference names. -/
def pairedVariable (r : Relocation) (paired : Option Instruction) (scope : Scope)
    (address : UInt32) : Except Stop UInt32 :=
  match paired.bind Instruction.floatVariable? with
  | none => Stop.refuse (.malformedReference address)
  | some v => do
    let earlier ← Word.sub address 2
    r.varRef v scope earlier

/-- Moves the instruction at position `k` of a run. -/
def move (r : Relocation) (textPushes : List UInt32) (s : Script) (newStart : UInt32)
    (run : List Instruction) (k : Nat) (i : Instruction) : Except Stop Moved := do
  let oldAddress ← Word.add s.address (Word.saturate k)
  let newAddress ← Word.add newStart (Word.saturate k)
  let isText := i.opcode == .push && textPushes.contains oldAddress
  let operand ← r.operand i isText s.scope s.address newStart oldAddress
  let pairedId ←
    if i.isReference then
      some <$> r.pairedVariable (if 2 ≤ k then run[k - 2]? else none) s.scope oldAddress
    else pure none
  return { oldAddress, newAddress, before := i, after := { i with operand }, pairedId }

/-- Moves a run of instructions. -/
def moveRun (r : Relocation) (textPushes : List UInt32) (s : Script) (newStart : UInt32)
    (run : List Instruction) : Except Stop (List Moved) :=
  run.zipIdx.mapM fun (i, k) => r.move textPushes s newStart run k i

end Relocation

namespace Moved

/-- The instruction as it stands in the image, given the id that a reference asks it to carry. -/
def settled (m : Moved) : Option UInt32 → Instruction
  | none => m.after
  | some id => { m.after with operand := .float (.ofInt id.toNat) }

/-- A moved run in the image: an instruction carries the id that is asked for two later. -/
def settle : List Moved → List Instruction
  | [] => []
  | m :: r => m.settled (r[1]?.bind Moved.pairedId) :: settle r

/-- The target of a jump. -/
def jump? (m : Moved) : Option (UInt32 × UInt32) :=
  match m.after.operand with
  | .address t => some (m.oldAddress, t)
  | _ => none

/-- The new address of a push that was relocated as the offset of a text. -/
def textPush? (textPushes : List UInt32) (m : Moved) : Option UInt32 :=
  match m.before.operand with
  | .int _ =>
    if m.before.opcode == .push && textPushes.contains m.oldAddress then some m.newAddress
    else none
  | _ => none

end Moved

end ScriptImage
