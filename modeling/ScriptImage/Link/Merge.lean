import ScriptImage.Link.Texts
import ScriptImage.Link.Relocation
import ScriptImage.Link.Manifest

/-!
Merging modules into one image, in order. A module sees what the modules before it define: its
imported variables are found among their globals and its imported scripts among their scripts.
Then its scripts are numbered on, its instructions are relocated and appended, and its jumps must
stay inside the code so far.
-/

namespace ScriptImage

structure LinkOptions where
  sharedTexts : Bool := false
  debugMetadata : Bool := false
  /-- Whether the log tells each operand that changes. -/
  trace : Bool := false
  deriving DecidableEq, Repr

/-- An image under construction. -/
structure Draft where
  texts : TextPool := {}
  globals : GlobalTable := {}
  scripts : List Script := []
  code : List Instruction := []
  autostart : List SymbolRef := []
  inits : List Initializer := [.null]
  /-- Addresses of the pushes of text offsets. -/
  textPushes : List UInt32 := []
  inputs : List LinkInput := []
  deriving DecidableEq, Repr

/-- A module of which all but the scripts is merged. -/
structure Prepared where
  draft : Draft
  relocation : Relocation
  firstScriptId : UInt32
  hits : Nat
  deriving DecidableEq, Repr

/-- A script of a module with its moved instructions. -/
structure CopiedScript where
  script : Script
  moved : List Moved
  deriving DecidableEq, Repr

namespace Draft

def nextAddress (d : Draft) : UInt32 := Word.saturate d.code.length

/-- The id of an imported variable among the globals so far. -/
def resolveVar (globals : GlobalTable) (v : ImportedVar) : Except Stop UInt32 := do
  match ← globals.find? v.name with
  | none => Stop.refuse (.unresolvedVariable v.name)
  | some (id, var) =>
    if v.index = 0 then Word.add id v.index
    else if !var.isArray then Stop.refuse (.notAnArray v.name v.index)
    else if var.size ≤ v.index then Stop.refuse (.arrayBounds v.name v.index var.size)
    else Word.add id v.index

def declareGlobal (t : GlobalTable) (v : GlobalVar) : Except Stop GlobalTable :=
  match t.declare v with
  | .ok (_, t) => .ok t
  | .error .duplicateName => Stop.refuse (.duplicateGlobal v.name)
  | .error .slotOverflow => Stop.refuse .tooManyGlobals

/-- The id of an imported script among the scripts so far. -/
def resolveScript (scripts : List Script) (s : ImportedScript) : Except Stop UInt32 :=
  match scripts.find? fun t => t.name == s.name with
  | none => Stop.refuse (.unresolvedScript s.name)
  | some found =>
    if found.params = s.params then .ok found.id
    else Stop.refuse (.paramMismatch s.name s.params found.params)

/-- Merges all of a module but its scripts, given the slots of all modules together. -/
def prepare (share : Bool) (total : UInt32) (d : Draft) (m : ObjectModule) :
    Except Stop Prepared := do
  let firstScriptId ← Word.add (Word.saturate d.scripts.length) 1
  let (texts, moves) ← d.texts.merge share m.image.data
  let importedVars ← m.importedVars.mapM (resolveVar d.globals)
  let globals ← m.image.globals.vars.foldlM declareGlobal d.globals
  let importedScripts ← m.importedScripts.mapM (resolveScript d.scripts)
  let ids ← m.image.scripts.zipIdx.mapM fun (s, i) =>
    return (s.id, ← Word.add firstScriptId (Word.saturate i))
  let localShift ← Word.sub total m.image.globals.slots
  return {
    draft := { d with texts, globals, inits := d.inits ++ m.image.inits.drop 1 }
    relocation := {
      scripts := ids.reverse
      importedScripts, importedVars, localShift
      texts := moves.offsets
      globalOffset := d.globals.slots
      slots := m.image.globals.slots }
    firstScriptId
    hits := moves.hits }

/-- Copies one script to an address under a new id. -/
def copyScript (r : Relocation) (m : ObjectModule) (id newStart : UInt32) (s : Script) :
    Except Stop CopiedScript :=
  match m.image.scriptCode? s with
  | none => Stop.refuse (.unterminatedScript s.name)
  | some run => do
    let moved ← r.moveRun m.textPushes s newStart run
    let boundary := Word.saturate (s.boundary.toNat + r.localShift.toNat)
    return { script := { s with id, boundary, address := newStart }, moved }

/-- Copies scripts one after the other, the first to position `length` of the code. -/
def copyScripts (r : Relocation) (m : ObjectModule) (firstId : UInt32) :
    Nat → Nat → List Script → Except Stop (List CopiedScript)
  | _, _, [] => .ok []
  | i, length, s :: rest => do
    let id ← Word.add firstId (Word.saturate i)
    let c ← copyScript r m id (Word.saturate length) s
    let cs ← copyScripts r m firstId (i + 1) (length + c.moved.length) rest
    return c :: cs

def resolveAutostart (r : Relocation) (s : SymbolRef) : Except Stop SymbolRef :=
  match r.scriptId s with
  | .ok id => .ok (.internal id)
  | .error (kind, id) => Stop.refuse (.badAutostart kind id)

/-- Refuses the first jump that leads past the end of the code. -/
def checkJumps (size : UInt32) (jumps : List (UInt32 × UInt32)) : Except Stop Unit :=
  match jumps.find? fun (_, target) => size ≤ target with
  | some (address, target) => Stop.refuse (.badJumpTarget address target.toNat)
  | none => .ok ()

/-- Merges a module after those already merged. -/
def merge (share : Bool) (total : UInt32) (d : Draft) (m : ObjectModule) : Except Stop Draft := do
  let p ← d.prepare share total m
  let copied ← copyScripts p.relocation m p.firstScriptId 0 d.code.length m.image.scripts
  let moved := copied.flatMap CopiedScript.moved
  let code := d.code ++ copied.flatMap fun c => Moved.settle c.moved
  checkJumps (Word.saturate code.length) (moved.filterMap Moved.jump?)
  let autostart ← m.image.autostart.mapM (resolveAutostart p.relocation)
  let input : LinkInput := {
    file := m.name
    baseAddress := d.nextAddress
    firstScriptId := p.firstScriptId
    globalOffset := p.relocation.globalOffset
    scripts := m.image.scripts.length
    instructions := moved.length
    dedupHits := p.hits }
  return { p.draft with
    scripts := d.scripts ++ copied.map CopiedScript.script
    code
    autostart := d.autostart ++ autostart
    textPushes := d.textPushes ++ moved.filterMap (Moved.textPush? m.textPushes)
    inputs := d.inputs ++ [input] }

/-- The texts that tell about the build: properties, source directories and text pushes. -/
def metadataTexts (d : Draft) : List String :=
  d.texts.properties
    ++ (if d.texts.sourceDirs = [] then []
      else [TextKind.sourceDirsMarker ++ ";".intercalate d.texts.sourceDirs])
    ++ [TextKind.pushListMarker ++ ",".intercalate (d.textPushes.map fun a => toString a)]

def finalData (debug : Bool) (d : Draft) : DataSection :=
  if debug then d.metadataTexts.foldl (fun data s => (data.pushText s).2) d.texts.data
  else d.texts.data

def toImage (debug : Bool) (d : Draft) : Image :=
  { version := formatVersion
    globals := d.globals
    scripts := d.scripts
    code := d.code
    data := d.finalData debug
    autostart := d.autostart
    inits := d.inits }

end Draft

structure Linked where
  image : Image
  manifest : LinkManifest
  deriving DecidableEq, Repr

/-- The slots of all modules together, which must not pass the last slot. -/
def totalSlots (modules : List ObjectModule) : Except LinkFailure UInt32 :=
  modules.foldlM (fun total m =>
    let sum := total.toNat + m.image.globals.slots.toNat
    if sum ≤ maxSlot then .ok (UInt32.ofNat sum)
    else .error (.refused ⟨m.name, .tooManyGlobals⟩)) 0

/-- Merges modules in order; an error carries the name of the module it arose in. -/
def mergeAll (share : Bool) (total : UInt32) (d : Draft) (modules : List ObjectModule) :
    Except LinkFailure Draft :=
  modules.foldlM (fun d m => (d.merge share total m).mapError (Stop.inModule m.name)) d

def Draft.finish (debug : Bool) (modules : List ObjectModule) (d : Draft) : Linked :=
  let image := d.toImage debug
  { image
    manifest := {
      version := image.version
      inputs := d.inputs
      totalScripts := image.scripts.length
      totalInstructions := image.code.length
      totalGlobalSlots := image.globals.slots
      dataBytesBefore := modules.foldl (fun n m => n + m.image.data.size) 0
      dataBytesAfter := image.data.size
      buildProperties := d.texts.properties
      sourceDirs := d.texts.sourceDirs } }

/-- Links modules in order into one image. -/
def link (options : LinkOptions) (modules : List ObjectModule) : Except LinkFailure Linked := do
  let total ← totalSlots modules
  let d ← mergeAll options.sharedTexts total {} modules
  return d.finish options.debugMetadata modules

end ScriptImage
