import ScriptImage.Link.Merge
import ScriptImage.Log

/-!
The log of a link. Each module that is begun has an event; when operands are traced, so has each
instruction whose operand changes, up to the one that stops the link. A link that succeeds ends
with the totals.
-/

namespace ScriptImage

/-- The results of a function on a list up to its first failure. -/
def untilFailure (f : α → Except ε β) : List α → List β
  | [] => []
  | x :: xs =>
    match f x with
    | .ok y => y :: untilFailure f xs
    | .error _ => []

namespace Moved

def changed (m : Moved) : Bool := !m.after.operand.valueEq m.before.operand

def event (module : String) (m : Moved) : LogEvent :=
  { level := .trace
    message := m.before.display ++ " -> " ++ m.after.display
    fields := [("module", .text module), LogEvent.nat "old_address" m.oldAddress.toNat,
      LogEvent.nat "new_address" m.newAddress.toNat] }

end Moved

namespace Draft

def mergingEvent (d : Draft) (m : ObjectModule) : LogEvent :=
  { level := .debug
    message := "merging module"
    fields := [("module", .plain m.name), LogEvent.nat "base_address" d.nextAddress.toNat,
      LogEvent.nat "scripts" m.image.scripts.length,
      LogEvent.nat "instructions" m.image.code.length] }

/-- The instructions moved when scripts are copied, up to the first that cannot be. -/
def movedUntilFailure (r : Relocation) (m : ObjectModule) : Nat → List Script → List Moved
  | _, [] => []
  | length, s :: rest =>
    match m.image.scriptCode? s with
    | none => []
    | some run =>
      let moved := untilFailure
        (fun (i, k) => r.move m.textPushes s (Word.saturate length) run k i) run.zipIdx
      if moved.length = run.length then
        moved ++ movedUntilFailure r m (length + run.length) rest
      else moved

def mergeEvents (options : LinkOptions) (total : UInt32) (d : Draft) (m : ObjectModule) :
    List LogEvent :=
  d.mergingEvent m ::
    if options.trace then
      match d.prepare options.sharedTexts total m with
      | .error _ => []
      | .ok p =>
        ((movedUntilFailure p.relocation m d.code.length m.image.scripts).filter
          Moved.changed).map (Moved.event m.name)
    else []

/-- The events of merging modules, up to the one that fails. -/
def mergeAllEvents (options : LinkOptions) (total : UInt32) :
    Draft → List ObjectModule → List LogEvent
  | _, [] => []
  | d, m :: ms =>
    d.mergeEvents options total m ++
      match d.merge options.sharedTexts total m with
      | .error _ => []
      | .ok d => mergeAllEvents options total d ms

end Draft

def LinkManifest.doneEvent (m : LinkManifest) : LogEvent :=
  { level := .info
    message := "link done"
    fields := [LogEvent.nat "inputs" m.inputs.length, LogEvent.nat "scripts" m.totalScripts,
      LogEvent.nat "instructions" m.totalInstructions,
      LogEvent.nat "globals" m.totalGlobalSlots.toNat] }

/-- The events of linking modules. -/
def linkEvents (options : LinkOptions) (modules : List ObjectModule) : List LogEvent :=
  match totalSlots modules with
  | .error _ => []
  | .ok total =>
    Draft.mergeAllEvents options total {} modules ++
      match link options modules with
      | .error _ => []
      | .ok linked => [linked.manifest.doneEvent]

end ScriptImage
