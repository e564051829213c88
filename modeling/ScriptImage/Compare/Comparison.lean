import ScriptImage.Compare.Code
import ScriptImage.Distinct
import ScriptImage.Json.Printer
import ScriptImage.Log

/-!
Comparing two images: versions, globals, scripts by name, scripts started at load time, in strict
mode the bytes of the data sections, and initial values. Once the limit of mismatches is reached
no further script is compared. The images are equal when nothing found refutes it.
-/

namespace ScriptImage

structure CompareOptions where
  mode : CompareMode := .normal
  /-- The names of the scripts to compare; all when absent. -/
  scripts : Option (List String) := none
  maxMismatches : Nat := 20
  /-- Whether the log tells each pair of instructions. -/
  trace : Bool := false
  deriving DecidableEq, Repr

structure Comparison where
  mode : CompareMode
  entries : List Entry
  deriving DecidableEq, Repr

namespace Comparison

def report (c : Comparison) : List Finding := c.entries.filterMap Entry.finding?

def equal (c : Comparison) : Bool := !c.report.any Finding.refutes

/-- The number of findings that count. -/
def mismatches (c : Comparison) : Nat := c.report.countP Finding.counts

def summary (c : Comparison) : String :=
  if c.equal then s!"files are equal ({c.mode.name} mode)"
  else
    s!"files differ ({c.mode.name} mode, {c.mismatches} mismatches)" ++
      match c.mode.looser? with
      | some next => "; try --mode " ++ next.name
      | none => ""

end Comparison

def countingEntries (es : List Entry) : Nat :=
  (es.filterMap Entry.finding?).countP Finding.counts

namespace CompareOptions

variable (o : CompareOptions) (a b : Image)

def includes (name : String) : Bool :=
  match o.scripts with
  | some names => names.contains name
  | none => true

def globalFindings : Except Fault (List FindingKind) :=
  if o.mode = .strict then
    let va := a.globals.vars
    let vb := b.globals.vars
    if va.length ≠ vb.length then .ok [.globalCount va.length vb.length]
    else
      match (va.zip vb).zipIdx.find? fun (p, _) => p.1 ≠ p.2 with
      | some ((x, y), i) => .ok [.globalAt i x y]
      | none => .ok []
  else do
    let missing ← a.globals.names.filterM fun n => return (← b.globals.find? n).isNone
    return missing.map .globalMissing

def countFindings : List FindingKind :=
  if a.scripts.length = b.scripts.length then []
  else [.scriptCount a.scripts.length b.scripts.length]

/-- Compares one script of the first image with the one of the same name in the second. -/
def scriptEntries (s : Script) : Except Fault (List Entry) :=
  match b.scriptByName? s.name with
  | none => .ok [.finding ⟨some s.name, .scriptMissing⟩]
  | some t => ScriptPair.compare ⟨a, b, s, t⟩ o.mode

/-- Compares scripts in order, when `found` mismatches are known already. -/
def scriptsEntries (found : Nat) : List Script → Except Fault (List Entry)
  | [] => .ok []
  | s :: rest =>
    if !o.includes s.name then scriptsEntries found rest
    else if o.maxMismatches ≤ found then .ok [.finding ⟨none, .stopped found⟩]
    else do
      let es ← o.scriptEntries a b s
      let more ← scriptsEntries (found + countingEntries es) rest
      return es ++ more

/-- The names of the scripts started at load time, ascending; none when one does not resolve. -/
def autostartNames? (m : Image) : Option (List String) :=
  (m.autostart.mapM m.scriptName?).map ascending

def autostartFindings : List FindingKind :=
  if o.mode = .strict then
    if a.autostart = b.autostart then [] else [.autostart a.autostart b.autostart]
  else
    match autostartNames? a, autostartNames? b with
    | some na, some nb =>
      (na.filter fun n => !nb.contains n).map .autostartMissingSecond
        ++ (nb.filter fun n => !na.contains n).map .autostartMissingFirst
    | _, _ => [.autostartUnknown]

/-- The first position at which two byte lists differ, or the length of the shorter. -/
def firstDifference : List UInt8 → List UInt8 → Nat
  | x :: xs, y :: ys => if x = y then firstDifference xs ys + 1 else 0
  | _, _ => 0

def dataFindings : List FindingKind :=
  let da := a.data.bytes
  let db := b.data.bytes
  if o.mode ≠ .strict ∨ da = db then []
  else [.data (firstDifference da db) da.length db.length]

def initFindings : List FindingKind :=
  if o.mode = .strict then
    if a.inits.length ≠ b.inits.length then [.initCount a.inits.length b.inits.length]
    else
      match (a.inits.zip b.inits).find? fun p => !p.1.valueEq p.2 with
      | some (x, y) => [.initAt x y]
      | none => []
  else
    a.inits.filterMap fun x =>
      match b.inits.find? fun y => y.name == x.name with
      | none => some (.initMissing x.name)
      | some y => if y.value.valueEq x.value then none else some (.initValue x.name x.value y.value)

/-- A finding that belongs to no script. -/
def general (k : FindingKind) : Entry := .finding ⟨none, k⟩

def entries : Except Fault (List Entry) :=
  if a.version ≠ b.version then .ok [general (.version a.version b.version)]
  else do
    let globals ← o.globalFindings a b
    let start := (globals ++ countFindings a b).map general
    let scripts ← o.scriptsEntries a b (countingEntries start) a.scripts
    return start ++ scripts
      ++ (o.autostartFindings a b ++ o.dataFindings a b ++ o.initFindings a b).map general

end CompareOptions

/-- Compares two images; a fault when the tables of one contradict each other. -/
def compareImages (o : CompareOptions) (a b : Image) : Except Fault Comparison := do
  let entries ← o.entries a b
  return { mode := o.mode, entries }

namespace Finding

def toJson (f : Finding) : Json :=
  .record [("severity", .str f.severity.label),
    ("script", match f.script with
      | some s => .str s
      | none => .null),
    ("message", .str f.message)]

def event (f : Finding) : LogEvent :=
  { level := .debug
    message := f.message
    fields := ("severity", .plain f.severity.name) ::
      (f.script.map fun s => ("script", .text s)).toList }

end Finding

namespace Comparison

def toJson (c : Comparison) : Json :=
  .record [("equal", .bool c.equal), ("report", .array (c.report.map Finding.toJson)),
    ("summary", .str c.summary)]

def entryEvent? (trace : Bool) : Entry → Option LogEvent
  | .finding f => some f.event
  | .visited pa a pb b =>
    if trace then
      some { level := .trace, message := s!"{pa}: {a.display}  |  {pb}: {b.display}" }
    else none

/-- The events of a comparison. -/
def events (trace : Bool) (c : Comparison) : List LogEvent :=
  c.entries.filterMap (entryEvent? trace) ++
    [{ level := .debug
       message := "comparison done"
       fields := [("equal", .plain (toString c.equal)), LogEvent.nat "mismatches" c.mismatches,
         ("mode", .plain c.mode.name)] }]

end Comparison

end ScriptImage
