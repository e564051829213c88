import ScriptImage.Image

/-!
What a comparison finds. A finding is a difference, a sign that one image is corrupt, or a note;
it may belong to a script.
-/

namespace ScriptImage

inductive Severity where
  /-- The images differ. -/
  | mismatch
  /-- An id or offset of an image names nothing. -/
  | corrupt
  /-- For information only. -/
  | note
  deriving DecidableEq, Repr

namespace Severity

def label : Severity → String
  | .mismatch => "mismatch"
  | .corrupt => "corrupt"
  | .note => "note"

/-- The name used in logs. -/
def name : Severity → String
  | .mismatch => "Mismatch"
  | .corrupt => "Corrupt"
  | .note => "Note"

end Severity

/-- A pair of source positions. -/
structure Location where
  fileA : String
  lineA : UInt32
  fileB : String
  lineB : UInt32
  deriving DecidableEq, Repr

namespace Location

def display (l : Location) : String :=
  s!"{l.fileA}:{l.lineA} / {l.fileB}:{l.lineB}"

end Location

/-- The kinds of operand that have to resolve. -/
inductive ResolvedKind where
  | script
  | variable
  deriving DecidableEq, Repr

namespace ResolvedKind

def label : ResolvedKind → String
  | .script => "script"
  | .variable => "variable"

end ResolvedKind

/-- What was found; where two values stand, the first is that of the first image. -/
inductive FindingKind where
  | version (a b : UInt32)
  | globalCount (a b : Nat)
  | globalAt (i : Nat) (a b : GlobalVar)
  | globalMissing (name : String)
  | scriptCount (a b : Nat)
  | scriptMissing
  | params (a b : UInt32)
  | locals (a b : List String)
  | scriptId (a b : UInt32)
  | boundary (a b : UInt32)
  | address (a b : UInt32)
  | codeEnds (at_ : Location)
  | endsOnOneSide (at_ : Location) (a b : Instruction)
  | instruction (at_ : Location) (a b : Instruction)
  | unresolved (at_ : Location) (kind : ResolvedKind) (a b : Instruction)
  | autostart (a b : List SymbolRef)
  | autostartUnknown
  | autostartMissingSecond (name : String)
  | autostartMissingFirst (name : String)
  | data (at_ : Nat) (a b : Nat)
  | initCount (a b : Nat)
  | initAt (a b : Initializer)
  | initMissing (name : String)
  | initValue (name : String) (a b : InitialValue)
  /-- The limit of mismatches is reached and the remaining scripts are not compared. -/
  | stopped (mismatches : Nat)
  deriving DecidableEq, Repr

namespace FindingKind

def severity : FindingKind → Severity
  | .codeEnds _ | .unresolved .. | .autostartUnknown => .corrupt
  | .initMissing _ | .stopped _ => .note
  | _ => .mismatch

/-- Whether the finding counts as a mismatch. -/
def counts (k : FindingKind) : Bool := k.severity != .note

/-- Whether the images cannot be equal after this finding; stopping early leaves it open. -/
def refutes : FindingKind → Bool
  | .stopped _ => true
  | k => k.counts

def describeRefs (rs : List SymbolRef) : String :=
  "[" ++ ", ".intercalate (rs.map SymbolRef.describe) ++ "]"

def message : FindingKind → String
  | .version a b => s!"format version {a} vs {b}"
  | .globalCount a b => s!"global count {a} vs {b}"
  | .globalAt i a b => s!"global #{i}: {a.name}[{a.size}] vs {b.name}[{b.size}]"
  | .globalMissing name => s!"global `{name}` missing from second file"
  | .scriptCount a b => s!"script count {a} vs {b}"
  | .scriptMissing => "script missing from second file"
  | .params a b => s!"parameter count {a} vs {b}"
  | .locals a b => "locals [" ++ ", ".intercalate a ++ "] vs [" ++ ", ".intercalate b ++ "]"
  | .scriptId a b => s!"id {a} vs {b}"
  | .boundary a b => s!"global boundary {a} vs {b}"
  | .address a b => s!"address {a} vs {b}"
  | .codeEnds l => s!"{l.display}: code ends before END"
  | .endsOnOneSide l a b =>
    s!"{l.display}: script ends on one side only ({a.display} vs {b.display})"
  | .instruction l a b => s!"{l.display}: {a.display} vs {b.display}"
  | .unresolved l kind a b =>
    s!"{l.display}: {kind.label} operand does not resolve ({a.display} vs {b.display})"
  | .autostart a b => "autostart " ++ describeRefs a ++ " vs " ++ describeRefs b
  | .autostartUnknown => "autostart references an unknown script"
  | .autostartMissingSecond name => s!"autostart `{name}` missing from second file"
  | .autostartMissingFirst name => s!"autostart `{name}` missing from first file"
  | .data i a b => s!"data sections differ at byte {i} ({a} vs {b} bytes)"
  | .initCount a b => s!"initializer count {a} vs {b}"
  | .initAt a b =>
    s!"initializer {a.name} = {a.value.display} vs {b.name} = {b.value.display}"
  | .initMissing name => s!"initializer `{name}` missing from second file"
  | .initValue name a b => s!"initializer `{name}`: {a.display} vs {b.display}"
  | .stopped n => s!"stopped after {n} mismatches; remaining scripts not compared"

end FindingKind

structure Finding where
  script : Option String
  kind : FindingKind
  deriving DecidableEq, Repr

namespace Finding

def severity (f : Finding) : Severity := f.kind.severity

def message (f : Finding) : String := f.kind.message

def counts (f : Finding) : Bool := f.kind.counts

def refutes (f : Finding) : Bool := f.kind.refutes

/-- The line of a report. -/
def display (f : Finding) : String :=
  match f.script with
  | some s => f.severity.label ++ ": [" ++ s ++ "] " ++ f.message
  | none => f.severity.label ++ ": " ++ f.message

end Finding

end ScriptImage
