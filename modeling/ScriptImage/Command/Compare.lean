import ScriptImage.Command.Session
import ScriptImage.Image.Codec

/-!
The tool that compares two image files. Findings and the verdict are its results; the exit code
tells the verdict too.
-/

namespace ScriptImage

structure CompareSettings where
  common : CommonSettings := {}
  /-- Paths of the images, empty until their arguments are read. -/
  first : String := ""
  second : String := ""
  mode : Option CompareMode := none
  /-- Names of the scripts to compare; none when all are. -/
  scripts : List String := []
  maxMismatches : Option Nat := none
  /-- Where to write the report. -/
  report : Option String := none
  deriving DecidableEq, Repr

/-- A count in decimal digits, with or without a plus sign, that fits 64 bits. -/
def countArgument? (text : String) : Option Nat :=
  let digits := match text.toList with
    | '+' :: ds => ds
    | ds => ds
  if digits ≠ [] ∧ digits.all Char.isDigit then
    let n := digits.foldl (fun a c => a * 10 + (c.toNat - '0'.toNat)) 0
    if n < 0x10000000000000000 then some n else none
  else none

namespace CompareSettings

def tool : String := "chl-cmp"

def switches : List (Switch CompareSettings) :=
  [.value "mode" fun v s => (CompareMode.ofName? v).map fun mode => { s with mode := some mode },
    (Switch.value "script" fun v s => some { s with scripts := s.scripts ++ [v] }).repeatable,
    .value "max-mismatches" fun v s =>
      (countArgument? v).map fun n => { s with maxMismatches := some n },
    .path "json" fun p s => { s with report := some p }]
    ++ Switch.common fun f s => { s with common := f s.common }

def grammar : Grammar CompareSettings where
  switches := switches
  positional text s :=
    match pathArgument? text with
    | none => .error (.invalidValue "<IMAGE>" text)
    | some p =>
      if s.first.isEmpty then .ok { s with first := p }
      else if s.second.isEmpty then .ok { s with second := p }
      else .error (.unexpectedArgument text)
  defect? s := if s.second.isEmpty then some .missingArgument else s.common.defect?

/-- The options of a comparison, given those of the configuration. -/
def options (s : CompareSettings) (configured : CompareOptions) : CompareOptions :=
  { mode := s.mode.getD configured.mode
    scripts := if s.scripts.isEmpty then none else some s.scripts
    maxMismatches := s.maxMismatches.getD configured.maxMismatches
    trace := s.common.trace }

end CompareSettings

namespace Severity

def style : Severity → Style
  | .mismatch => .yellow
  | .corrupt => .red
  | .note => .cyan

end Severity

namespace Host

variable [Monad m] (h : Host m)

def compareWork (s : CompareSettings) : Work m UInt8 := do
  let paint := s.common.color.paint
  h.log s.common ⟨.info, banner CompareSettings.tool, []⟩
  let config ← h.loadConfig s.common
  let o := s.options config.compare
  let start ← h.clock
  let a ← h.load Image.decode .invalidImage s.first
  let b ← h.load Image.decode .invalidImage s.second
  match compareImages o a b with
  | .error f => throw (.fault f)
  | .ok c =>
    h.logAll s.common (c.events o.trace)
    if !s.common.quiet then
      c.report.forM fun f => h.printLine (paint f.severity.style f.display)
    h.printLine (paint (if c.equal then .green else .red) c.summary)
    if let some path := s.report then
      h.save path (Utf8.encode c.toJson.prettyText)
      h.reportLine s!"🧾 Rapport JSON → {path}"
    h.reportTime s.common start
    return if c.equal then 0 else 1

/-- Runs the comparison; the exit code is 0 when the images are equal, 1 when they differ and 2
when it fails. -/
def runCompare (arguments : List String) : m UInt8 :=
  h.runTool CompareSettings.tool "<FIRST> <SECOND>" (CompareSettings.grammar.parse {} arguments)
    fun s => h.finish s.common 2 (h.compareWork s)

end Host

end ScriptImage
