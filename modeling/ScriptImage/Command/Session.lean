import ScriptImage.Command.Arguments
import ScriptImage.Command.Failure
import ScriptImage.Command.Style
import ScriptImage.Config
import ScriptImage.Path
import ScriptImage.Utf8

/-!
What the commands have in common: the options on configuration, colours and verbosity, loading
and saving of files, and how a run begins and ends. Lines for the user and log lines go to the
standard error; the standard output is for results.
-/

namespace ScriptImage

structure CommonSettings where
  config : Option String := none
  trace : Bool := false
  color : ColorMode := .auto
  verbosity : Nat := 0
  quiet : Bool := false
  time : Bool := false
  deriving DecidableEq, Repr

namespace CommonSettings

/-- The rank of the last level that the log shows: errors when quiet, warnings by default. -/
def logRank (c : CommonSettings) : Nat :=
  if c.quiet then LogLevel.error.rank else LogLevel.warn.rank + c.verbosity

def defect? (c : CommonSettings) : Option UsageError :=
  if c.quiet ∧ c.verbosity ≠ 0 then some (.conflict "--quiet" "--verbose") else none

end CommonSettings

/-- A path from an argument, which is not empty. -/
def pathArgument? (text : String) : Option String := if text.isEmpty then none else some text

namespace Switch

/-- An option with a path. -/
def path (long : String) (set : String → σ → σ) : Switch σ :=
  value long fun v x => (pathArgument? v).map fun p => set p x

/-- The options on the common settings that are part of others. -/
def common (update : (CommonSettings → CommonSettings) → σ → σ) : List (Switch σ) :=
  [path "config" fun p => update fun c => { c with config := some p },
    flag "trace" (update fun c => { c with trace := true }),
    value "color" fun v x =>
      (ColorMode.ofName? v).map fun color => update (fun c => { c with color }) x,
    ((flag "verbose" (update fun c => { c with verbosity := c.verbosity + 1 })).withShort
      'v').repeatable,
    (flag "quiet" (update fun c => { c with quiet := true })).withShort 'q',
    flag "time" (update fun c => { c with time := true })]

end Switch

/-- The name and version of a tool and the format it works on. -/
def banner (tool : String) : String :=
  s!"{tool} (chl-tools 0.1.0, format v{formatVersion})"

/-- The first line that a tool writes about its version. -/
def versionLine (tool : String) : String := s!"{tool} 0.1.0"

def configFile : String := ".chltools.toml"

namespace Host

variable [Monad m] (h : Host m)

abbrev Work (m : Type → Type) (α : Type) := ExceptT Failure m α

def printLine (text : String) : m Unit := h.print (text ++ "\n")

def reportLine (text : String) : m Unit := h.report (text ++ "\n")

/-- Writes an event to the log if its level is shown. -/
def log (c : CommonSettings) (e : LogEvent) : m Unit := do
  if e.level.rank ≤ c.logRank then h.reportLine (e.line (← h.timestamp))

def logAll (c : CommonSettings) (es : List LogEvent) : m Unit := es.forM (h.log c)

def orFail (x : Except FileError α) (f : FileError → Failure) : Work m α :=
  ExceptT.mk (pure (x.mapError f))

/-- Reads a file and makes a value of its bytes. -/
def load (decode : List UInt8 → Except FormatError α) (invalid : String → FormatError → Failure)
    (path : String) : Work m α := do
  let bytes ← orFail (← h.read path) (.reading path)
  ExceptT.mk (pure ((decode bytes).mapError (invalid path)))

/-- Writes a file, and before it the directories above it. -/
def save (path : String) (contents : List UInt8) : Work m Unit := do
  match (Path.parent? path).filter (!·.isEmpty) with
  | some directory => orFail (← h.createDirectories directory) (.creating directory)
  | none => pure ()
  orFail (← h.write path contents) (.writing path)

/-- Reads a configuration file. -/
def readConfig (c : CommonSettings) (path : String) : Work m Config := do
  let bytes ← orFail (← h.read path) (.readingConfig path)
  match Utf8.decode? bytes with
  | none => throw (.readingConfig path .notText)
  | some text =>
    match Config.parse? text with
    | none => throw (.invalidConfig path)
    | some config =>
      h.log c ⟨.debug, "configuration loaded", [("path", .plain path)]⟩
      return config

/-- The first of some files that exists. -/
def firstFile? : List String → m (Option String)
  | [] => return none
  | path :: rest => do
    if ← h.isFile path then return some path
    else firstFile? rest

/-- The directories on the way from an absolute path up to the root. -/
def ancestors : Nat → String → List String
  | 0, directory => [directory]
  | depth + 1, directory =>
    directory :: match Path.parent? directory with
      | some parent => ancestors depth parent
      | none => []

/-- The configuration: the given one, or else the first found from the current directory upward. -/
def loadConfig (c : CommonSettings) : Work m Config := do
  match c.config with
  | some path => h.readConfig c path
  | none =>
    let directory ← h.currentDirectory
    let candidates := (ancestors directory.length directory).map (Path.join · configFile)
    match ← h.firstFile? candidates with
    | some path => h.readConfig c path
    | none =>
      h.log c ⟨.debug, s!"no {configFile} found, using defaults", []⟩
      return {}

/-- Tells how long the work took, if that is asked for. -/
def reportTime (c : CommonSettings) (start : Duration) : m Unit := do
  if c.time then h.reportLine s!"⏱️  {(Duration.between start (← h.clock)).text}"

/-- Ends a run: the exit code of its result, or a line on why it failed. -/
def finish (c : CommonSettings) (failed : UInt8) (work : Work m UInt8) : m UInt8 := do
  match ← work.run with
  | .ok code => return code
  | .error e =>
    h.reportLine (c.color.paint .red "❌" ++ " " ++ e.message)
    return failed

/-- Runs a tool on its arguments. -/
def runTool (tool : String) (arguments : String) (parsed : Except EarlyExit σ)
    (run : σ → m UInt8) : m UInt8 := do
  match parsed with
  | .ok settings => run settings
  | .error .version =>
    h.printLine (versionLine tool)
    return 0
  | .error .help =>
    h.printLine s!"Usage: {tool} [OPTIONS] {arguments}"
    return 0
  | .error (.usage e) =>
    h.reportLine ("error: " ++ e.message)
    return 2

end Host

end ScriptImage
