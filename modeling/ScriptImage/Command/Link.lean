import ScriptImage.Command.Session
import ScriptImage.Image.Check
import ScriptImage.Link.Log
import ScriptImage.ObjectModule.Codec

/-!
The tool that links module files into an image file. The options of a link come from the
configuration, and arguments override them.
-/

namespace ScriptImage

structure LinkSettings where
  common : CommonSettings := {}
  /-- Paths of the modules, in order. -/
  inputs : List String := []
  out : Option String := none
  sharedTexts : Bool := false
  noSharedTexts : Bool := false
  debugMetadata : Bool := false
  verify : Bool := false
  summary : Bool := false
  /-- Where to write the manifest. -/
  manifest : Option String := none
  deriving DecidableEq, Repr

namespace LinkSettings

def tool : String := "chl-link"

def switches : List (Switch LinkSettings) :=
  [(Switch.path "out" fun p s => { s with out := some p }).withShort 'o',
    .flag "shared-strings" fun s => { s with sharedTexts := true },
    .flag "no-shared-strings" fun s => { s with noSharedTexts := true },
    .flag "debug-metadata" fun s => { s with debugMetadata := true },
    .flag "verify" fun s => { s with verify := true },
    .flag "summary" fun s => { s with summary := true },
    .path "emit-json" fun p s => { s with manifest := some p }]
    ++ Switch.common fun f s => { s with common := f s.common }

def grammar : Grammar LinkSettings where
  switches := switches
  positional text s :=
    match pathArgument? text with
    | some p => .ok { s with inputs := s.inputs ++ [p] }
    | none => .error (.invalidValue "<INPUTS>" text)
  defect? s := if s.inputs.isEmpty then some .missingArgument else s.common.defect?

/-- The options of a link, given those of the configuration. -/
def options (s : LinkSettings) (configured : LinkOptions) : LinkOptions :=
  { sharedTexts := (configured.sharedTexts || s.sharedTexts) && !s.noSharedTexts
    debugMetadata := configured.debugMetadata || s.debugMetadata
    trace := s.common.trace }

/-- Where the image is written: by default beside the first module. -/
def outPath (s : LinkSettings) : String :=
  s.out.getD (Path.withExtension "chl" (s.inputs.headD ""))

end LinkSettings

namespace LinkManifest

def inputLine (i : LinkInput) : String :=
  s!"  - {i.file} (base={i.baseAddress}, scripts={i.scripts}, ops={i.instructions}, " ++
    s!"globals@{i.globalOffset}, dedup={i.dedupHits})"

/-- The lines of a summary after its title. -/
def summary (m : LinkManifest) : List String :=
  [s!"• inputs: {m.inputs.length}"]
    ++ m.inputs.map inputLine
    ++ [s!"• scripts: {m.totalScripts}   ops: {m.totalInstructions}   " ++
        s!"global slots: {m.totalGlobalSlots}",
      s!"• data: {m.dataBytesAfter} bytes (avant: {m.dataBytesBefore}, " ++
        s!"gain: {m.dataBytesBefore - m.dataBytesAfter})",
      s!"• version: {m.version}"]
    ++ if m.buildProperties.isEmpty then []
      else ["• build: " ++ ", ".intercalate m.buildProperties]

end LinkManifest

/-- Whether the bytes of an image give a valid image back, and the same one. -/
def Image.verify (m : Image) : Except Failure Unit :=
  match Image.decode m.encode with
  | .error e => .error (.rereading e)
  | .ok back =>
    match back.defect? with
    | some c => .error (.invalidLinked c)
    | none => if back.valueEq m then .ok () else .error .roundTrip

namespace Host

variable [Monad m] (h : Host m)

def linkModules (s : LinkSettings) (o : LinkOptions) (modules : List ObjectModule) :
    Work m Linked := do
  h.logAll s.common (linkEvents o modules)
  match link o modules with
  | .ok linked => return linked
  | .error (.refused e) => throw (.linking e)
  | .error (.fault f) => throw (.fault f)

def linkWork (s : LinkSettings) : Work m UInt8 := do
  let paint := s.common.color.paint
  h.log s.common ⟨.info, banner LinkSettings.tool, []⟩
  let config ← h.loadConfig s.common
  let start ← h.clock
  let modules ← s.inputs.mapM (h.load ObjectModule.decode .invalidModule)
  let linked ← h.linkModules s (s.options config.link) modules
  if s.verify then
    ExceptT.mk (pure linked.image.verify)
    h.reportLine (paint .green "✓ verify round-trip OK")
  if s.summary then
    h.reportLine (paint .boldCyan "== Link summary ==")
    linked.manifest.summary.forM fun line => h.reportLine line
  if let some path := s.manifest then
    h.save path (Utf8.encode linked.manifest.toJson.prettyText)
    h.reportLine s!"🧾 Manifest JSON → {path}"
  h.save s.outPath linked.image.encode
  if !s.common.quiet then h.reportLine s!"✅ Link → {s.outPath}"
  h.reportTime s.common start
  return 0

/-- Runs the linker; the exit code is 0 when it succeeds, 1 when it fails and 2 when its arguments
are wrong. -/
def runLink (arguments : List String) : m UInt8 :=
  h.runTool LinkSettings.tool "<INPUTS>..." (LinkSettings.grammar.parse {} arguments) fun s =>
    h.finish s.common 1 (h.linkWork s)

end Host

end ScriptImage
