import ScriptImage.Command.Compare
import ScriptImage.Command.Link

/-!
The command line. The first argument names the tool, and the rest are its own.
-/

namespace ScriptImage

def fileError : IO.Error → FileError
  | .noFileOrDirectory .. => .notFound
  | .alreadyExists .. => .alreadyExists
  | .inappropriateType _ code _ =>
    if code = 20 then .notDirectory else .isDirectory
  | e => .other (toString e)

def attempt (action : IO α) : IO (Except FileError α) := do
  return (← action.toBaseIO).mapError fileError

/-- The operations on real files and streams; log lines show the time since some fixed moment. -/
def systemHost : Host IO where
  currentDirectory := return (← IO.currentDir).toString
  isFile path := do
    match ← (IO.FS.realPath path).toBaseIO with
    | .ok p => return (← p.pathExists) && !(← p.isDir)
    | .error _ => return false
  read path := attempt do return (← IO.FS.readBinFile path).toList
  write path contents := attempt (IO.FS.writeBinFile path ⟨contents.toArray⟩)
  createDirectories path := attempt (IO.FS.createDirAll path)
  print text := do (← IO.getStdout).putStr text
  report text := do (← IO.getStderr).putStr text
  timestamp := return s!"{(← IO.monoMsNow)} ms"
  clock := return (Duration.of? 0 (← IO.monoNanosNow)).getD Duration.zero

end ScriptImage

open ScriptImage in
def main (arguments : List String) : IO UInt32 := do
  let code ← match arguments with
    | "chl-link" :: rest => systemHost.runLink rest
    | "chl-cmp" :: rest => systemHost.runCompare rest
    | _ => do
      systemHost.reportLine "error: the first argument is chl-link or chl-cmp"
      pure 2
  return code.toUInt32
