import ScriptImage.Duration

/-!
The surroundings of a command: files, two streams of text and a clock. A command is written
against these operations in any monad, so it runs on real files as well as on a tree in memory.
-/

namespace ScriptImage

/-- Why a file operation fails. -/
inductive FileError where
  | notFound
  | alreadyExists
  | notDirectory
  | isDirectory
  /-- The bytes of a text file are no UTF-8. -/
  | notText
  | other (text : String)
  deriving DecidableEq, Repr

namespace FileError

def message : FileError → String
  | .notFound => "No such file or directory (os error 2)"
  | .alreadyExists => "File exists (os error 17)"
  | .notDirectory => "Not a directory (os error 20)"
  | .isDirectory => "Is a directory (os error 21)"
  | .notText => "stream did not contain valid UTF-8"
  | .other text => text

end FileError

structure Host (m : Type → Type) where
  /-- The absolute path of the current directory. -/
  currentDirectory : m String
  isFile : String → m Bool
  read : String → m (Except FileError (List UInt8))
  /-- Creates a file or replaces its contents. -/
  write : String → List UInt8 → m (Except FileError Unit)
  /-- Creates a directory and those above it, as far as they are missing. -/
  createDirectories : String → m (Except FileError Unit)
  /-- Writes to the standard output. -/
  print : String → m Unit
  /-- Writes to the standard error. -/
  report : String → m Unit
  /-- The time as log lines show it. -/
  timestamp : m String
  /-- Time since some fixed moment. -/
  clock : m Duration

end ScriptImage
