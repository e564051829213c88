import ScriptImage.FormatError
import ScriptImage.Host
import ScriptImage.Link.Error

/-!
Why the work of a command fails. The message tells what was being done to which file, and then
the cause.
-/

namespace ScriptImage

inductive Failure where
  | reading (path : String) (cause : FileError)
  | readingConfig (path : String) (cause : FileError)
  | invalidConfig (path : String)
  | invalidModule (path : String) (cause : FormatError)
  | invalidImage (path : String) (cause : FormatError)
  | linking (cause : LinkError)
  /-- The bytes of the linked image cannot be read back. -/
  | rereading (cause : FormatError)
  | invalidLinked (cause : Corruption)
  /-- The linked image read back is another one. -/
  | roundTrip
  | creating (directory : String) (cause : FileError)
  | writing (path : String) (cause : FileError)
  | fault (cause : Fault)
  deriving DecidableEq, Repr

namespace Failure

def message : Failure → String
  | .reading path cause => s!"lecture {path}: {cause.message}"
  | .readingConfig path cause => s!"lecture config {path}: {cause.message}"
  | .invalidConfig path => s!"config {path}: TOML invalide"
  | .invalidModule path cause => s!"module objet invalide : {path}: {cause.message}"
  | .invalidImage path cause => s!"image invalide : {path}: {cause.message}"
  | .linking cause => cause.message
  | .rereading cause => s!"relecture de l’image: {cause.message}"
  | .invalidLinked cause => s!"image liée invalide: {(FormatError.corrupted cause).message}"
  | .roundTrip => "round-trip différent de l’image liée"
  | .creating directory cause => s!"création {directory}: {cause.message}"
  | .writing path cause => s!"écriture {path}: {cause.message}"
  | .fault .outOfRange => "an index points outside its table"
  | .fault .overflow => "a sum leaves the range of words"

end Failure

end ScriptImage
