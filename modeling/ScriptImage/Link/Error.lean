import ScriptImage.Fault

/-!
Why modules cannot be linked. The cause is found inside one module, whose name an error carries.
-/

namespace ScriptImage

inductive SymbolKind where
  | script
  | importedScript
  | localVariable
  | globalVariable
  | importedVariable
  deriving DecidableEq, Repr

namespace SymbolKind

def label : SymbolKind → String
  | .script => "script"
  | .importedScript => "external script"
  | .localVariable => "local variable"
  | .globalVariable => "global variable"
  | .importedVariable => "external variable"

end SymbolKind

/-- Addresses are those of the module; the target of a jump is where it would lead in the image. -/
inductive LinkCause where
  | unresolvedVariable (name : String)
  | notAnArray (name : String) (index : UInt32)
  | arrayBounds (name : String) (index size : UInt32)
  | unresolvedScript (name : String)
  | paramMismatch (name : String) (expected found : UInt32)
  | malformedReference (address : UInt32)
  | unknownText (address : UInt32) (offset : Int32)
  | unknownSymbol (address : UInt32) (kind : SymbolKind) (id : UInt32)
  | unterminatedScript (name : String)
  | badJumpTarget (address : UInt32) (target : Int)
  | tooManyGlobals
  | badAutostart (kind : SymbolKind) (id : UInt32)
  | duplicateGlobal (name : String)
  deriving DecidableEq, Repr

namespace LinkCause

def message : LinkCause → String
  | .unresolvedVariable name => s!"unresolved external variable `{name}`"
  | .notAnArray name index => s!"`{name}` is not an array, cannot reference element {index}"
  | .arrayBounds name index size =>
    s!"element {index} is out of bounds for `{name}` (size {size})"
  | .unresolvedScript name => s!"unresolved external script `{name}`"
  | .paramMismatch name expected found =>
    s!"script `{name}` takes {found} parameters, {expected} expected"
  | .malformedReference address => s!"reference at {address} is not preceded by a float PUSH"
  | .unknownText address offset =>
    s!"instruction {address} pushes offset {offset.toInt}, which starts no string"
  | .unknownSymbol address kind id =>
    s!"instruction {address} references undefined {kind.label} {id}"
  | .unterminatedScript name => s!"script `{name}` is not terminated by END"
  | .badJumpTarget address target =>
    s!"jump at {address} targets {target}, outside the image"
  | .tooManyGlobals => "merged global variables overflow the slot space"
  | .badAutostart kind id => s!"autostart references undefined {kind.label} {id}"
  | .duplicateGlobal name => s!"global `{name}` is already defined by a previous module"

end LinkCause

structure LinkError where
  module : String
  cause : LinkCause
  deriving DecidableEq, Repr

namespace LinkError

def message (e : LinkError) : String := e.module ++ ": " ++ e.cause.message

end LinkError

/-- What stops the work on one module. -/
inductive Stop where
  | refused (cause : LinkCause)
  | fault (fault : Fault)
  deriving DecidableEq, Repr

/-- What stops a link. -/
inductive LinkFailure where
  | refused (error : LinkError)
  | fault (fault : Fault)
  deriving DecidableEq, Repr

def Stop.inModule (name : String) : Stop → LinkFailure
  | .refused cause => .refused ⟨name, cause⟩
  | .fault f => .fault f

instance : MonadLift (Except Fault) (Except Stop) where
  monadLift x := x.mapError .fault

namespace Stop

def refuse (cause : LinkCause) : Except Stop α := .error (.refused cause)

end Stop

end ScriptImage
