import ScriptImage.Image
import ScriptImage.Distinct

/-!
Object modules: one compiled unit, an image of its own together with the symbols it uses from
other modules. References to those are positions in the tables of imports.
-/

namespace ScriptImage

structure ImportedVar where
  name : String
  /-- Element of an array, 0 for the variable itself. -/
  index : UInt32
  deriving DecidableEq, Repr

structure ImportedScript where
  name : String
  /-- Expected number of parameters. -/
  params : UInt32
  deriving DecidableEq, Repr

structure ObjectModule where
  name : String
  image : Image := {}
  importedVars : List ImportedVar := []
  importedScripts : List ImportedScript := []
  /-- Addresses, ascending, of the pushes whose operand is the offset of a text. -/
  textPushes : List UInt32 := []
  deriving DecidableEq, Repr

namespace ObjectModule

def valueEq (a b : ObjectModule) : Bool :=
  a.name == b.name && a.image.valueEq b.image && a.importedVars == b.importedVars
    && a.importedScripts == b.importedScripts && a.textPushes == b.textPushes

end ObjectModule

end ScriptImage
