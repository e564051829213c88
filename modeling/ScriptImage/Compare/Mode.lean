/-!
How tolerant a comparison is. Strict compares field by field, normal by names and texts, and
loose also takes a pushed number and its converted counterpart for the same.
-/

namespace ScriptImage

inductive CompareMode where
  | strict
  | normal
  | loose
  deriving DecidableEq, Repr

namespace CompareMode

def all : List CompareMode := [.strict, .normal, .loose]

def name : CompareMode → String
  | .strict => "strict"
  | .normal => "normal"
  | .loose => "loose"

def ofName? (s : String) : Option CompareMode := all.find? fun m => m.name == s

/-- The next more tolerant mode. -/
def looser? : CompareMode → Option CompareMode
  | .strict => some .normal
  | .normal => some .loose
  | .loose => none

end CompareMode

end ScriptImage
