import ScriptImage.Decimal.Notation

/-!
JSON values. Fields keep their order and may repeat, and a number keeps its digits, so nothing
about a text is decided here but its structure. A text with an escape that is half of a
surrogate pair is well formed and has no value.
-/

namespace ScriptImage

inductive Json where
  | null
  | bool (value : Bool)
  | number (value : Numeral)
  | text (value : Option String)
  | array (elements : List Json)
  | object (fields : List (Option String × Json))

namespace Json

def str (s : String) : Json := .text (some s)

def int (i : Int) : Json := .number (.ofInt i)

def nat (n : Nat) : Json := int n

/-- An object with the given fields. -/
def record (fields : List (String × Json)) : Json :=
  .object (fields.map fun (k, v) => (some k, v))

end Json

end ScriptImage
