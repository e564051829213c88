import ScriptImage.Json.Parser
import ScriptImage.Decimal.Reading

/-!
Typed reading of JSON values. A record is an object that has each of its fields once, among others
that are ignored, or an array of the fields in order. A variant is its name, or an object with the
name as its one field and the payload as value.
-/

namespace ScriptImage.Json

/-- The fields of an object whose names all have a value. -/
def namedFields? (fields : List (Option String × Json)) : Option (List (String × Json)) :=
  fields.mapM fun (k, v) => k.map fun k => (k, v)

/-- The value of a field that occurs exactly once. -/
def field? (name : String) (fields : List (String × Json)) : Option Json :=
  match fields.filter fun f => f.1 == name with
  | [(_, v)] => some v
  | _ => none

/-- The values of the fields of a record, in order. -/
def record? (names : List String) : Json → Option (List Json)
  | .object fields => do
    let fields ← namedFields? fields
    names.mapM fun n => field? n fields
  | .array xs => if xs.length = names.length then some xs else none
  | _ => none

/-- The name of a variant and its payload. -/
def variant? : Json → Option (String × Option Json)
  | .text (some s) => some (s, none)
  | .object [(some k, v)] => some (k, some v)
  | _ => none

/-- The name of a variant that has no payload. -/
def unit? (j : Json) : Option String :=
  match j.variant? with
  | some (s, none) => some s
  | some (s, some .null) => some s
  | _ => none

def string? : Json → Option String
  | .text s => s
  | _ => none

def bool? : Json → Option Bool
  | .bool b => some b
  | _ => none

def bounded? (low high : Int) : Json → Option Int
  | .number n => n.bounded? low high
  | _ => none

def byte? (j : Json) : Option UInt8 := (j.bounded? 0 0xFF).map fun i => .ofNat i.toNat

def word? (j : Json) : Option UInt32 := (j.bounded? 0 0xFFFFFFFF).map fun i => .ofNat i.toNat

def signed? (j : Json) : Option Int32 := (j.bounded? (-0x80000000) 0x7FFFFFFF).map .ofInt

def float? : Json → Option Binary32
  | .number n => n.binary32?
  | _ => none

def list? (f : Json → Option α) : Json → Option (List α)
  | .array xs => xs.mapM f
  | _ => none

/-- The fields of a map; a name that repeats keeps its first place and its last value. -/
def map? (f : Json → Option α) : Json → Option (List (String × α))
  | .object fields => do
    let fields ← namedFields? fields
    let values ← fields.mapM fun (k, v) => (f v).map fun x => (k, x)
    return values.foldl replace []
  | _ => none
where
  replace (acc : List (String × α)) (e : String × α) : List (String × α) :=
    if acc.any fun a => a.1 == e.1 then acc.map fun a => if a.1 == e.1 then e else a
    else acc ++ [e]

/-- Floats are written with the fewest digits, positionally from a millionth up to ten trillions;
a value that is not finite is written as null. -/
def floats : DecimalNotation := ⟨-6, 13, .toEven⟩

def float (x : Binary32) : Json := if x.isFinite then .number (x.numeral floats) else .null

end ScriptImage.Json
