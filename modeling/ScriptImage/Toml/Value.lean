/-!
TOML documents. A table remembers how it was begun, because that decides what may still be added
to it: a header may complete a table that only arose on the way to another one, and a dotted key
may only go on through tables that arose from dotted keys.
-/

namespace ScriptImage

inductive TableKind where
  /-- Begun by a header of its own, or the whole document. -/
  | explicit
  /-- Arisen on the way to the table of a header. -/
  | implicit
  /-- Arisen from dotted keys. -/
  | dotted
  deriving DecidableEq, Repr

inductive Toml where
  | text (value : String)
  | integer (value : Int)
  | bool (value : Bool)
  /-- A float, date or time, of which nothing but the kind is kept. -/
  | other
  | array (elements : List Toml)
  /-- A table written as a value in braces, which is complete. -/
  | inlineTable (fields : List (String × Toml))
  | table (kind : TableKind) (fields : List (String × Toml))
  /-- Tables under one repeated header, in order. -/
  | tables (elements : List (List (String × Toml)))

namespace Toml

abbrev Fields := List (String × Toml)

/-- Replaces the first field of a name. -/
def replace (name : String) (v : Toml) : Fields → Fields
  | [] => []
  | (k, w) :: fs => if k = name then (k, v) :: fs else (k, w) :: replace name v fs

/-- Adds a field, or replaces it by what `f` makes of it. -/
def upsert (name : String) (new : Option Toml) (f : Toml → Option Toml) (fields : Fields) :
    Option Fields :=
  match fields.lookup name with
  | none => new.map fun v => fields ++ [(name, v)]
  | some v => (f v).map fun w => replace name w fields

/-- Applies `f` to the last table of a list. -/
def updateLast (f : Fields → Option Fields) : List Fields → Option (List Fields)
  | [] => none
  | [t] => (f t).map fun t => [t]
  | t :: ts => (updateLast f ts).map fun ts => t :: ts

/-- Applies `f` to the table that a header path leads to, through the last of repeated tables. -/
def updateAt (f : Fields → Option Fields) : List String → Fields → Option Fields
  | [], fields => f fields
  | k :: path, fields =>
    upsert k ((updateAt f path []).map (.table .implicit)) (fun
      | .table kind fs => (updateAt f path fs).map (.table kind)
      | .tables ts => (updateLast (updateAt f path) ts).map .tables
      | _ => none) fields

/-- Begins the table of a header. -/
def beginTable (path : List String) (fields : Fields) : Option Fields :=
  match path.getLast? with
  | none => none
  | some name =>
    updateAt (upsert name (some (.table .explicit [])) fun
      | .table .implicit fs => some (.table .explicit fs)
      | _ => none) path.dropLast fields

/-- Begins one more table of a repeated header. -/
def beginRepeated (path : List String) (fields : Fields) : Option Fields :=
  match path.getLast? with
  | none => none
  | some name =>
    updateAt (upsert name (some (.tables [[]])) fun
      | .tables ts => some (.tables (ts ++ [[]]))
      | _ => none) path.dropLast fields

/-- Adds a value under a new name. -/
def insertNew (name : String) (v : Toml) (fields : Fields) : Option Fields :=
  upsert name (some v) (fun _ => none) fields

/-- Adds a value under a dotted key. -/
def insertDotted (v : Toml) : List String → Fields → Option Fields
  | [], _ => none
  | [k], fields => insertNew k v fields
  | k :: path, fields =>
    upsert k ((insertDotted v path []).map (.table .dotted)) (fun
      | .table .dotted fs => (insertDotted v path fs).map (.table .dotted)
      | .table .implicit fs =>
        if path.length = 1 then none else (insertDotted v path fs).map (.table .implicit)
      | _ => none) fields

/-- Adds a value to the table of the current header. -/
def insertAt (header path : List String) (v : Toml) (fields : Fields) : Option Fields :=
  updateAt (insertDotted v path) header fields

end Toml

end ScriptImage
