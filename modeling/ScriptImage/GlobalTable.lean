import ScriptImage.Fault
import ScriptImage.BinarySearch

/-!
The table of global variables. Variables are numbered by slots from 1: an array takes one slot
for each element, and the id of a variable is its first slot. A table that is only built by
`declare` has consecutive slots and unique names; a loaded one is kept as it was stored, with the
name under which each variable is found beside the variable itself.
-/

namespace ScriptImage

structure GlobalVar where
  name : String
  size : UInt32
  deriving DecidableEq, Repr

namespace GlobalVar

def scalar (name : String) : GlobalVar := ⟨name, 1⟩

def array (name : String) (size : UInt32) : GlobalVar := ⟨name, max size 1⟩

def isArray (v : GlobalVar) : Bool := 1 < v.size

/-- The number of slots taken; a variable of size 0 still takes one. -/
def span (v : GlobalVar) : UInt32 := max v.size 1

end GlobalVar

/-- Ids are stored as non-negative signed words, so no slot lies past the largest of them. -/
def maxSlot : Nat := 0x7FFFFFFF

inductive DeclareError where
  | duplicateName
  | slotOverflow
  deriving DecidableEq, Repr

structure GlobalTable where
  /-- Variables in order of declaration, each under the name it is found by. -/
  entries : List (String × GlobalVar) := []
  /-- First slot of each variable. -/
  starts : List UInt32 := []
  /-- Number of slots taken. -/
  slots : UInt32 := 0
  deriving DecidableEq, Repr

namespace GlobalTable

def empty : GlobalTable := {}

def size (t : GlobalTable) : Nat := t.entries.length

def isEmpty (t : GlobalTable) : Bool := t.entries.isEmpty

def names (t : GlobalTable) : List String := t.entries.map Prod.fst

def vars (t : GlobalTable) : List GlobalVar := t.entries.map Prod.snd

def contains (t : GlobalTable) (name : String) : Bool := t.names.contains name

/-- Adds a variable after all others and gives its id. -/
def declare (t : GlobalTable) (v : GlobalVar) : Except DeclareError (UInt32 × GlobalTable) :=
  if t.contains v.name then .error .duplicateName
  else if maxSlot < t.slots.toNat + v.span.toNat then .error .slotOverflow
  else
    let id := t.slots + 1
    .ok (id, {
      entries := t.entries ++ [(v.name, v)]
      starts := t.starts ++ [id]
      slots := t.slots + v.span })

/-- The id and declaration found under a name; a fault when the table has no id for it. -/
def find? (t : GlobalTable) (name : String) : Except Fault (Option (UInt32 × GlobalVar)) :=
  match t.entries.findIdx? fun e => e.1 == name with
  | none => .ok none
  | some i =>
    match t.entries[i]?, t.starts[i]? with
    | some e, some id => .ok (some (id, e.2))
    | _, _ => .error .outOfRange

/-- The variable that owns a slot, and the element of it that the slot holds. -/
def bySlot? (t : GlobalTable) (id : UInt32) : Option (GlobalVar × UInt32) :=
  if id = 0 ∨ t.slots < id then none else
    match BinarySearch.partitionPoint (fun s => id < s) t.starts with
    | 0 => none
    | i + 1 =>
      match t.entries[i]?, t.starts[i]? with
      | some e, some s => some (e.2, id - s)
      | _, _ => none

/-- The declared size of the variable whose first slot is `id`. -/
def arraySize? (t : GlobalTable) (id : UInt32) : Option UInt32 := do
  let i ← BinarySearch.find? (fun s => compare s id) t.starts
  let e ← t.entries[i]?
  return e.2.size

end GlobalTable

end ScriptImage
