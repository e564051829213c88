import ScriptImage.Toml.Parser
import ScriptImage.Link.Merge
import ScriptImage.Compare.Comparison

/-!
The configuration of the tools: defaults for the options of a link and of a comparison, read from
TOML. A section is a table whose keys are all known, or an array that gives the values in the
order of the keys; what it leaves out keeps its default.
-/

namespace ScriptImage

namespace Toml

def bool? : Toml → Option Bool
  | .bool b => some b
  | _ => none

def nat? : Toml → Option Nat
  | .integer n => if 0 ≤ n then some n.toNat else none
  | _ => none

def isEmpty : Toml → Bool
  | .array vs => vs.isEmpty
  | .inlineTable fs | .table _ fs => fs.isEmpty
  | .tables ts => ts.isEmpty
  | _ => false

/-- The name of a choice: a text, or the only key of a table, which holds nothing. -/
def choice? : Toml → Option String
  | .text s => some s
  | .inlineTable [(k, v)] | .table _ [(k, v)] => if v.isEmpty then some k else none
  | _ => none

namespace Fields

/-- The fields if no key is unknown. -/
def within? (keys : List String) (fs : Fields) : Option Fields :=
  if fs.all fun (k, _) => keys.contains k then some fs else none

/-- The value under a key, or a default when there is none. -/
def get? (fs : Fields) (key : String) (read? : Toml → Option α) (default : α) : Option α :=
  match List.lookup key fs with
  | some v => read? v
  | none => some default

end Fields

def section? (keys : List String) : Toml → Option Fields
  | .inlineTable fs | .table _ fs => Fields.within? keys fs
  | .array vs => some (keys.zip vs)
  | .tables ts => some (keys.zip (ts.map (.table .explicit)))
  | _ => none

end Toml

structure Config where
  link : LinkOptions := {}
  compare : CompareOptions := {}
  deriving DecidableEq, Repr

namespace Config

def linkOptions? (t : Toml) : Option LinkOptions := do
  let fs ← t.section? ["shared_strings", "debug_metadata"]
  return {
    sharedTexts := ← fs.get? "shared_strings" Toml.bool? false
    debugMetadata := ← fs.get? "debug_metadata" Toml.bool? false }

def compareOptions? (t : Toml) : Option CompareOptions := do
  let fs ← t.section? ["mode", "max_mismatches"]
  let default : CompareOptions := {}
  return {
    mode := ← fs.get? "mode" (fun v => v.choice?.bind CompareMode.ofName?) default.mode
    maxMismatches := ← fs.get? "max_mismatches" Toml.nat? default.maxMismatches }

/-- Reads a configuration; fails on anything that is no TOML or no configuration. -/
def parse? (text : String) : Option Config := do
  let fs ← Toml.Fields.within? ["link", "compare"] (← Toml.parse? text)
  return {
    link := ← fs.get? "link" linkOptions? {}
    compare := ← fs.get? "compare" compareOptions? {} }

end Config

end ScriptImage
