/-!
Arguments of a command. An argument is an option, in its long form or in a cluster of letters, a
value of the option before it, or a positional one; after two dashes all are positional. They are
read from left to right, so of two reasons to stop the first one counts.
-/

namespace ScriptImage

/-- What is wrong with the arguments. -/
inductive UsageError where
  | unknownOption (name : String)
  | unexpectedArgument (text : String)
  | unexpectedValue (option : String)
  | missingValue (option : String)
  | invalidValue (option value : String)
  | repeated (option : String)
  | conflict (first second : String)
  | missingArgument
  deriving DecidableEq, Repr

namespace UsageError

def message : UsageError → String
  | .unknownOption name => s!"unknown option '{name}'"
  | .unexpectedArgument text => s!"unexpected argument '{text}'"
  | .unexpectedValue option => s!"option '{option}' takes no value"
  | .missingValue option => s!"option '{option}' needs a value"
  | .invalidValue option value => s!"invalid value '{value}' for '{option}'"
  | .repeated option => s!"option '{option}' cannot be used more than once"
  | .conflict first second => s!"options '{first}' and '{second}' exclude each other"
  | .missingArgument => "an argument is missing"

end UsageError

/-- Why a command ends before its work begins. -/
inductive EarlyExit where
  | version
  | help
  | usage (error : UsageError)
  deriving DecidableEq, Repr

/-- An option that changes settings. -/
structure Switch (σ : Type) where
  long : String
  short : Option Char := none
  takesValue : Bool := false
  repeats : Bool := false
  /-- The settings after an occurrence, given its value or an empty text. -/
  apply : String → σ → Except EarlyExit σ

namespace Switch

def display (s : Switch σ) : String := "--" ++ s.long

def flag (long : String) (set : σ → σ) : Switch σ :=
  { long, apply := fun _ x => .ok (set x) }

/-- An option with one value, of which `set` says whether it will do. -/
def value (long : String) (set : String → σ → Option σ) : Switch σ :=
  { long
    takesValue := true
    apply := fun v x =>
      match set v x with
      | some y => .ok y
      | none => .error (.usage (.invalidValue ("--" ++ long) v)) }

def withShort (c : Char) (s : Switch σ) : Switch σ := { s with short := some c }

def repeatable (s : Switch σ) : Switch σ := { s with repeats := true }

/-- The option that tells the version and the one that tells how a command is used. -/
def standard : List (Switch σ) :=
  [{ long := "version", short := some 'V', apply := fun _ _ => .error .version },
    { long := "help", short := some 'h', apply := fun _ _ => .error .help }]

end Switch

/-- The arguments that a command takes. -/
structure Grammar (σ : Type) where
  switches : List (Switch σ)
  /-- The settings after one more positional argument. -/
  positional : String → σ → Except UsageError σ
  /-- What the settings lack or contain too much when all arguments are read. -/
  defect? : σ → Option UsageError

namespace Grammar

/-- The settings so far, and the long names of the options seen. -/
structure Progress (σ : Type) where
  settings : σ
  seen : List String := []

def refuse (e : UsageError) : Except EarlyExit α := .error (.usage e)

variable (g : Grammar σ)

def allSwitches : List (Switch σ) := g.switches ++ Switch.standard

def use (s : Switch σ) (value : String) (p : Progress σ) : Except EarlyExit (Progress σ) :=
  if !s.repeats && p.seen.contains s.long then refuse (.repeated s.display)
  else do
    let settings ← s.apply value p.settings
    return { settings, seen := s.long :: p.seen }

def place (text : String) (p : Progress σ) : Except EarlyExit (Progress σ) :=
  match g.positional text p.settings with
  | .ok settings => .ok { p with settings }
  | .error e => refuse e

/-- What is left to do after an option: nothing, or to give it a value. -/
abbrev Pending (σ : Type) := Progress σ × Option (Switch σ)

/-- An option in its long form, whose value may follow an equals sign. -/
def long (body : List Char) (p : Progress σ) : Except EarlyExit (Pending σ) :=
  let (name, rest) := body.span (· ≠ '=')
  let name := String.ofList name
  match g.allSwitches.find? (·.long = name), rest with
  | none, _ => refuse (.unknownOption ("--" ++ name))
  | some s, _ :: value =>
    if s.takesValue then return (← use s (String.ofList value) p, none)
    else refuse (.unexpectedValue s.display)
  | some s, [] => if s.takesValue then return (p, some s) else return (← use s "" p, none)

/-- A value in the argument of its option, before which an equals sign is no part of it. -/
def attached : List Char → String
  | '=' :: value => String.ofList value
  | value => String.ofList value

/-- A cluster of short options, the last of which may be followed by its value. -/
def cluster (p : Progress σ) : List Char → Except EarlyExit (Pending σ)
  | [] => .ok (p, none)
  | c :: rest =>
    match g.allSwitches.find? (·.short = some c) with
    | none => refuse (.unknownOption (String.ofList ['-', c]))
    | some s =>
      if !s.takesValue then do cluster (← use s "" p) rest
      else if rest.isEmpty then .ok (p, some s)
      else do return (← use s (attached rest) p, none)

/-- Whether a text can be the value of the option before it. -/
def isValue (text : String) : Bool := text = "-" || !text.startsWith "-"

def read (p : Progress σ) : List String → Except EarlyExit (Progress σ)
  | [] => .ok p
  | text :: rest =>
    if isValue text then do read (← g.place text p) rest
    else if text = "--" then rest.foldlM (fun p t => g.place t p) p
    else
      let body := text.toList.drop 1
      match if body.head? = some '-' then g.long (body.drop 1) p else g.cluster p body with
      | .error e => .error e
      | .ok (p, none) => read p rest
      | .ok (p, some s) =>
        match rest with
        | [] => refuse (.missingValue s.display)
        | value :: rest =>
          if isValue value then do read (← use s value p) rest
          else refuse (.missingValue s.display)

/-- The settings that arguments make of the initial ones. -/
def parse (initial : σ) (arguments : List String) : Except EarlyExit σ := do
  let p ← g.read ⟨initial, []⟩ arguments
  match g.defect? p.settings with
  | some e => refuse e
  | none => return p.settings

end Grammar

end ScriptImage
