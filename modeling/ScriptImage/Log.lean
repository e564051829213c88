/-!
Log events. What happens during a run is told as a list of events: a level, a message and named
values. An event has two texts, a record with every value as it is and a line in which plain
texts are quoted.
-/

namespace ScriptImage

inductive LogLevel where
  | error
  | warn
  | info
  | debug
  | trace
  deriving DecidableEq, Repr

namespace LogLevel

def label : LogLevel → String
  | .error => "ERROR"
  | .warn => "WARN"
  | .info => "INFO"
  | .debug => "DEBUG"
  | .trace => "TRACE"

/-- Levels from the gravest on; a log shows all up to some level. -/
def rank : LogLevel → Nat
  | .error => 0
  | .warn => 1
  | .info => 2
  | .debug => 3
  | .trace => 4

end LogLevel

inductive LogValue where
  /-- A text that lines quote. -/
  | text (value : String)
  /-- A number, truth value or name that stands as it is. -/
  | plain (value : String)
  deriving DecidableEq, Repr

structure LogEvent where
  level : LogLevel
  message : String
  fields : List (String × LogValue) := []
  deriving DecidableEq, Repr

namespace LogValue

def raw : LogValue → String
  | .text s | .plain s => s

def lowerHex (n : Nat) : List Char := Nat.toDigits 16 n

def escape (c : Char) : List Char :=
  if c = '\x22' ∨ c = '\\' then ['\\', c]
  else if c = '\n' then ['\\', 'n']
  else if c = '\r' then ['\\', 'r']
  else if c = '\t' then ['\\', 't']
  else if c = '\x00' then ['\\', '0']
  else if c.toNat < 32 ∨ (127 ≤ c.toNat ∧ c.toNat < 160) then
    '\\' :: 'u' :: '\x7b' :: lowerHex c.toNat ++ ['\x7d']
  else [c]

def quoted : LogValue → String
  | .text s => String.ofList ('\x22' :: s.toList.flatMap escape ++ ['\x22'])
  | .plain s => s

end LogValue

namespace LogEvent

def nat (name : String) (n : Nat) : String × LogValue := (name, .plain (toString n))

def record (e : LogEvent) : String :=
  e.level.label ++ " " ++ e.message
    ++ String.join (e.fields.map fun (k, v) => "; " ++ k ++ "=" ++ v.raw)

def padded (s : String) : String := String.ofList (List.replicate (5 - s.length) ' ') ++ s

/-- A line of a log, after its time. -/
def line (time : String) (e : LogEvent) : String :=
  time ++ " " ++ padded e.level.label ++ " " ++ e.message
    ++ String.join (e.fields.map fun (k, v) => " " ++ k ++ "=" ++ v.quoted)

end LogEvent

end ScriptImage
