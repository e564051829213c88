import ScriptImage.Json.Value

/-!
Writing JSON, either without any blanks or with one element a line. Texts escape quotes,
backslashes and control characters and leave all other characters as they are.
-/

namespace ScriptImage.Json

def hexDigit (n : Nat) : Char := "0123456789abcdef".toList.getD n '0'

def escape (c : Char) : List Char :=
  if c = '\x22' then ['\\', '\x22']
  else if c = '\\' then ['\\', '\\']
  else if c = '\x08' then ['\\', 'b']
  else if c = '\x0c' then ['\\', 'f']
  else if c = '\n' then ['\\', 'n']
  else if c = '\r' then ['\\', 'r']
  else if c = '\t' then ['\\', 't']
  else if c.toNat < 32 then
    ['\\', 'u', '0', '0', hexDigit (c.toNat / 16), hexDigit (c.toNat % 16)]
  else [c]

def quote (s : String) : List Char := '\x22' :: s.toList.flatMap escape ++ ['\x22']

/-- A text without a value is written as an escaped half of a pair. -/
def quote? : Option String → List Char
  | some s => quote s
  | none => '\x22' :: "\\ud800".toList ++ ['\x22']

mutual

def render : Json → List Char
  | .null => "null".toList
  | .bool b => (if b then "true" else "false").toList
  | .number n => n.text
  | .text s => quote? s
  | .array [] => ['[', ']']
  | .array (x :: xs) => '[' :: render x ++ renderTail xs ++ [']']
  | .object [] => ['\x7b', '\x7d']
  | .object ((k, v) :: fs) =>
    '\x7b' :: quote? k ++ ':' :: render v ++ renderFields fs ++ ['\x7d']

def renderTail : List Json → List Char
  | [] => []
  | x :: xs => ',' :: render x ++ renderTail xs

def renderFields : List (Option String × Json) → List Char
  | [] => []
  | (k, v) :: fs => ',' :: quote? k ++ ':' :: render v ++ renderFields fs

end

def newline (depth : Nat) : List Char := '\n' :: List.replicate (2 * depth) ' '

mutual

/-- One element a line, indented by two blanks a level; empty lists stay on one line. -/
def pretty (depth : Nat) : Json → List Char
  | .null => "null".toList
  | .bool b => (if b then "true" else "false").toList
  | .number n => n.text
  | .text s => quote? s
  | .array [] => ['[', ']']
  | .array (x :: xs) =>
    '[' :: newline (depth + 1) ++ pretty (depth + 1) x ++ prettyTail (depth + 1) xs
      ++ newline depth ++ [']']
  | .object [] => ['\x7b', '\x7d']
  | .object ((k, v) :: fs) =>
    '\x7b' :: newline (depth + 1) ++ quote? k ++ ':' :: ' ' :: pretty (depth + 1) v
      ++ prettyFields (depth + 1) fs ++ newline depth ++ ['\x7d']

def prettyTail (depth : Nat) : List Json → List Char
  | [] => []
  | x :: xs => ',' :: newline depth ++ pretty depth x ++ prettyTail depth xs

def prettyFields (depth : Nat) : List (Option String × Json) → List Char
  | [] => []
  | (k, v) :: fs =>
    ',' :: newline depth ++ quote? k ++ ':' :: ' ' :: pretty depth v ++ prettyFields depth fs

end

def compactText (j : Json) : String := String.ofList j.render

def prettyText (j : Json) : String := String.ofList (j.pretty 0)

end ScriptImage.Json
