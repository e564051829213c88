import ScriptImage.Toml.Value

/-!
Reading TOML. A document is a sequence of lines, each a header, a key with its value or blank, with
an optional comment. Arrays may span lines; tables in braces may not. The fuel of a loop is the
length of the text and never runs out; values nest to a fixed depth.
-/

namespace ScriptImage.Toml

def isSpace (c : Char) : Bool := c = ' ' || c = '\t'

def skipSpaces (cs : List Char) : List Char := cs.dropWhile isSpace

/-- The rest after a line break. -/
def newline? : List Char → Option (List Char)
  | '\n' :: r => some r
  | '\r' :: '\n' :: r => some r
  | _ => none

/-- The characters that comments and texts hold as they are. -/
def isPrintable (c : Char) : Bool := c = '\t' || (32 ≤ c.toNat && c.toNat ≠ 127)

def skipComment : List Char → List Char
  | '#' :: r => r.dropWhile isPrintable
  | cs => cs

/-- The rest after the end of a line: blanks, a comment and a line break or the end. -/
def lineEnd? (cs : List Char) : Option (List Char) :=
  match skipComment (skipSpaces cs) with
  | [] => some []
  | r => newline? r

/-- Passes over blanks, comments and line breaks. -/
def skipLines : Nat → List Char → List Char
  | 0, cs => cs
  | fuel + 1, cs =>
    let r := skipComment (skipSpaces cs)
    match newline? r with
    | some r => skipLines fuel r
    | none => r

def isBareKeyChar (c : Char) : Bool :=
  ('a' ≤ c && c ≤ 'z') || ('A' ≤ c && c ≤ 'Z') || ('0' ≤ c && c ≤ '9') || c = '-' || c = '_'

def digitValue? (c : Char) : Option Nat :=
  if '0' ≤ c ∧ c ≤ '9' then some (c.toNat - 48)
  else if 'a' ≤ c ∧ c ≤ 'f' then some (c.toNat - 87)
  else if 'A' ≤ c ∧ c ≤ 'F' then some (c.toNat - 55)
  else none

/-- The character of a fixed number of hexadecimal digits. -/
def codePoint? (digits : Nat) (cs : List Char) : Option (Char × List Char) := do
  let ds ← (cs.take digits).mapM digitValue?
  let n := ds.foldl (fun a d => a * 16 + d) 0
  if ds.length = digits ∧ (n < 0xD800 ∨ (0xDFFF < n ∧ n < 0x110000)) then
    some (Char.ofNat n, cs.drop digits)
  else none

/-- The character of an escape, after its backslash. -/
def escape? : List Char → Option (Char × List Char)
  | 'b' :: r => some ('\x08', r)
  | 't' :: r => some ('\t', r)
  | 'n' :: r => some ('\n', r)
  | 'f' :: r => some ('\x0c', r)
  | 'r' :: r => some ('\r', r)
  | '\x22' :: r => some ('\x22', r)
  | '\\' :: r => some ('\\', r)
  | 'u' :: r => codePoint? 4 r
  | 'U' :: r => codePoint? 8 r
  | _ => none

/-- A text after its opening quote. -/
def basic? : Nat → List Char → Option (List Char × List Char)
  | 0, _ => none
  | fuel + 1, cs =>
    match cs with
    | [] => none
    | c :: r =>
      if c = '\x22' then some ([], r)
      else if c = '\\' then do
        let (d, r) ← escape? r
        let (ds, r) ← basic? fuel r
        return (d :: ds, r)
      else if isPrintable c then do
        let (ds, r) ← basic? fuel r
        return (c :: ds, r)
      else none

/-- A text without escapes after its opening quote. -/
def literal? (cs : List Char) : Option (List Char × List Char) :=
  let (ds, r) := cs.span fun c => isPrintable c && c ≠ '\x27'
  match r with
  | '\x27' :: r => some (ds, r)
  | _ => none

/-- The quotes at the front; three to five of them close a text, and those before the last three
belong to it. -/
def closing? (quote : Char) (cs : List Char) : Option (List Char × List Char) :=
  let n := (cs.takeWhile (· = quote)).length
  if 3 ≤ n then
    let k := min n 5
    some (List.replicate (k - 3) quote, cs.drop k)
  else none

/-- Passes over blanks and line breaks. -/
def skipBlank : Nat → List Char → List Char
  | 0, cs => cs
  | fuel + 1, cs =>
    match newline? (skipSpaces cs) with
    | some r => skipBlank fuel r
    | none => skipSpaces cs

/-- The rest after an escaped line break and the blank space after it. -/
def continuation? (cs : List Char) : Option (List Char) :=
  (newline? (skipSpaces cs)).map fun r => skipBlank (r.length + 1) r

/-- A text over several lines after its opening quotes. -/
def multiline? (quote : Char) : Nat → List Char → Option (List Char × List Char)
  | 0, _ => none
  | fuel + 1, cs =>
    match closing? quote cs with
    | some found => some found
    | none =>
      match newline? cs with
      | some r => do
        let (ds, r) ← multiline? quote fuel r
        return ('\n' :: ds, r)
      | none =>
        match cs with
        | [] => none
        | c :: r =>
          if c = '\\' ∧ quote = '\x22' then
            match continuation? r with
            | some r => multiline? quote fuel r
            | none => do
              let (d, r) ← escape? r
              let (ds, r) ← multiline? quote fuel r
              return (d :: ds, r)
          else if isPrintable c then do
            let (ds, r) ← multiline? quote fuel r
            return (c :: ds, r)
          else none

def afterFirstNewline (cs : List Char) : List Char := (newline? cs).getD cs

/-- A text in any of the four forms. -/
def string? (cs : List Char) : Option (String × List Char) :=
  let found := match cs with
    | '\x22' :: '\x22' :: '\x22' :: r =>
      multiline? '\x22' (cs.length + 1) (afterFirstNewline r)
    | '\x27' :: '\x27' :: '\x27' :: r =>
      multiline? '\x27' (cs.length + 1) (afterFirstNewline r)
    | '\x22' :: r => basic? (cs.length + 1) r
    | '\x27' :: r => literal? r
    | _ => none
  found.map fun (ds, r) => (String.ofList ds, r)

/-- One part of a key. -/
def keyPart? (cs : List Char) : Option (String × List Char) :=
  match cs with
  | '\x22' :: r => (basic? (cs.length + 1) r).map fun (ds, r) => (String.ofList ds, r)
  | '\x27' :: r => (literal? r).map fun (ds, r) => (String.ofList ds, r)
  | _ =>
    match cs.span isBareKeyChar with
    | ([], _) => none
    | (ds, r) => some (String.ofList ds, r)

/-- The deepest nesting of values, and the most parts of a key. -/
def maxNesting : Nat := 79

/-- A key of parts separated by dots, of which there may be so many. -/
def key? : Nat → List Char → Option (List String × List Char)
  | 0, _ => none
  | fuel + 1, cs => do
    let (k, r) ← keyPart? (skipSpaces cs)
    match skipSpaces r with
    | '.' :: r =>
      let (ks, r) ← key? fuel r
      return (k :: ks, r)
    | r => return ([k], r)

/-- Digits of a base, of which each two may be separated by an underscore. -/
def digits? (base : Nat) : List Char → Option (List Nat × List Char)
  | [] => none
  | c :: r =>
    match (digitValue? c).filter (· < base) with
    | none => none
    | some d =>
      match r with
      | '_' :: r => (digits? base r).map fun (ds, r) => (d :: ds, r)
      | r =>
        match digits? base r with
        | some (ds, r) => some (d :: ds, r)
        | none => some ([d], r)

def ofDigits (base : Nat) (ds : List Nat) : Nat := ds.foldl (fun a d => a * base + d) 0

def sign : List Char → Int × List Char
  | '+' :: r => (1, r)
  | '-' :: r => (-1, r)
  | cs => (1, cs)

/-- A decimal number, which starts with no zero unless it is one digit. -/
def decimal? (cs : List Char) : Option (Int × List Char) :=
  let (s, r) := sign cs
  match r with
  | '0' :: r => some (0, r)
  | r => (digits? 10 r).map fun (ds, r) => (s * ofDigits 10 ds, r)

def inRange (n : Int) : Bool := -0x8000000000000000 ≤ n && n ≤ 0x7FFFFFFFFFFFFFFF

/-- A whole number in any of the four bases. -/
def integer? (cs : List Char) : Option (Int × List Char) :=
  let based (base : Nat) (r : List Char) : Option (Int × List Char) :=
    (digits? base r).map fun (ds, r) => (ofDigits base ds, r)
  let found := match cs with
    | '0' :: 'x' :: r => based 16 r
    | '0' :: 'o' :: r => based 8 r
    | '0' :: 'b' :: r => based 2 r
    | _ => decimal? cs
  found.filter fun (n, _) => inRange n

def exponent? : List Char → Option (List Char)
  | c :: r => if c = 'e' ∨ c = 'E' then (digits? 10 (sign r).2).map (·.2) else none
  | [] => none

/-- The rest after a number with a fraction, an exponent or both, or that is none. -/
def float? (cs : List Char) : Option (List Char) :=
  match (sign cs).2 with
  | 'i' :: 'n' :: 'f' :: r => some r
  | 'n' :: 'a' :: 'n' :: r => some r
  | _ =>
    match decimal? cs with
    | some (_, '.' :: r) => (digits? 10 r).map fun (_, r) => (exponent? r).getD r
    | some (_, r) => exponent? r
    | none => none

/-- A number of exactly so many digits. -/
def fixedDigits? (count : Nat) (cs : List Char) : Option (Nat × List Char) :=
  let ds := (cs.take count).filterMap fun c => (digitValue? c).filter (· < 10)
  if ds.length = count then some (ofDigits 10 ds, cs.drop count) else none

def daysIn (year month : Nat) : Nat :=
  if month = 2 then if year % 4 = 0 ∧ (year % 100 ≠ 0 ∨ year % 400 = 0) then 29 else 28
  else if month = 4 ∨ month = 6 ∨ month = 9 ∨ month = 11 then 30
  else 31

/-- The rest after a character. -/
def drop? (c : Char) : List Char → Option (List Char)
  | d :: r => if c = d then some r else none
  | [] => none

/-- The rest after a day of the calendar. -/
def date? (cs : List Char) : Option (List Char) := do
  let (year, r) ← fixedDigits? 4 cs
  let (month, r) ← fixedDigits? 2 (← drop? '-' r)
  let (day, r) ← fixedDigits? 2 (← drop? '-' r)
  if 1 ≤ month ∧ month ≤ 12 ∧ 1 ≤ day ∧ day ≤ daysIn year month then some r else none

/-- The rest after hours and minutes. -/
def clock? (cs : List Char) : Option (List Char) := do
  let (hour, r) ← fixedDigits? 2 cs
  let (minute, r) ← fixedDigits? 2 (← drop? ':' r)
  if hour < 24 ∧ minute < 60 then some r else none

/-- The rest after a time of day. -/
def time? (cs : List Char) : Option (List Char) := do
  let (second, r) ← fixedDigits? 2 (← drop? ':' (← clock? cs))
  if 60 < second then none
  else
    match r with
    | '.' :: r =>
      match r.span Char.isDigit with
      | ([], _) => none
      | (_, r) => some r
    | r => some r

def offset (cs : List Char) : List Char :=
  match cs with
  | 'Z' :: r => r
  | 'z' :: r => r
  | '+' :: r => (clock? r).getD cs
  | '-' :: r => (clock? r).getD cs
  | _ => cs

/-- The rest after a date, a time or both. -/
def dateTime? (cs : List Char) : Option (List Char) :=
  match date? cs with
  | none => time? cs
  | some (c :: r) =>
    if c = 'T' ∨ c = 't' ∨ c = ' ' then some (((time? r).map offset).getD (c :: r))
    else some (c :: r)
  | some [] => some []

/-- A value that holds no others. -/
def scalar? (cs : List Char) : Option (Toml × List Char) :=
  match cs with
  | 't' :: 'r' :: 'u' :: 'e' :: r => some (.bool true, r)
  | 'f' :: 'a' :: 'l' :: 's' :: 'e' :: r => some (.bool false, r)
  | _ =>
    match string? cs, (dateTime? cs).or (float? cs) with
    | some (s, r), _ => some (.text s, r)
    | none, some r => some (.other, r)
    | none, none => (integer? cs).map fun (n, r) => (.integer n, r)

def skipAll (cs : List Char) : List Char := skipLines (cs.length + 1) cs

/-- The elements of an array after its opening bracket. The last one may have a comma. -/
def elements? (item? : List Char → Option (Toml × List Char)) :
    Nat → List Char → Option (List Toml × List Char)
  | 0, _ => none
  | fuel + 1, cs =>
    match skipAll cs with
    | ']' :: r => some ([], r)
    | r => do
      let (v, r) ← item? r
      match skipAll r with
      | ']' :: r => return ([v], r)
      | ',' :: r =>
        let (vs, r) ← elements? item? fuel r
        return (v :: vs, r)
      | _ => none

/-- A key with its value. -/
def assignment? (item? : List Char → Option (Toml × List Char)) (cs : List Char) :
    Option (List String × Toml × List Char) := do
  let (path, r) ← key? maxNesting cs
  let (v, r) ← item? (skipSpaces (← drop? '=' r))
  return (path, v, r)

/-- The fields of a table after its opening brace, of which there is at least one. -/
def members? (item? : List Char → Option (Toml × List Char)) :
    Nat → Fields → List Char → Option (Fields × List Char)
  | 0, _, _ => none
  | fuel + 1, fields, cs => do
    let (path, v, r) ← assignment? item? cs
    let fields ← insertDotted v path fields
    match skipSpaces r with
    | '\x7d' :: r => return (fields, r)
    | ',' :: r => members? item? fuel fields r
    | _ => none

/-- A value, in which others nest so deep. -/
def value? : Nat → List Char → Option (Toml × List Char)
  | 0, cs => scalar? cs
  | depth + 1, cs =>
    match cs with
    | '[' :: r => (elements? (value? depth) cs.length r).map fun (vs, r) => (.array vs, r)
    | '\x7b' :: r =>
      match skipSpaces r with
      | '\x7d' :: r => some (.inlineTable [], r)
      | r => (members? (value? depth) cs.length [] r).map fun (fs, r) => (.inlineTable fs, r)
    | _ => scalar? cs

/-- What one line of a document asks for. -/
inductive Line where
  | blank
  | table (path : List String)
  | repeated (path : List String)
  | assignment (path : List String) (value : Toml)

def header? : List Char → Option (Line × List Char)
  | '[' :: r => do
    let (path, r) ← key? maxNesting r
    return (.repeated path, ← drop? ']' (← drop? ']' r))
  | r => do
    let (path, r) ← key? maxNesting r
    return (.table path, ← drop? ']' r)

def line? (cs : List Char) : Option (Line × List Char) :=
  match skipSpaces cs with
  | [] => some (.blank, [])
  | '#' :: r => some (.blank, '#' :: r)
  | '\n' :: r => some (.blank, '\n' :: r)
  | '\r' :: r => some (.blank, '\r' :: r)
  | '[' :: r => header? r
  | r => (assignment? (value? maxNesting) r).map fun (path, v, r) => (.assignment path v, r)

/-- A document in the making: what is read of it, and the header in force. -/
structure Document where
  fields : Fields := []
  header : List String := []

def Document.add? (d : Document) : Line → Option Document
  | .blank => some d
  | .table path => (beginTable path d.fields).map (⟨·, path⟩)
  | .repeated path => (beginRepeated path d.fields).map (⟨·, path⟩)
  | .assignment path v => (insertAt d.header path v d.fields).map (⟨·, d.header⟩)

def Document.read? : Nat → Document → List Char → Option Document
  | 0, _, _ => none
  | fuel + 1, d, cs =>
    if cs.isEmpty then some d
    else do
      let (line, r) ← line? cs
      (← d.add? line).read? fuel (← lineEnd? r)

/-- The fields of a document, which may begin with a byte order mark. -/
def parse? (text : String) : Option Fields :=
  let cs := match text.toList with
    | c :: r => if c = Char.ofNat 0xFEFF then r else c :: r
    | [] => []
  (Document.read? (cs.length + 1) {} cs).map (·.fields)

end ScriptImage.Toml
