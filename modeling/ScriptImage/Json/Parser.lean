import ScriptImage.Json.Value

/-!
Reading JSON. A reader takes a value from the front of a text and gives the rest; a whole text is
one value between blanks. Nesting costs fuel, of which there is enough for any text: two for each
of its characters.
-/

namespace ScriptImage.Json

def isBlank (c : Char) : Bool := c = ' ' || c = '\n' || c = '\t' || c = '\r'

def skipBlanks (cs : List Char) : List Char := cs.dropWhile isBlank

def isDigit (c : Char) : Bool := '0' ≤ c && c ≤ '9'

def hexValue? (c : Char) : Option Nat :=
  if '0' ≤ c ∧ c ≤ '9' then some (c.toNat - 48)
  else if 'a' ≤ c ∧ c ≤ 'f' then some (c.toNat - 87)
  else if 'A' ≤ c ∧ c ≤ 'F' then some (c.toNat - 55)
  else none

/-- The code of four hexadecimal digits. -/
def hexCode? : List Char → Option (Nat × List Char)
  | a :: b :: c :: d :: r => do
    let a ← hexValue? a
    let b ← hexValue? b
    let c ← hexValue? c
    let d ← hexValue? d
    return (((a * 16 + b) * 16 + c) * 16 + d, r)
  | _ => none

def simpleEscape? (c : Char) : Option Char :=
  if c = '\x22' ∨ c = '\\' ∨ c = '/' then some c
  else if c = 'b' then some '\x08'
  else if c = 'f' then some '\x0c'
  else if c = 'n' then some '\n'
  else if c = 'r' then some '\r'
  else if c = 't' then some '\t'
  else none

/-- One character of a text, `none` inside for half of a surrogate pair. -/
def escaped? : List Char → Option (Option Char × List Char)
  | 'u' :: r => do
    let (n, r) ← hexCode? r
    if 0xD800 ≤ n ∧ n < 0xDC00 then
      match r with
      | '\\' :: 'u' :: r' =>
        let (m, r'') ← hexCode? r'
        if 0xDC00 ≤ m ∧ m < 0xE000 then
          return (some (Char.ofNat (0x10000 + (n - 0xD800) * 1024 + (m - 0xDC00))), r'')
        else return (none, r)
      | _ => return (none, r)
    else if 0xDC00 ≤ n ∧ n < 0xE000 then return (none, r)
    else return (some (Char.ofNat n), r)
  | c :: r => do
    let d ← simpleEscape? c
    return (some d, r)
  | [] => none

/-- The characters of a text after its opening quote. -/
def textTail : Nat → List Char → Option (List (Option Char) × List Char)
  | 0, _ => none
  | fuel + 1, cs =>
    match cs with
    | [] => none
    | c :: r =>
      if c = '\x22' then some ([], r)
      else if c = '\\' then do
        let (d, r) ← escaped? r
        let (ds, r) ← textTail fuel r
        return (d :: ds, r)
      else if c.toNat < 32 then none
      else do
        let (ds, r) ← textTail fuel r
        return (some c :: ds, r)

def text? (cs : List Char) : Option (Option String × List Char) := do
  let (ds, r) ← textTail (cs.length + 1) cs
  return ((ds.mapM id).map String.ofList, r)

/-- One or more digits. -/
def digits? (cs : List Char) : Option (List Char × List Char) :=
  match cs.takeWhile isDigit with
  | [] => none
  | ds => some (ds, cs.dropWhile isDigit)

/-- The digits before the point: a zero alone or no leading zero. -/
def whole? (cs : List Char) : Option (List Char × List Char) := do
  let (ds, r) ← digits? cs
  if ds.head? = some '0' ∧ ds.length ≠ 1 then none else some (ds, r)

def fraction? (cs : List Char) : Option (Option (List Char) × List Char) :=
  match cs with
  | '.' :: r => (digits? r).map fun (ds, r) => (some ds, r)
  | _ => some (none, cs)

def digitsValue (ds : List Char) : Nat := ds.foldl (fun n c => n * 10 + (c.toNat - 48)) 0

def exponentDigits? (sign : Int) (cs : List Char) : Option (Option Int × List Char) :=
  (digits? cs).map fun (ds, r) => (some (sign * digitsValue ds), r)

def exponent? (cs : List Char) : Option (Option Int × List Char) :=
  match cs with
  | c :: r =>
    if c = 'e' ∨ c = 'E' then
      match r with
      | '+' :: r => exponentDigits? 1 r
      | '-' :: r => exponentDigits? (-1) r
      | r => exponentDigits? 1 r
    else some (none, cs)
  | [] => some (none, cs)

def number? (cs : List Char) : Option (Numeral × List Char) := do
  let negative := cs.head? == some '-'
  let (whole, r) ← whole? (if negative then cs.drop 1 else cs)
  let (fraction, r) ← fraction? r
  let (exponent, r) ← exponent? r
  return (⟨negative, whole, fraction, exponent⟩, r)

/-- Takes a keyword from the front. -/
def keyword? (w : String) (cs : List Char) : Option (List Char) :=
  if w.toList.isPrefixOf cs then some (cs.drop w.length) else none

mutual

def value? : Nat → List Char → Option (Json × List Char)
  | 0, _ => none
  | fuel + 1, cs =>
    match skipBlanks cs with
    | [] => none
    | c :: r =>
      if c = '\x22' then (text? r).map fun (s, r) => (.text s, r)
      else if c = '[' then
        match skipBlanks r with
        | ']' :: r => some (.array [], r)
        | r => (elements? fuel r).map fun (xs, r) => (.array xs, r)
      else if c = '\x7b' then
        match skipBlanks r with
        | '\x7d' :: r => some (.object [], r)
        | r => (fields? fuel r).map fun (fs, r) => (.object fs, r)
      else if c = 't' then (keyword? "rue" r).map fun r => (.bool true, r)
      else if c = 'f' then (keyword? "alse" r).map fun r => (.bool false, r)
      else if c = 'n' then (keyword? "ull" r).map fun r => (.null, r)
      else (number? (c :: r)).map fun (n, r) => (.number n, r)

def elements? : Nat → List Char → Option (List Json × List Char)
  | 0, _ => none
  | fuel + 1, cs => do
    let (x, r) ← value? fuel cs
    match skipBlanks r with
    | ',' :: r =>
      let (xs, r) ← elements? fuel r
      return (x :: xs, r)
    | ']' :: r => return ([x], r)
    | _ => none

def fields? : Nat → List Char → Option (List (Option String × Json) × List Char)
  | 0, _ => none
  | fuel + 1, cs =>
    match skipBlanks cs with
    | '\x22' :: r => do
      let (k, r) ← text? r
      match skipBlanks r with
      | ':' :: r =>
        let (v, r) ← value? fuel r
        match skipBlanks r with
        | ',' :: r =>
          let (fs, r) ← fields? fuel r
          return ((k, v) :: fs, r)
        | '\x7d' :: r => return ([(k, v)], r)
        | _ => none
      | _ => none
    | _ => none

end

/-- The value of a whole text. -/
def parse? (cs : List Char) : Option Json := do
  let (j, r) ← value? (2 * cs.length + 2) cs
  if skipBlanks r = [] then some j else none

def ofString? (s : String) : Option Json := parse? s.toList

end ScriptImage.Json
