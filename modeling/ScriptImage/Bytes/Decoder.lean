import ScriptImage.Bytes.Encode
import ScriptImage.FormatError

/-!
Reading stored values one after the other. A decoder moves a cursor over the bytes; when it fails
it says where the cursor stopped, so that what was read before the failure stays read.
-/

namespace ScriptImage

structure Cursor where
  offset : Nat
  rest : List UInt8
  deriving DecidableEq, Repr

namespace Cursor

def ofBytes (bs : List UInt8) : Cursor := ⟨0, bs⟩

def remaining (c : Cursor) : Nat := c.rest.length

end Cursor

abbrev Decoder := EStateM FormatError Cursor

namespace Decoder

def fail (e : FormatError) : Decoder α := fun c => .error e c

def offset : Decoder Nat := fun c => .ok c.offset c

def remaining : Decoder Nat := fun c => .ok c.remaining c

def bytes (n : Nat) : Decoder (List UInt8) := fun c =>
  let taken := c.rest.take n
  if taken.length < n then .error (.unexpectedEof n c.offset) c
  else .ok taken ⟨c.offset + n, c.rest.drop n⟩

def byte : Decoder UInt8 := do
  let bs ← bytes 1
  return bs.headD 0

def word : Decoder UInt32 := do
  let bs ← bytes 4
  return Bytes.toWord bs

def signed : Decoder Int32 := do
  let w ← word
  return w.toInt32

def float : Decoder Binary32 := do
  let w ← word
  return ⟨w⟩

def blob : Decoder (List UInt8) := do
  let n ← word
  bytes n.toNat

def text : Decoder String := do
  let bs ← blob
  match Utf8.decode? bs with
  | some s => return s
  | none => fail .invalidUtf8

/-- A number of elements of at least `minSize` bytes each, which must fit in what remains. -/
def count (minSize : Nat) : Decoder Nat := do
  let at_ ← offset
  let n ← word
  let left ← remaining
  if left < n.toNat * max minSize 1 then fail (.invalidCount n.toNat at_)
  else return n.toNat

/-- Succeeds only at the end of the bytes. -/
def finish : Decoder Unit := do
  let left ← remaining
  if left = 0 then return () else fail (.trailingBytes (← offset))

def times : Nat → Decoder α → Decoder (List α)
  | 0, _ => return []
  | n + 1, d => do
    let x ← d
    let xs ← times n d
    return x :: xs

/-- A counted list of elements of at least `minSize` bytes each. -/
def list (minSize : Nat) (d : Decoder α) : Decoder (List α) := do
  let n ← count minSize
  times n d

def magic (expected : List UInt8) : Decoder Unit := do
  let bs ← bytes expected.length
  if bs = expected then return () else fail (.invalidMagic expected)

def run (d : Decoder α) (bs : List UInt8) : Except FormatError α :=
  match d (Cursor.ofBytes bs) with
  | .ok x _ => .ok x
  | .error e _ => .error e

end Decoder

end ScriptImage
