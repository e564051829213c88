import ScriptImage.Fault
import ScriptImage.BinarySearch
import ScriptImage.Utf8

/-!
The data section: bytes holding texts, each closed by a zero byte, and an index of where each
text starts. Instructions name a text by its offset.
-/

namespace ScriptImage

structure TextEntry where
  offset : UInt32
  /-- Length in bytes without the closing zero. -/
  length : UInt32
  deriving DecidableEq, Repr

structure DataSection where
  bytes : List UInt8 := []
  entries : List TextEntry := []
  deriving DecidableEq, Repr

namespace DataSection

def empty : DataSection := {}

/-- The entries of bytes of which a text of `length` bytes from `start` is already read. -/
def index (start length : Nat) : List UInt8 → List TextEntry
  | [] => if length = 0 then [] else [⟨Word.saturate start, Word.saturate length⟩]
  | b :: r =>
    if b = 0 then
      ⟨Word.saturate start, Word.saturate length⟩ :: index (start + length + 1) 0 r
    else index start (length + 1) r

/-- Every run closed by a zero byte is a text, and so is an open run at the end. -/
def ofBytes (bs : List UInt8) : DataSection := ⟨bs, index 0 0 bs⟩

def size (d : DataSection) : Nat := d.bytes.length

/-- Appends a text and gives its offset. -/
def push (d : DataSection) (text : List UInt8) : UInt32 × DataSection :=
  let offset := Word.saturate d.bytes.length
  (offset, {
    bytes := d.bytes ++ text ++ [0]
    entries := d.entries ++ [⟨offset, Word.saturate text.length⟩] })

def pushText (d : DataSection) (text : String) : UInt32 × DataSection := d.push (Utf8.encode text)

/-- The bytes of an entry; a fault when it points past the section. -/
def bytesOf (d : DataSection) (e : TextEntry) : Except Fault (List UInt8) :=
  let start := e.offset.toNat
  if start + e.length.toNat ≤ d.bytes.length then
    .ok ((d.bytes.drop start).take e.length.toNat)
  else .error .outOfRange

def textOf (d : DataSection) (e : TextEntry) : Except Fault String :=
  Utf8.decodeLossy <$> d.bytesOf e

/-- The entry that starts at an offset. -/
def entryAt? (d : DataSection) (offset : UInt32) : Option TextEntry := do
  let i ← BinarySearch.find? (fun e => compare e.offset offset) d.entries
  d.entries[i]?

/-- The text that starts at an offset. -/
def textAt? (d : DataSection) (offset : UInt32) : Except Fault (Option String) :=
  match d.entryAt? offset with
  | none => .ok none
  | some e => some <$> d.textOf e

end DataSection

end ScriptImage
