import ScriptImage.Fault
import ScriptImage.Binary32
import ScriptImage.Utf8

/-!
The stored form of plain values: words are four bytes, least significant first, and byte strings
and texts follow a word with their length.
-/

namespace ScriptImage.Bytes

def word (w : UInt32) : List UInt8 :=
  let n := w.toNat
  [UInt8.ofNat (n % 256), UInt8.ofNat (n / 256 % 256), UInt8.ofNat (n / 65536 % 256),
    UInt8.ofNat (n / 16777216)]

/-- The word of four bytes, least significant first. -/
def toWord (bs : List UInt8) : UInt32 :=
  UInt32.ofNat (bs.foldr (fun b n => b.toNat + 256 * n) 0)

def signed (w : Int32) : List UInt8 := word w.toUInt32

def float (x : Binary32) : List UInt8 := word x.bits

def count (n : Nat) : List UInt8 := word (Word.saturate n)

def blob (bs : List UInt8) : List UInt8 := count bs.length ++ bs

def text (s : String) : List UInt8 := blob (Utf8.encode s)

/-- A counted list, its elements one after the other. -/
def list (f : α → List UInt8) (xs : List α) : List UInt8 := count xs.length ++ xs.flatMap f

@[simp] theorem word_length (w : UInt32) : (word w).length = 4 := rfl

@[simp] theorem toWord_word (w : UInt32) : toWord (word w) = w := by
  have h := w.toNat_lt
  apply UInt32.toNat_inj.mp
  simp [toWord, word]
  omega

end ScriptImage.Bytes
