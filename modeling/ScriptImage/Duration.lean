import ScriptImage.Rounding

/-!
Durations as text. Below a second the whole milliseconds are told, below a minute the seconds to
three places, and from there on minutes with the rest in seconds to one place. Seconds are
double-precision numbers, so a rest can lie slightly off its decimal value.
-/

namespace ScriptImage

/-- Digits of a number with a fixed count of places; a half goes to the even neighbour. -/
def Dyadic.fixed (places : Nat) (d : Dyadic) : String :=
  let n := roundHalfEven (d.num.natAbs * Nat.pow 10 places) d.den
  let digits := Nat.toDigits 10 (n % Nat.pow 10 places)
  (if d.mantissa < 0 then "-" else "") ++ toString (n / Nat.pow 10 places) ++ "."
    ++ String.ofList (List.replicate (places - digits.length) '0' ++ digits)

structure Duration where
  seconds : UInt64
  nanos : Nat
  nanos_lt : nanos < 1000000000
  deriving DecidableEq, Repr

namespace Duration

def zero : Duration := ⟨0, 0, by decide⟩

/-- A duration from seconds and any number of nanoseconds, if its seconds fit a word. -/
def of? (seconds nanos : Nat) : Option Duration :=
  if seconds + nanos / 1000000000 < 0x10000000000000000 then
    some ⟨UInt64.ofNat (seconds + nanos / 1000000000), nanos % 1000000000, Nat.mod_lt _ (by decide)⟩
  else none

def toNanos (d : Duration) : Nat := d.seconds.toNat * 1000000000 + d.nanos

/-- The time from one moment to a later one. -/
def between (start stop : Duration) : Duration :=
  (of? 0 (stop.toNanos - start.toNanos)).getD zero

def millis (d : Duration) : Nat := d.seconds.toNat * 1000 + d.nanos / 1000000

/-- The duration in seconds, with a fraction. -/
def toSeconds (d : Duration) : Dyadic :=
  BinaryFormat.double.add (BinaryFormat.double.round d.seconds.toNat 1)
    (BinaryFormat.double.round d.nanos 1000000000)

def text (d : Duration) : String :=
  if d.millis < 1000 then s!"{d.millis} ms"
  else
    let s := d.toSeconds
    if s.floor < 60 then s.fixed 3 ++ " s"
    else
      let sixty := Dyadic.ofInt 60
      let minutes := (BinaryFormat.double.div s sixty).floor
      let rest := BinaryFormat.double.sub s
        (BinaryFormat.double.mul (Dyadic.ofInt minutes) sixty)
      s!"{minutes} min " ++ rest.fixed 1 ++ " s"

end Duration

end ScriptImage
