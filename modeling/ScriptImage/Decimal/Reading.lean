import ScriptImage.Binary32

/-!
The value of a numeral. A numeral without point and exponent is a whole number; any other is a
double: its leading digits, as many as fit 64 bits, are scaled by a power of ten in double
arithmetic. A single-precision value is the one nearest to that.
-/

namespace ScriptImage.Numeral

def digitValue (c : Char) : Nat := c.toNat - 48

def wordLimit : Nat := 0x10000000000000000

/-- Appends digits to a 64-bit number as long as they fit, and counts those that do not. -/
def accumulate (acc : Nat) : List Char → Nat × Nat
  | [] => (acc, 0)
  | c :: r =>
    if acc * 10 + digitValue c < wordLimit then accumulate (acc * 10 + digitValue c) r
    else (acc, r.length + 1)

/-- The whole number of a plain numeral; `-0` is not one. -/
def integer? (n : Numeral) : Option Int :=
  match n.fraction, n.exponent with
  | none, none =>
    let m := n.whole.foldl (fun a c => a * 10 + digitValue c) 0
    if n.negative then (if m = 0 then none else some (-m)) else some m
  | _, _ => none

/-- A whole number within bounds. -/
def bounded? (low high : Int) (n : Numeral) : Option Int := do
  let i ← n.integer?
  if low ≤ i ∧ i ≤ high then some i else none

def doubleIsFinite (d : Dyadic) : Bool := d.num.natAbs < Nat.pow 2 1024 * d.den

def powerOfTen (e : Nat) : Dyadic := BinaryFormat.double.round (Nat.pow 10 e) 1

/-- A double times a power of ten, none when it grows past the largest double. Powers below the
range of doubles are divided away piece by piece. -/
def scale : Nat → Dyadic → Int → Option Dyadic
  | 0, d, _ => some d
  | fuel + 1, d, e =>
    if e.natAbs ≤ 308 then
      if 0 ≤ e then
        let p := BinaryFormat.double.mul d (powerOfTen e.natAbs)
        if doubleIsFinite p then some p else none
      else some (BinaryFormat.double.div d (powerOfTen e.natAbs))
    else if d.mantissa = 0 then some d
    else if 0 ≤ e then none
    else scale fuel (BinaryFormat.double.div d (powerOfTen 308)) (e + 308)

/-- The magnitude of a numeral as a double; none when it is too large. -/
def double? (n : Numeral) : Option Dyadic :=
  let (m, dropped) := accumulate 0 n.whole
  let ds := n.fraction.getD []
  let (m', left) := accumulate m ds
  let places : Int := (dropped : Int) - ((ds.length - left : Nat) : Int)
  let e := n.exponent.getD 0
  if 0x80000000 ≤ e then (if m' = 0 then some (.ofInt 0) else none)
  else if e ≤ -0x80000000 then some (.ofInt 0)
  else scale 8 (BinaryFormat.double.round m' 1) (max (-0x80000000) (min (places + e) 0x7FFFFFFF))

/-- The single-precision value of a numeral: straight from a 64-bit whole number, else through
its double. -/
def binary32? (n : Numeral) : Option Binary32 :=
  match n.bounded? (-0x8000000000000000) 0xFFFFFFFFFFFFFFFF with
  | some i => some (.ofInt i)
  | none => n.double?.map fun d => .ofQuotient n.negative d.num.natAbs d.den

end ScriptImage.Numeral
