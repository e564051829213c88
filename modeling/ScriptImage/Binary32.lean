import ScriptImage.Rounding
import ScriptImage.Decimal.Notation

/-!
Single-precision floats as bit patterns. Equality of this type is equality of bits, so every NaN
pattern is kept apart; `numericEq` is the numeric comparison, where the two zeros are equal and a
NaN equals nothing.
-/

namespace ScriptImage

structure Binary32 where
  bits : UInt32
  deriving DecidableEq, Repr, Inhabited

namespace Binary32

def negative (x : Binary32) : Bool := 0x80000000 ≤ x.bits.toNat

/-- The bits below the sign. -/
def magnitude (x : Binary32) : Nat := x.bits.toNat % 0x80000000

def exponentField (x : Binary32) : Nat := x.magnitude / 0x800000

def fraction (x : Binary32) : Nat := x.magnitude % 0x800000

def isFinite (x : Binary32) : Bool := x.exponentField < 255

def isNaN (x : Binary32) : Bool := x.exponentField = 255 && x.fraction ≠ 0

def significand (x : Binary32) : Nat :=
  if x.exponentField = 0 then x.fraction else 0x800000 + x.fraction

/-- Exponent of the unit of the significand. -/
def exponent (x : Binary32) : Int := (max x.exponentField 1 : Nat) - 150

def numericEq (x y : Binary32) : Bool :=
  !x.isNaN && !y.isNaN && (x.bits == y.bits || (x.magnitude == 0 && y.magnitude == 0))

theorem numericEq_self_iff {x : Binary32} : x.numericEq x = true ↔ x.isNaN = false := by
  simp [numericEq]

theorem numericEq_comm (x y : Binary32) : x.numericEq y = y.numericEq x := by
  unfold numericEq
  rw [Bool.and_comm (!x.isNaN), Bool.and_comm (x.magnitude == 0), BEq.comm (a := x.bits)]

def withSign (neg : Bool) (magnitude : Nat) : Binary32 :=
  ⟨UInt32.ofNat (if neg then 0x80000000 + magnitude else magnitude)⟩

/-- The float nearest to a dyadic rounded to single precision; infinite past the largest. -/
def ofQuotient (neg : Bool) (num den : Nat) : Binary32 :=
  let d := BinaryFormat.single.round num den
  withSign neg (min ((d.exponent + 149).toNat * 0x800000 + d.mantissa.toNat) (255 * 0x800000))

def ofInt (i : Int) : Binary32 := ofQuotient (i < 0) i.natAbs 1

/-- The whole part of a finite value, toward zero. -/
def truncate (x : Binary32) : Int :=
  let n := x.significand * Nat.pow 2 x.exponent.toNat / Nat.pow 2 (-x.exponent).toNat
  if x.negative then -n else n

/-- Whether the value is a finite whole number. -/
def isIntegral (x : Binary32) : Bool :=
  x.isFinite && x.significand * Nat.pow 2 x.exponent.toNat % Nat.pow 2 (-x.exponent).toNat == 0

/-- The whole part as a signed word: out-of-range values stay at the ends and NaN gives 0. -/
def toInt32 (x : Binary32) : Int32 :=
  if x.isNaN then 0
  else if x.isFinite then
    Int32.ofInt (max (-0x80000000) (min x.truncate 0x7FFFFFFF))
  else if x.negative then Int32.ofInt (-0x80000000) else Int32.ofInt 0x7FFFFFFF

/-- The reals that round to a positive finite value, in quarters of its unit. -/
def interval (x : Binary32) : RoundingInterval :=
  let m := x.significand
  let up := x.exponent.toNat
  let below := if x.fraction = 0 ∧ 1 < x.exponentField then 1 else 2
  { low := (4 * m - below) * Nat.pow 2 up
    value := 4 * m * Nat.pow 2 up
    high := (4 * m + 2) * Nat.pow 2 up
    den := 4 * Nat.pow 2 (-x.exponent).toNat
    closed := m % 2 = 0 }

/-- The shortest numeral of a finite value in a notation. -/
def numeral (f : DecimalNotation) (x : Binary32) : Numeral :=
  if x.magnitude = 0 then ⟨x.negative, ['0'], some ['0'], none⟩
  else f.numeral x.negative (Decimal.shortest f.tie x.interval)

/-- Listings write magnitudes from a ten-thousandth up to ten quadrillions positionally. -/
def listing : DecimalNotation := ⟨-4, 16, .up⟩

/-- The text of a value in listings and reports. -/
def display (x : Binary32) : String :=
  if x.isNaN then "NaN"
  else if x.isFinite then String.ofList (x.numeral listing).text
  else if x.negative then "-inf" else "inf"

end Binary32

end ScriptImage
