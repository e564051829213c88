/-!
Decimal numbers with the fewest digits inside an interval. The interval holds the reals that a
binary format rounds to one value; the result is the decimal of fewest digits in it, and of two
with equally many the one nearer to the value itself.
-/

namespace ScriptImage

/-- The number `coefficient * 10 ^ exponent`. -/
structure Decimal where
  coefficient : Nat
  exponent : Int
  deriving DecidableEq, Repr

inductive DecimalTie where
  | up
  | toEven
  deriving DecidableEq

/-- An interval with a value inside it, as whole numbers over one denominator. -/
structure RoundingInterval where
  low : Nat
  value : Nat
  high : Nat
  den : Nat
  /-- Whether the two ends belong to the interval. -/
  closed : Bool

namespace RoundingInterval

def contains (r : RoundingInterval) (num den : Nat) : Bool :=
  if r.closed then r.low * den ≤ num * r.den && num * r.den ≤ r.high * den
  else r.low * den < num * r.den && num * r.den < r.high * den

end RoundingInterval

namespace Decimal

def digitCount (n : Nat) : Nat := if n = 0 then 0 else (Nat.toDigits 10 n).length

/-- The greatest exponent of a power of ten that is at most a positive quotient. -/
def floorLog10 (num den : Nat) : Int :=
  if den ≤ num then digitCount (num / den) - 1
  else -(digitCount ((den + num - 1) / num - 1) : Int)

def num (d : Decimal) : Nat := d.coefficient * Nat.pow 10 d.exponent.toNat

def den (d : Decimal) : Nat := Nat.pow 10 (-d.exponent).toNat

/-- The same number without zeros at the end of its coefficient. -/
def trim (fuel : Nat) (d : Decimal) : Decimal :=
  match fuel with
  | 0 => d
  | fuel + 1 =>
    if d.coefficient % 10 = 0 ∧ d.coefficient ≠ 0 then
      trim fuel ⟨d.coefficient / 10, d.exponent + 1⟩
    else d

/-- The point of the grid `10 ^ k` that lies in the interval, nearest to the value. -/
def onGrid (tie : DecimalTie) (r : RoundingInterval) (k : Int) : Option Decimal :=
  let unit := r.den * Nat.pow 10 k.toNat
  let scaled := r.value * Nat.pow 10 (-k).toNat
  let c := scaled / unit
  let below : Decimal := ⟨c, k⟩
  let above : Decimal := ⟨c + 1, k⟩
  let rest := 2 * (scaled % unit)
  match c ≠ 0 && r.contains below.num below.den, r.contains above.num above.den with
  | true, true =>
    if rest < unit then some below
    else if unit < rest then some above
    else match tie with
      | .up => some above
      | .toEven => if c % 2 = 0 then some below else some above
  | true, false => some below
  | false, true => some above
  | false, false => none

/-- Tries grids of 1, 2, … digits; the finest of them gives the digits of the value itself. -/
def search (tie : DecimalTie) (r : RoundingInterval) : Nat → Int → Decimal
  | 0, k => ⟨r.value * Nat.pow 10 (-k).toNat / (r.den * Nat.pow 10 k.toNat), k⟩
  | fuel + 1, k =>
    match onGrid tie r k with
    | some d => trim (digitCount d.coefficient) d
    | none => search tie r fuel (k - 1)

/-- The decimal of fewest digits in an interval around a positive value. -/
def shortest (tie : DecimalTie) (r : RoundingInterval) : Decimal :=
  search tie r 20 (floorLog10 r.value r.den)

end Decimal

end ScriptImage
