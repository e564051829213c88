/-!
Rounding of exact quotients. A binary format keeps a bounded number of significant bits above a
least exponent; its nearest value to a quotient is found in whole-number arithmetic, and a tie
goes to the even neighbour. A dyadic is a whole number times a power of two.
-/

namespace ScriptImage

/-- The whole number nearest to a quotient; a half goes to the even neighbour. -/
def roundHalfEven (num den : Nat) : Nat :=
  let q := num / den
  let r := num % den
  if den < 2 * r ∨ (den = 2 * r ∧ q % 2 = 1) then q + 1 else q

theorem roundHalfEven_mul (q : Nat) {den : Nat} (h : 0 < den) :
    roundHalfEven (q * den) den = q := by
  simp [roundHalfEven, h]
  omega

structure Dyadic where
  mantissa : Int
  exponent : Int
  deriving DecidableEq, Repr

namespace Dyadic

/-- Numerator of the value over `den`. -/
def num (d : Dyadic) : Int := d.mantissa * Nat.pow 2 d.exponent.toNat

def den (d : Dyadic) : Nat := Nat.pow 2 (-d.exponent).toNat

def ofInt (i : Int) : Dyadic := ⟨i, 0⟩

/-- The greatest whole number not above the value. -/
def floor (d : Dyadic) : Int := d.num / d.den

end Dyadic

/-- The greatest exponent of a power of two that is at most a positive quotient. -/
def floorLog2 (num den : Nat) : Int :=
  let k : Int := num.log2 - den.log2
  if den * Nat.pow 2 k.toNat ≤ num * Nat.pow 2 (-k).toNat then k else k - 1

structure BinaryFormat where
  /-- Number of significant bits. -/
  precision : Nat
  /-- Exponent of the unit of the smallest values. -/
  leastExponent : Int

namespace BinaryFormat

def single : BinaryFormat := ⟨24, -149⟩

def double : BinaryFormat := ⟨53, -1074⟩

/-- The value of the format nearest to a quotient, without an upper limit. -/
def round (f : BinaryFormat) (num : Int) (den : Nat) : Dyadic :=
  if num = 0 then ⟨0, f.leastExponent⟩ else
    let n := num.natAbs
    let e := max f.leastExponent (floorLog2 n den - (f.precision - 1))
    ⟨num.sign * roundHalfEven (n * Nat.pow 2 (-e).toNat) (den * Nat.pow 2 e.toNat), e⟩

def roundDyadic (f : BinaryFormat) (d : Dyadic) : Dyadic := f.round d.num d.den

def add (f : BinaryFormat) (a b : Dyadic) : Dyadic :=
  f.round (a.num * b.den + b.num * a.den) (a.den * b.den)

def sub (f : BinaryFormat) (a b : Dyadic) : Dyadic := f.add a ⟨-b.mantissa, b.exponent⟩

def mul (f : BinaryFormat) (a b : Dyadic) : Dyadic :=
  f.roundDyadic ⟨a.mantissa * b.mantissa, a.exponent + b.exponent⟩

/-- The rounded quotient by a positive value. -/
def div (f : BinaryFormat) (a b : Dyadic) : Dyadic :=
  f.round (a.num * b.den) (a.den * b.num.toNat)

end BinaryFormat

end ScriptImage
