import ScriptImage.Decimal.Shortest

/-!
Numerals: the digits of a number before and after the point, and an exponent. A notation says
which magnitudes are written positionally, always with a point; all others get one digit before
the point and an exponent.
-/

namespace ScriptImage

structure Numeral where
  negative : Bool
  whole : List Char
  /-- The digits after the point, when there is one. -/
  fraction : Option (List Char)
  exponent : Option Int
  deriving DecidableEq, Repr

namespace Numeral

def ofInt (i : Int) : Numeral := ⟨i < 0, Nat.toDigits 10 i.natAbs, none, none⟩

def text (n : Numeral) : List Char :=
  (if n.negative then ['-'] else []) ++ n.whole
    ++ (match n.fraction with
      | some ds => '.' :: ds
      | none => [])
    ++ (match n.exponent with
      | some e => 'e' :: (toString e).toList
      | none => [])

end Numeral

structure DecimalNotation where
  /-- Positional when the point stands after more than this many digits… -/
  above : Int
  /-- …and after at most this many. -/
  upTo : Int
  tie : DecimalTie

namespace Decimal

def digits (d : Decimal) : List Char := Nat.toDigits 10 d.coefficient

/-- Number of digits before the decimal point; negative for leading zeros after it. -/
def pointPosition (d : Decimal) : Int := d.digits.length + d.exponent

def positional (negative : Bool) (d : Decimal) : Numeral :=
  let p := d.pointPosition
  let ds := d.digits
  if 0 ≤ d.exponent then
    ⟨negative, ds ++ List.replicate d.exponent.toNat '0', some ['0'], none⟩
  else if 0 < p then ⟨negative, ds.take p.toNat, some (ds.drop p.toNat), none⟩
  else ⟨negative, ['0'], some (List.replicate (-p).toNat '0' ++ ds), none⟩

def scientific (negative : Bool) (d : Decimal) : Numeral :=
  let ds := d.digits
  ⟨negative, ds.take 1, if ds.length ≤ 1 then none else some (ds.drop 1),
    some (d.pointPosition - 1)⟩

end Decimal

def DecimalNotation.numeral (f : DecimalNotation) (negative : Bool) (d : Decimal) : Numeral :=
  if f.above < d.pointPosition ∧ d.pointPosition ≤ f.upTo then d.positional negative
  else d.scientific negative

end ScriptImage
