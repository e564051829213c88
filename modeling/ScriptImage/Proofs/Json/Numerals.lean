import Mathlib
import ScriptImage.Json.Decode

/-!
Numerals as texts. A numeral of digits without leading zeros is read back from its text, up to the
first character that cannot belong to it. Whole numbers and finite floats are written as such
numerals, and a whole number is read as itself.
-/

namespace ScriptImage

/-! ### Digits -/

/-- Digits, at least one. -/
def IsDigits (ds : List Char) : Prop := ds ≠ [] ∧ ∀ c ∈ ds, Json.isDigit c = true

namespace IsDigits

theorem append {ds es : List Char} (hds : IsDigits ds) (hes : ∀ c ∈ es, Json.isDigit c = true) :
    IsDigits (ds ++ es) := by
  refine ⟨by simp [hds.1], fun c hc => ?_⟩
  rcases List.mem_append.mp hc with hc | hc
  · exact hds.2 c hc
  · exact hes c hc

theorem of_sublist {ds es : List Char} (hds : IsDigits ds) (hes : es.Sublist ds) (hne : es ≠ []) :
    IsDigits es :=
  ⟨hne, fun c hc => hds.2 c (hes.subset hc)⟩

end IsDigits

theorem isDigit_of_mem_toDigits {n : Nat} {c : Char} (h : c ∈ Nat.toDigits 10 n) :
    Json.isDigit c = true :=
  Nat.isDigit_of_mem_toDigits (by decide) (by decide) h

theorem isDigits_toDigits (n : Nat) : IsDigits (Nat.toDigits 10 n) :=
  ⟨Nat.toDigits_ne_nil, fun _ => isDigit_of_mem_toDigits⟩

theorem isDigits_zero : IsDigits ['0'] := by
  refine ⟨List.cons_ne_nil _ _, fun c hc => ?_⟩
  rw [List.mem_singleton.mp hc]
  rfl

theorem isDigit_of_mem_replicate {n : Nat} {c : Char} (h : c ∈ List.replicate n '0') :
    Json.isDigit c = true := by
  rw [List.eq_of_mem_replicate h]
  rfl

/-- Only zero is written with a zero in front. -/
theorem head?_toDigits_ne {n : Nat} (h : n ≠ 0) : (Nat.toDigits 10 n).head? ≠ some '0' := by
  induction n using Nat.strongRecOn with
  | ind n ih =>
      rw [Nat.toDigits_eq_if (by decide)]
      split
      · rename_i hlt
        interval_cases n <;> simp_all
      · rename_i hle
        rw [List.head?_append_of_ne_nil _ Nat.toDigits_ne_nil]
        exact ih (n / 10) (by omega) (by omega)

theorem digitsValue_toDigits (n : Nat) : Json.digitsValue (Nat.toDigits 10 n) = n := by
  refine Eq.trans ?_ (Nat.ofDigitChars_ten_toDigits (n := n))
  rw [Json.digitsValue, Nat.ofDigitChars]
  congr 1
  funext m c
  rw [Nat.mul_comm]
  rfl

/-! ### Reading the parts of a numeral -/

namespace Json

variable {ds r : List Char}

theorem digits?_append (hds : IsDigits ds) (hr : ∀ c ∈ r.head?, isDigit c = false) :
    digits? (ds ++ r) = some (ds, r) := by
  have htake : r.takeWhile isDigit = [] := by
    cases r with
    | nil => rfl
    | cons c r => rw [List.takeWhile_cons_of_neg (by simp [hr c rfl])]
  have hdrop : r.dropWhile isDigit = r := by
    cases r with
    | nil => rfl
    | cons c r => rw [List.dropWhile_cons_of_neg (by simp [hr c rfl])]
  unfold digits?
  rw [List.takeWhile_append_of_pos hds.2, List.dropWhile_append_of_pos hds.2, htake, hdrop,
    List.append_nil]
  obtain ⟨c, cs, rfl⟩ := List.exists_cons_of_ne_nil hds.1
  rfl

theorem whole?_append (hds : IsDigits ds) (hzero : ds.head? = some '0' → ds.length = 1)
    (hr : ∀ c ∈ r.head?, isDigit c = false) : whole? (ds ++ r) = some (ds, r) := by
  rw [whole?, digits?_append hds hr]
  exact if_neg fun h => h.2 (hzero h.1)

theorem fraction?_of_no_point (hr : ∀ c ∈ r.head?, c ≠ '.') : fraction? r = some (none, r) := by
  cases r with
  | nil => rfl
  | cons c r =>
      have hc := hr c rfl
      unfold fraction?
      split
      · rename_i heq
        cases heq
        exact absurd rfl hc
      · rfl

theorem fraction?_append (hds : IsDigits ds) (hr : ∀ c ∈ r.head?, isDigit c = false) :
    fraction? ('.' :: (ds ++ r)) = some (some ds, r) := by
  change (digits? (ds ++ r)).map _ = _
  rw [digits?_append hds hr]
  rfl

theorem exponent?_of_no_letter (hr : ∀ c ∈ r.head?, c ≠ 'e' ∧ c ≠ 'E') :
    exponent? r = some (none, r) := by
  cases r with
  | nil => rfl
  | cons c r =>
      obtain ⟨he, hE⟩ := hr c rfl
      exact if_neg (by simp [he, hE])

theorem exponentDigits?_append (sign : Int) (n : Nat) (hr : ∀ c ∈ r.head?, isDigit c = false) :
    exponentDigits? sign (Nat.toDigits 10 n ++ r) = some (some (sign * n), r) := by
  rw [exponentDigits?, digits?_append (isDigits_toDigits n) hr]
  simp only [Option.map_some, digitsValue_toDigits]

/-- An exponent that begins with a digit has no sign. -/
theorem exponent?_of_isDigits (hds : IsDigits ds) (r : List Char) :
    exponent? ('e' :: (ds ++ r)) = exponentDigits? 1 (ds ++ r) := by
  obtain ⟨c, cs, rfl⟩ := List.exists_cons_of_ne_nil hds.1
  have hc := hds.2 c List.mem_cons_self
  rw [List.cons_append]
  unfold exponent?
  dsimp only
  rw [if_pos (Or.inl rfl)]
  split
  · rename_i heq
    cases heq
    cases hc
  · rename_i heq
    cases heq
    cases hc
  · rfl

theorem exponent?_append (e : Int) (hr : ∀ c ∈ r.head?, isDigit c = false) :
    exponent? ('e' :: ((toString e).toList ++ r)) = some (some e, r) := by
  cases e with
  | ofNat n =>
      have htext : (toString (Int.ofNat n)).toList = Nat.toDigits 10 n := Nat.toList_repr
      rw [htext, exponent?_of_isDigits (isDigits_toDigits n), exponentDigits?_append 1 n hr,
        one_mul]
      rfl
  | negSucc n =>
      have htext : (toString (Int.negSucc n)).toList = '-' :: Nat.toDigits 10 (n + 1) := by
        have hrepr : toString (Int.negSucc n) = "-" ++ (n + 1).repr := rfl
        rw [hrepr, String.toList_append, Nat.toList_repr]
        rfl
      rw [htext, List.cons_append]
      have hdigits := exponentDigits?_append (-1) (n + 1) hr
      rw [neg_one_mul] at hdigits
      exact hdigits

end Json

/-! ### Well-formed numerals -/

namespace Numeral

/-- A numeral whose text is read as it was meant. -/
structure WellFormed (n : Numeral) : Prop where
  whole : IsDigits n.whole
  zero : n.whole.head? = some '0' → n.whole.length = 1
  fraction : ∀ ds, n.fraction = some ds → IsDigits ds

/-- The text of the digits after the point. -/
def fractionText (n : Numeral) : List Char :=
  match n.fraction with
  | some ds => '.' :: ds
  | none => []

def exponentText (n : Numeral) : List Char :=
  match n.exponent with
  | some e => 'e' :: (toString e).toList
  | none => []

theorem text_eq (n : Numeral) : n.text =
    (if n.negative then ['-'] else []) ++ n.whole ++ n.fractionText ++ n.exponentText := rfl

/-- What may stand behind a numeral. -/
def Ends (r : List Char) : Prop :=
  ∀ c ∈ r.head?, Json.isDigit c = false ∧ c ≠ '.' ∧ c ≠ 'e' ∧ c ≠ 'E'

variable {n : Numeral} {r : List Char}

theorem exponent?_exponentText (n : Numeral) (hr : Ends r) :
    Json.exponent? (n.exponentText ++ r) = some (n.exponent, r) := by
  unfold exponentText
  cases n.exponent with
  | none => exact Json.exponent?_of_no_letter fun c hc => (hr c hc).2.2
  | some e => exact Json.exponent?_append e fun c hc => (hr c hc).1

theorem head?_exponentText (n : Numeral) (hr : Ends r) :
    ∀ c ∈ (n.exponentText ++ r).head?, Json.isDigit c = false ∧ c ≠ '.' := by
  unfold exponentText
  cases n.exponent with
  | none => exact fun c hc => ⟨(hr c hc).1, (hr c hc).2.1⟩
  | some e =>
      rintro c ⟨⟩
      decide

theorem WellFormed.fraction?_fractionText (h : n.WellFormed) (hr : Ends r) :
    Json.fraction? (n.fractionText ++ (n.exponentText ++ r)) =
      some (n.fraction, n.exponentText ++ r) := by
  have hhead := n.head?_exponentText hr
  unfold fractionText
  cases hfraction : n.fraction with
  | none => exact Json.fraction?_of_no_point fun c hc => (hhead c hc).2
  | some ds => exact Json.fraction?_append (h.fraction ds hfraction) fun c hc => (hhead c hc).1

theorem head?_fractionText (n : Numeral) (hr : Ends r) :
    ∀ c ∈ (n.fractionText ++ (n.exponentText ++ r)).head?, Json.isDigit c = false := by
  unfold fractionText
  cases n.fraction with
  | none => exact fun c hc => (n.head?_exponentText hr c hc).1
  | some ds =>
      rintro c ⟨⟩
      decide

/-- A numeral is read back from its text. -/
theorem WellFormed.number?_text (h : n.WellFormed) (hr : Ends r) :
    Json.number? (n.text ++ r) = some (n, r) := by
  have hwhole := Json.whole?_append h.whole h.zero (n.head?_fractionText hr)
  have hfraction := h.fraction?_fractionText hr
  have hexponent := n.exponent?_exponentText hr
  generalize hbody : n.whole ++ (n.fractionText ++ (n.exponentText ++ r)) = body at hwhole
  -- with the sign that the text has, the numeral is itself
  have hsame : ∀ negative, n.negative = negative →
      some ((⟨negative, n.whole, n.fraction, n.exponent⟩ : Numeral), r) = some (n, r) := by
    rintro _ rfl
    rfl
  cases hnegative : n.negative with
  | true =>
      have htext : n.text ++ r = '-' :: body := by
        rw [text_eq, if_pos hnegative, ← hbody]
        simp only [List.append_assoc, List.cons_append, List.nil_append]
      have hsign : (('-' :: body).head? == some '-') = true := rfl
      unfold Json.number?
      simp only [htext, hsign, if_true, List.drop_one, List.tail_cons, hwhole, hfraction, hexponent,
        Option.bind_eq_bind, Option.bind_some]
      exact hsame true hnegative
  | false =>
      have htext : n.text ++ r = body := by
        rw [text_eq, if_neg (by simp [hnegative]), ← hbody]
        simp only [List.append_assoc, List.nil_append]
      have hsign : (body.head? == some '-') = false := by
        obtain ⟨c, cs, hcs⟩ := List.exists_cons_of_ne_nil h.whole.1
        have hc := h.whole.2 c (by rw [hcs]; exact List.mem_cons_self)
        rw [← hbody, hcs, List.cons_append, List.head?_cons, beq_eq_false_iff_ne]
        rintro ⟨⟩
        cases hc
      unfold Json.number?
      simp only [htext, hsign, Bool.false_eq_true, if_false, hwhole, hfraction, hexponent,
        Option.bind_eq_bind, Option.bind_some]
      exact hsame false hnegative

/-! ### Whole numbers -/

theorem wellFormed_ofInt (i : Int) : (ofInt i).WellFormed := by
  refine ⟨isDigits_toDigits _, ?_, by simp [ofInt]⟩
  intro hhead
  by_cases hi : i.natAbs = 0
  · simp only [ofInt, hi]
    rfl
  · exact absurd hhead (head?_toDigits_ne hi)

theorem integer?_ofInt (i : Int) : (ofInt i).integer? = some i := by
  have hvalue : (Nat.toDigits 10 i.natAbs).foldl (fun a c => a * 10 + digitValue c) 0 = i.natAbs :=
    digitsValue_toDigits i.natAbs
  unfold integer? ofInt
  simp only [hvalue, decide_eq_true_eq]
  split
  · rename_i hneg
    rw [if_neg (by omega)]
    congr 1
    omega
  · congr 1
    omega

theorem bounded?_ofInt {low high i : Int} (hlow : low ≤ i) (hhigh : i ≤ high) :
    (ofInt i).bounded? low high = some i := by
  unfold bounded?
  rw [integer?_ofInt]
  exact if_pos ⟨hlow, hhigh⟩

end Numeral

/-! ### Decimals of fewest digits -/

namespace Decimal

theorem lt_pow_digitCount (n : Nat) : n < 10 ^ digitCount n := by
  unfold digitCount
  split
  · rename_i hn
    rw [hn]
    decide
  · exact (Nat.length_toDigits_le_iff (by decide) Nat.length_toDigits_pos).mp (Nat.le_refl _)

theorem pow_digitCount_le {n : Nat} (hn : n ≠ 0) : 10 ^ (digitCount n - 1) ≤ n := by
  rw [digitCount, if_neg hn]
  by_cases hlength : (Nat.toDigits 10 n).length = 1
  · rw [hlength]
    exact Nat.one_le_iff_ne_zero.mpr hn
  · have hpos := Nat.length_toDigits_pos (b := 10) (n := n)
    have hiff := Nat.length_toDigits_le_iff (b := 10) (n := n) (by decide)
      (k := (Nat.toDigits 10 n).length - 1) (by omega)
    rw [← not_lt, ← hiff]
    omega

/-- The quotient is at least this power of ten. -/
theorem floorLog10_le {num den : Nat} (hnum : 0 < num) (hden : 0 < den) :
    den * 10 ^ (floorLog10 num den).toNat ≤ num * 10 ^ (-floorLog10 num den).toNat := by
  unfold floorLog10
  split
  · rename_i hle
    have hquotient : num / den ≠ 0 := (Nat.div_pos hle hden).ne'
    have hpow := pow_digitCount_le hquotient
    generalize digitCount (num / den) = t at hpow
    have hup : ((t : Int) - 1).toNat = t - 1 := by omega
    have hmul := Nat.mul_le_mul_left den hpow
    have hdiv := Nat.mul_div_le num den
    have hone : 1 ≤ 10 ^ (-((t : Int) - 1)).toNat := Nat.one_le_pow _ _ (by decide)
    have hscaled := Nat.mul_le_mul_left num hone
    rw [hup]
    omega
  · have hpow := lt_pow_digitCount ((den + num - 1) / num - 1)
    generalize digitCount ((den + num - 1) / num - 1) = t at hpow
    have hceil : den ≤ num * ((den + num - 1) / num) := by
      have hdiv := Nat.div_add_mod (den + num - 1) num
      have hmod := Nat.mod_lt (den + num - 1) hnum
      omega
    have hle : (den + num - 1) / num ≤ 10 ^ t := by omega
    have hmul := Nat.mul_le_mul_left num hle
    have hup : (-(t : Int)).toNat = 0 := by omega
    have hdown : (- -(t : Int)).toNat = t := by omega
    rw [hup, hdown, pow_zero]
    omega

theorem onGrid_coefficient {tie : DecimalTie} {r : RoundingInterval} {k : Int} {d : Decimal}
    (h : onGrid tie r k = some d) : d.coefficient ≠ 0 := by
  unfold onGrid at h
  dsimp only at h
  generalize r.value * Nat.pow 10 (-k).toNat / (r.den * Nat.pow 10 k.toNat) = c at h
  -- the lower point is taken only if it is not zero, and the upper one never is
  split at h
  · rename_i hbelow _
    have hc : c ≠ 0 := by simpa using (Bool.and_eq_true_iff.mp hbelow).1
    split at h
    · cases h
      exact hc
    · split at h
      · cases h
        exact Nat.succ_ne_zero c
      · split at h
        · cases h
          exact Nat.succ_ne_zero c
        · split at h
          · cases h
            exact hc
          · cases h
            exact Nat.succ_ne_zero c
  · rename_i hbelow _
    cases h
    simpa using (Bool.and_eq_true_iff.mp hbelow).1
  · cases h
    exact Nat.succ_ne_zero c
  · cases h

theorem trim_coefficient {d : Decimal} (h : d.coefficient ≠ 0) (fuel : Nat) :
    (trim fuel d).coefficient ≠ 0 := by
  induction fuel generalizing d with
  | zero => exact h
  | succ fuel ih =>
      unfold trim
      split
      · rename_i hmod
        refine ih ?_
        dsimp only
        omega
      · exact h

/-- A grid that is fine enough has a point below the value, and finer ones have too. -/
theorem search_coefficient {tie : DecimalTie} {r : RoundingInterval} {k : Int}
    (hden : 0 < r.den) (h : r.den * 10 ^ k.toNat ≤ r.value * 10 ^ (-k).toNat) (fuel : Nat) :
    (search tie r fuel k).coefficient ≠ 0 := by
  induction fuel generalizing k with
  | zero =>
      have hpos : 0 < r.den * 10 ^ k.toNat := Nat.mul_pos hden (Nat.pow_pos (by decide))
      exact (Nat.div_pos h hpos).ne'
  | succ fuel ih =>
      unfold search
      split
      · rename_i d hd
        exact trim_coefficient (onGrid_coefficient hd) _
      · refine ih ?_
        by_cases hk : 1 ≤ k
        · have hup : k.toNat = (k - 1).toNat + 1 := by omega
          have hdown : (-(k - 1)).toNat = (-k).toNat := by omega
          rw [hup, pow_succ] at h
          rw [hdown]
          refine Nat.le_trans (Nat.mul_le_mul_left _ ?_) h
          omega
        · have hup : (k - 1).toNat = k.toNat := by omega
          have hdown : (-(k - 1)).toNat = (-k).toNat + 1 := by omega
          rw [hup, hdown, pow_succ]
          refine Nat.le_trans h (Nat.mul_le_mul_left _ ?_)
          omega

theorem shortest_coefficient {tie : DecimalTie} {r : RoundingInterval} (hvalue : 0 < r.value)
    (hden : 0 < r.den) : (shortest tie r).coefficient ≠ 0 :=
  search_coefficient hden (floorLog10_le hvalue hden) 20

variable {d : Decimal}

theorem head?_digits (h : d.coefficient ≠ 0) : d.digits.head? ≠ some '0' := head?_toDigits_ne h

theorem wellFormed_positional (h : d.coefficient ≠ 0) (negative : Bool) :
    (d.positional negative).WellFormed := by
  have hdigits : IsDigits d.digits := isDigits_toDigits d.coefficient
  have hhead := head?_digits h
  unfold positional
  dsimp only
  split
  · refine ⟨hdigits.append fun c hc => isDigit_of_mem_replicate hc, ?_, ?_⟩
    · intro hzero
      rw [List.head?_append_of_ne_nil _ hdigits.1] at hzero
      exact absurd hzero hhead
    · rintro _ ⟨⟩
      exact isDigits_zero
  · rename_i hexponent
    have hlength : (d.digits.length : Int) + d.exponent = d.pointPosition := rfl
    split
    · rename_i hpoint
      refine ⟨hdigits.of_sublist (List.take_sublist _ _) ?_, ?_, ?_⟩
      · rw [ne_eq, List.take_eq_nil_iff, not_or]
        exact ⟨by omega, hdigits.1⟩
      · intro hzero
        rw [List.head?_take, if_neg (by omega)] at hzero
        exact absurd hzero hhead
      · rintro _ ⟨⟩
        refine hdigits.of_sublist (List.drop_sublist _ _) ?_
        rw [ne_eq, List.drop_eq_nil_iff]
        omega
    · refine ⟨isDigits_zero, fun _ => rfl, ?_⟩
      rintro _ ⟨⟩
      refine ⟨by simp [hdigits.1], fun c hc => ?_⟩
      rcases List.mem_append.mp hc with hc | hc
      · exact isDigit_of_mem_replicate hc
      · exact hdigits.2 c hc

theorem wellFormed_scientific (h : d.coefficient ≠ 0) (negative : Bool) :
    (d.scientific negative).WellFormed := by
  have hdigits : IsDigits d.digits := isDigits_toDigits d.coefficient
  have hhead := head?_digits h
  refine ⟨hdigits.of_sublist (List.take_sublist _ _) ?_, ?_, ?_⟩
  · change d.digits.take 1 ≠ []
    rw [ne_eq, List.take_eq_nil_iff, not_or]
    exact ⟨by decide, hdigits.1⟩
  · intro hzero
    have htake : (d.digits.take 1).head? = some '0' := hzero
    rw [List.head?_take, if_neg (by decide)] at htake
    exact absurd htake hhead
  · intro ds hds
    have hrest : (if d.digits.length ≤ 1 then none else some (d.digits.drop 1)) = some ds := hds
    split at hrest
    · cases hrest
    · cases hrest
      refine hdigits.of_sublist (List.drop_sublist _ _) ?_
      rw [ne_eq, List.drop_eq_nil_iff]
      omega

end Decimal

/-! ### Floats -/

namespace Binary32

theorem significand_pos {x : Binary32} (h : x.magnitude ≠ 0) : 0 < x.significand := by
  have hmagnitude := Nat.div_add_mod x.magnitude 0x800000
  unfold significand exponentField fraction
  split
  · omega
  · omega

/-- Finite or not, a float has a numeral that can be read. -/
theorem wellFormed_numeral (f : DecimalNotation) (x : Binary32) : (x.numeral f).WellFormed := by
  unfold numeral
  split
  · refine ⟨isDigits_zero, fun _ => rfl, ?_⟩
    rintro _ ⟨⟩
    exact isDigits_zero
  · rename_i hmagnitude
    have hvalue : 0 < x.interval.value :=
      Nat.mul_pos (Nat.mul_pos (by decide) (significand_pos hmagnitude)) (Nat.pow_pos (by decide))
    have hden : 0 < x.interval.den := Nat.mul_pos (by decide) (Nat.pow_pos (by decide))
    have hcoefficient : (Decimal.shortest f.tie x.interval).coefficient ≠ 0 :=
      Decimal.shortest_coefficient hvalue hden
    unfold DecimalNotation.numeral
    split
    · exact Decimal.wellFormed_positional hcoefficient _
    · exact Decimal.wellFormed_scientific hcoefficient _

end Binary32

end ScriptImage
