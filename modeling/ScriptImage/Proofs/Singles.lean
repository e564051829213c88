import ScriptImage.Instruction
import ScriptImage.Proofs.Words

/-!
Whole numbers as single-precision floats. A word is rounded to 24 significant bits, and reading
the float back as a signed word gives the rounded number, or the last signed word when it is
larger. So a float carries exactly the words that rounding leaves alone.
-/

namespace ScriptImage

theorem roundHalfEven_one (n : Nat) : roundHalfEven n 1 = n := by
  simpa using roundHalfEven_mul n Nat.one_pos

/-- Rounding a quotient stays inside bounds that are whole numbers. -/
theorem roundHalfEven_mem {n d a b : Nat} (hd : 0 < d) (ha : a * d ≤ n) (hb : n < b * d) :
    a ≤ roundHalfEven n d ∧ roundHalfEven n d ≤ b := by
  have hq : a ≤ n / d := (Nat.le_div_iff_mul_le hd).mpr ha
  have hq' : n / d < b := (Nat.div_lt_iff_lt_mul hd).mpr hb
  simp only [roundHalfEven]
  split
  · omega
  · omega

/-- The unit to which a whole number is rounded: all below 2 ^ 24 are kept. -/
def singleUnit (n : Nat) : Nat := 2 ^ (n.log2 - 23)

theorem singleUnit_pos (n : Nat) : 0 < singleUnit n := Nat.two_pow_pos _

/-- The whole number that the nearest float stands for. -/
def nearestSingle (n : Nat) : Nat := roundHalfEven n (singleUnit n) * singleUnit n

theorem nearestSingle_eq_iff {n : Nat} : nearestSingle n = n ↔ singleUnit n ∣ n := by
  unfold nearestSingle
  constructor
  · intro h
    exact ⟨_, (h.symm.trans (Nat.mul_comm _ _))⟩
  · rintro ⟨q, hq⟩
    have h : roundHalfEven n (singleUnit n) = q := by
      have := roundHalfEven_mul q (singleUnit_pos n)
      rwa [Nat.mul_comm, ← hq] at this
    rw [h, Nat.mul_comm, ← hq]

theorem floorLog2_one {n : Nat} (h : n ≠ 0) : floorLog2 n 1 = n.log2 := by
  have hlog : Nat.log2 1 = 0 := by decide
  have hle := Nat.log2_self_le h
  simp only [floorLog2, hlog, Nat.cast_zero, sub_zero, Int.toNat_natCast]
  rw [if_pos]
  rw [show (-(n.log2 : Int)).toNat = 0 by omega]
  simpa using hle

namespace Binary32

/-- A float made of an exponent step and a significand stands for their product. -/
theorem fields_of_bits {x : Binary32} {q m : Nat} (hx : x.bits.toNat = q * 0x800000 + m)
    (hq : q ≤ 200) (hlow : 0x800000 ≤ m) (hhigh : m < 0x1000000) :
    x.negative = false ∧ x.exponentField = q + 1 ∧ x.significand = m ∧
      x.exponent = (q : Int) - 149 := by
  have hmag : x.magnitude = q * 0x800000 + m := by
    rw [magnitude]
    omega
  have hfield : x.exponentField = q + 1 := by
    rw [exponentField]
    omega
  have hfraction : x.fraction = m - 0x800000 := by
    rw [fraction]
    omega
  refine ⟨?_, hfield, ?_, ?_⟩
  · simp only [negative, decide_eq_false_iff_not]
    omega
  · rw [significand, hfield, hfraction, if_neg (by omega)]
    omega
  · rw [exponent, hfield]
    omega

/-- The significand of a positive whole number, which rounding up can bring to a power of two. -/
theorem significand_bounds {n : Nat} (h0 : n ≠ 0) :
    0x800000 ≤ roundHalfEven (n * 2 ^ (23 - n.log2)) (singleUnit n) ∧
      roundHalfEven (n * 2 ^ (23 - n.log2)) (singleUnit n) ≤ 0x1000000 := by
  have hlow := Nat.log2_self_le h0
  have hhigh := Nat.lt_log2_self (n := n)
  have h23 : (0x800000 : Nat) = 2 ^ 23 := rfl
  have h24 : (0x1000000 : Nat) = 2 ^ 24 := rfl
  refine roundHalfEven_mem (singleUnit_pos n) ?_ ?_
  · rw [h23, singleUnit, ← Nat.pow_add]
    calc 2 ^ (23 + (n.log2 - 23)) = 2 ^ n.log2 * 2 ^ (23 - n.log2) := by
          rw [← Nat.pow_add]
          congr 1
          omega
      _ ≤ n * 2 ^ (23 - n.log2) := Nat.mul_le_mul_right _ hlow
  · rw [h24, singleUnit, ← Nat.pow_add]
    calc n * 2 ^ (23 - n.log2) < 2 ^ (n.log2 + 1) * 2 ^ (23 - n.log2) :=
          Nat.mul_lt_mul_of_pos_right hhigh (Nat.two_pow_pos _)
      _ = 2 ^ (24 + (n.log2 - 23)) := by
          rw [← Nat.pow_add]
          congr 1
          omega

/-- The bits of a positive whole number. -/
theorem bits_ofInt {n : Nat} (h0 : n ≠ 0) (hn : n < 0x100000000) :
    (ofInt n).bits.toNat =
      (n.log2 + 126) * 0x800000 + roundHalfEven (n * 2 ^ (23 - n.log2)) (singleUnit n) := by
  have hlog : n.log2 < 32 := (Nat.log2_lt h0).mpr hn
  obtain ⟨-, hle⟩ := significand_bounds h0
  have hround : BinaryFormat.single.round n 1 =
      ⟨roundHalfEven (n * 2 ^ (23 - n.log2)) (singleUnit n), (n.log2 : Int) - 23⟩ := by
    unfold BinaryFormat.round BinaryFormat.single
    rw [if_neg (by exact_mod_cast h0)]
    simp only [Int.natAbs_natCast, floorLog2_one h0, Nat.cast_ofNat]
    have he : max (-149 : Int) ((n.log2 : Int) - (24 - 1)) = (n.log2 : Int) - 23 := by omega
    rw [he, Int.sign_eq_one_of_pos (by omega), one_mul, Nat.one_mul,
      show (-((n.log2 : Int) - 23)).toNat = 23 - n.log2 by omega,
      show ((n.log2 : Int) - 23).toNat = n.log2 - 23 by omega]
    rfl
  rw [ofInt, Int.natAbs_natCast, ofQuotient, hround]
  simp only [withSign, Int.toNat_natCast]
  rw [if_neg (by simp), show ((n.log2 : Int) - 23 + 149).toNat = n.log2 + 126 by omega,
    Nat.min_eq_left (by omega), Word.toNat_ofNat (by omega)]

/-- A float whose fields make up a whole number stands for it. -/
theorem whole_of_bits {x : Binary32} {q m v : Nat} (hx : x.bits.toNat = q * 0x800000 + m)
    (hq : q ≤ 200) (hlow : 0x800000 ≤ m) (hhigh : m < 0x1000000)
    (hv : m * 2 ^ (q - 149) = v * 2 ^ (149 - q)) :
    x.isFinite = true ∧ x.isIntegral = true ∧ x.truncate = v := by
  obtain ⟨hnegative, hfield, hsignificand, hexponent⟩ := fields_of_bits hx hq hlow hhigh
  have hfinite : x.isFinite = true := by
    rw [isFinite, hfield, decide_eq_true_iff]
    omega
  have hscaled : x.significand * Nat.pow 2 x.exponent.toNat =
      v * Nat.pow 2 (-x.exponent).toNat := by
    rw [hsignificand, hexponent, show ((q : Int) - 149).toNat = q - 149 by omega,
      show (-((q : Int) - 149)).toNat = 149 - q by omega]
    exact hv
  have hpos : 0 < Nat.pow 2 (-x.exponent).toNat := Nat.two_pow_pos _
  refine ⟨hfinite, ?_, ?_⟩
  · rw [isIntegral, hfinite, hscaled, Nat.mul_mod_left]
    rfl
  · rw [truncate, hscaled, Nat.mul_div_cancel _ hpos, hnegative]
    rfl

theorem significand_mul (n : Nat) :
    roundHalfEven (n * 2 ^ (23 - n.log2)) (singleUnit n) * 2 ^ (n.log2 - 23) =
      nearestSingle n * 2 ^ (23 - n.log2) := by
  unfold nearestSingle singleUnit
  rcases Nat.le_total n.log2 23 with hle | hle
  · rw [Nat.sub_eq_zero_of_le hle, Nat.pow_zero, roundHalfEven_one, roundHalfEven_one,
      Nat.mul_one, Nat.mul_one]
  · rw [Nat.sub_eq_zero_of_le hle, Nat.pow_zero, Nat.mul_one, Nat.mul_one]

/-- The float of a word is finite and whole, and stands for the nearest number it can keep. -/
theorem ofInt_toNat (w : UInt32) :
    (ofInt w.toNat).isFinite = true ∧ (ofInt w.toNat).isIntegral = true ∧
      (ofInt w.toNat).truncate = nearestSingle w.toNat := by
  have hw := w.toNat_lt
  generalize w.toNat = n at hw
  by_cases h0 : n = 0
  · subst h0
    decide
  · have hlog : n.log2 < 32 := (Nat.log2_lt h0).mpr hw
    have hbits := bits_ofInt h0 hw
    have hmul := significand_mul n
    obtain ⟨hlow, hhigh⟩ := significand_bounds h0
    rcases Nat.lt_or_ge (roundHalfEven (n * 2 ^ (23 - n.log2)) (singleUnit n)) 0x1000000
      with hlt | hge
    · refine whole_of_bits hbits (by omega) hlow hlt ?_
      rw [show n.log2 + 126 - 149 = n.log2 - 23 by omega,
        show 149 - (n.log2 + 126) = 23 - n.log2 by omega]
      exact hmul
    · -- rounding up has reached the next power of two, so the exponent is one greater
      have htop := Nat.le_antisymm hhigh hge
      rw [htop] at hbits hmul
      have hlarge : 23 < n.log2 := by
        by_contra hsmall
        have hself := Nat.lt_log2_self (n := n)
        have hunit : singleUnit n = 1 := by
          rw [singleUnit, Nat.sub_eq_zero_of_le (by omega), Nat.pow_zero]
        rw [hunit, roundHalfEven_one] at htop
        have hbound : n * 2 ^ (23 - n.log2) < 2 ^ (n.log2 + 1) * 2 ^ (23 - n.log2) :=
          Nat.mul_lt_mul_of_pos_right hself (Nat.two_pow_pos _)
        rw [htop, ← Nat.pow_add, show n.log2 + 1 + (23 - n.log2) = 24 by omega] at hbound
        exact Nat.lt_irrefl (2 ^ 24) hbound
      have hnext : (ofInt n).bits.toNat = (n.log2 + 127) * 0x800000 + 0x800000 := by
        rw [hbits]
        ring
      refine whole_of_bits hnext (by omega) (Nat.le_refl _) (by omega) ?_
      rw [Nat.sub_eq_zero_of_le (by omega : 23 ≤ n.log2), Nat.pow_zero, Nat.mul_one] at hmul
      rw [← hmul, show 149 - (n.log2 + 127) = 0 by omega,
        show n.log2 + 127 - 149 = (n.log2 - 23) + 1 by omega, Nat.pow_succ, Nat.pow_zero]
      omega

/-- A word read back from its float. -/
theorem toInt32_ofInt_toNat (w : UInt32) :
    (ofInt w.toNat).toInt32.toInt = min (nearestSingle w.toNat) 0x7FFFFFFF := by
  obtain ⟨hfinite, -, htruncate⟩ := ofInt_toNat w
  have hnan : (ofInt w.toNat).isNaN = false := by
    rw [isFinite, decide_eq_true_iff] at hfinite
    rw [isNaN, Bool.and_eq_false_iff]
    exact Or.inl (decide_eq_false (by omega))
  rw [toInt32, hnan, hfinite, htruncate]
  simp only [Bool.false_eq_true, if_false, if_true]
  rw [Int32.toInt_ofInt_of_le (by omega) (by omega)]
  omega

end Binary32

/-- The id that a float pushed for an id carries: the id rounded to a float and kept to a
signed word. -/
def carriedId (id : UInt32) : UInt32 :=
  UInt32.ofNat (min (nearestSingle id.toNat) 0x7FFFFFFF)

theorem carriedId_toNat (id : UInt32) :
    (carriedId id).toNat = min (nearestSingle id.toNat) 0x7FFFFFFF :=
  Word.toNat_ofNat (by omega)

theorem SymbolRef.decode_ofInt (id : UInt32) :
    SymbolRef.decode (Binary32.ofInt id.toNat).toInt32 = .internal (carriedId id) := by
  rw [decode, Binary32.toInt32_ofInt_toNat, if_pos (by omega)]
  rfl

theorem Instruction.floatVariable?_of_operand {i : Instruction} {id : UInt32}
    (hop : i.opcode = .push) (hoperand : i.operand = .float (.ofInt id.toNat)) :
    i.floatVariable? = some (.internal (carriedId id)) := by
  obtain ⟨-, hintegral, -⟩ := Binary32.ofInt_toNat id
  rw [floatVariable?, hop, hoperand]
  simp only [hintegral, if_true, SymbolRef.decode_ofInt]

/-- An id is carried unchanged when rounding leaves it alone; the last signed word is because
larger values stay at it. -/
theorem carriedId_eq_iff {id : UInt32} :
    carriedId id = id ↔
      id = 0x7FFFFFFF ∨ id < 0x80000000 ∧ singleUnit id.toNat ∣ id.toNat := by
  rw [← nearestSingle_eq_iff, ← UInt32.toNat_inj, ← UInt32.toNat_inj, UInt32.lt_iff_toNat_lt,
    carriedId_toNat]
  change _ ↔ id.toNat = 0x7FFFFFFF ∨ id.toNat < 0x80000000 ∧ _
  constructor
  · intro h
    by_cases hid : id.toNat = 0x7FFFFFFF
    · exact Or.inl hid
    · exact Or.inr (by omega)
  · rintro (h | ⟨hlt, h⟩)
    · rw [h]
      decide
    · omega

/-- Up to 2 ^ 24 every id is carried unchanged. -/
theorem carriedId_of_le {id : UInt32} (h : id.toNat ≤ 0x1000000) : carriedId id = id := by
  refine carriedId_eq_iff.mpr (Or.inr ⟨UInt32.lt_iff_toNat_lt.mpr (Nat.lt_of_le_of_lt h ?_), ?_⟩)
  · decide
  · rcases Nat.lt_or_eq_of_le h with hlt | heq
    · by_cases h0 : id.toNat = 0
      · rw [h0]
        exact Nat.dvd_zero _
      · have hlog : id.toNat.log2 < 24 := (Nat.log2_lt h0).mpr hlt
        rw [singleUnit, Nat.sub_eq_zero_of_le (by omega), Nat.pow_zero]
        exact Nat.one_dvd _
    · rw [heq]
      decide

/-- A float push with an id in place of the one that it carried. -/
def Instruction.carrying (ins : Instruction) (id : UInt32) : Instruction :=
  { ins with operand := .float (.ofInt id.toNat) }

/-- Up to 2 ^ 24 the id is read back from the float. -/
theorem Instruction.floatVariable?_carrying {ins : Instruction} {id : UInt32}
    (hop : ins.opcode = .push) (hid : id.toNat ≤ 0x1000000) :
    (ins.carrying id).floatVariable? = some (.internal id) := by
  have hfloat := floatVariable?_of_operand (i := ins.carrying id) hop rfl
  rwa [carriedId_of_le hid] at hfloat

end ScriptImage
