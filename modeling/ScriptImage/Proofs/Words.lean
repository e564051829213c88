import ScriptImage.Fault
import ScriptImage.Proofs.Outcome

/-!
Words as the numbers they stand for. Arithmetic on 32-bit words is reasoned about through
`toNat`; a count that is too large for a word stays at the last one.
-/

namespace ScriptImage.Word

theorem toNat_ofNat {n : Nat} (h : n < 0x100000000) : (UInt32.ofNat n).toNat = n :=
  UInt32.toNat_ofNat_of_lt' h

theorem toNat_saturate_eq (n : Nat) : (saturate n).toNat = min n 0xFFFFFFFF := by
  unfold saturate
  split
  · rename_i h
    rw [UInt32.toNat_ofNat_of_lt' h]
    omega
  · rename_i h
    rw [show (0xFFFFFFFF : UInt32).toNat = 0xFFFFFFFF from rfl]
    omega

theorem saturate_toNat (w : UInt32) : saturate w.toNat = w := by
  rw [saturate, if_pos w.toNat_lt, UInt32.ofNat_toNat]

theorem toNat_saturate_le (n : Nat) : (saturate n).toNat ≤ n := by
  rw [toNat_saturate_eq]
  omega

/-- Cutting off a count before more is added makes no difference. -/
theorem saturate_add (k n : Nat) : saturate ((saturate k).toNat + n) = saturate (k + n) := by
  apply UInt32.toNat_inj.mp
  rw [toNat_saturate_eq, toNat_saturate_eq, toNat_saturate_eq]
  omega

theorem toNat_sub {a b : UInt32} (h : b.toNat ≤ a.toNat) :
    (a - b).toNat = a.toNat - b.toNat :=
  UInt32.toNat_sub_of_le a b (UInt32.le_iff_toNat_le.mpr h)

/-- Words whose sum is a word can be added. -/
theorem exists_add {a b : UInt32} (h : a.toNat + b.toNat < 0x100000000) :
    ∃ c, add a b = .ok c ∧ c.toNat = a.toNat + b.toNat :=
  ⟨_, add_eq_ok_iff.mpr (toNat_ofNat h).symm, toNat_ofNat h⟩

/-- A word can be taken from one that is not smaller. -/
theorem exists_sub {a b : UInt32} (h : b.toNat ≤ a.toNat) :
    ∃ c, sub a b = .ok c ∧ a.toNat = b.toNat + c.toNat := by
  have hc : a.toNat = b.toNat + (a - b).toNat := by
    rw [toNat_sub h]
    omega
  exact ⟨_, sub_eq_ok_iff.mpr hc, hc⟩

theorem toNat_ne_zero {w : UInt32} : w.toNat ≠ 0 ↔ w ≠ 0 := by
  rw [ne_eq, ne_eq, ← UInt32.toNat_inj]
  rfl

theorem toNat_pos {w : UInt32} : 0 < w.toNat ↔ w ≠ 0 := by
  rw [Nat.pos_iff_ne_zero, toNat_ne_zero]

theorem ne_zero_of_lt {a b : UInt32} (h : a < b) : b ≠ 0 := by
  have := UInt32.lt_iff_toNat_lt.mp h
  exact toNat_pos.mp (by omega)

theorem toInt_toInt32 {w : UInt32} (h : w.toNat ≤ 0x7FFFFFFF) : w.toInt32.toInt = w.toNat := by
  change w.toBitVec.toInt = _
  rw [BitVec.toInt_eq_toNat_of_lt]
  · rfl
  · change 2 * w.toNat < 2 ^ 32
    omega

/-- A signed word keeps a value that fits, and else stays at the last one. -/
theorem toInt_saturateSigned (w : UInt32) :
    (saturateSigned w).toInt = min w.toNat 0x7FFFFFFF := by
  unfold saturateSigned
  split
  · rename_i h
    rw [toInt_toInt32 h]
    omega
  · change (0x7FFFFFFF : Int) = _
    omega

theorem toNat_toUInt32 {w : Int32} (h : 0 ≤ w.toInt) : (w.toUInt32.toNat : Int) = w.toInt := by
  have hlt := w.toInt_lt
  change (w.toBitVec.toNat : Int) = w.toBitVec.toInt
  change 0 ≤ w.toBitVec.toInt at h
  change w.toBitVec.toInt < 2 ^ 31 at hlt
  rw [BitVec.toInt_eq_toNat_cond] at h hlt ⊢
  split
  · rfl
  · rename_i hge
    rw [if_neg hge] at h
    have := w.toBitVec.isLt
    omega

/-- A word that fits a signed word comes back from it. -/
theorem toUInt32_saturateSigned {w : UInt32} (h : w.toNat < 0x80000000) :
    0 ≤ (saturateSigned w).toInt ∧ (saturateSigned w).toUInt32 = w := by
  have hsigned := toInt_saturateSigned w
  have hpos : 0 ≤ (saturateSigned w).toInt := by omega
  have hword := toNat_toUInt32 hpos
  exact ⟨hpos, UInt32.toNat_inj.mp (by omega)⟩

end ScriptImage.Word
