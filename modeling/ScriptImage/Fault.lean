/-!
A fault is what stops a computation whose tables contradict each other: an index that points
outside its table, or a sum of words that leaves the 32-bit range. Every place where this could
happen goes through the functions below, so a result that is not a fault has passed them all.
-/

namespace ScriptImage

inductive Fault where
  | outOfRange
  | overflow
  deriving DecidableEq, Repr

namespace Word

/-- The sum of two words, a fault when it does not fit a word. -/
def add (a b : UInt32) : Except Fault UInt32 :=
  if a.toNat + b.toNat < 0x100000000 then .ok (a + b) else .error .overflow

/-- The difference of two words, a fault when it is negative. -/
def sub (a b : UInt32) : Except Fault UInt32 :=
  if b ≤ a then .ok (a - b) else .error .overflow

/-- A count as a word; counts past the last word stay at it. -/
def saturate (n : Nat) : UInt32 :=
  if n < 0x100000000 then UInt32.ofNat n else 0xFFFFFFFF

/-- A word as a signed word; words past the last signed one stay at it. -/
def saturateSigned (w : UInt32) : Int32 :=
  if w.toNat ≤ 0x7FFFFFFF then w.toInt32 else 0x7FFFFFFF

theorem add_eq_ok_iff {a b c : UInt32} :
    add a b = .ok c ↔ a.toNat + b.toNat = c.toNat := by
  unfold add
  split
  · rename_i h
    constructor
    · intro e
      cases e
      rw [UInt32.toNat_add, Nat.mod_eq_of_lt h]
    · intro e
      congr 1
      apply UInt32.toNat_inj.mp
      rw [UInt32.toNat_add, Nat.mod_eq_of_lt h, e]
  · rename_i h
    have := c.toNat_lt
    constructor
    · intro e
      cases e
    · intro e
      omega

theorem sub_eq_ok_iff {a b c : UInt32} :
    sub a b = .ok c ↔ a.toNat = b.toNat + c.toNat := by
  unfold sub
  split
  · rename_i h
    constructor
    · intro e
      cases e
      rw [UInt32.toNat_sub_of_le _ _ h]
      have := UInt32.le_iff_toNat_le.mp h
      omega
    · intro e
      congr 1
      apply UInt32.toNat_inj.mp
      rw [UInt32.toNat_sub_of_le _ _ h]
      omega
  · rename_i h
    have : ¬ b.toNat ≤ a.toNat := fun l => h (UInt32.le_iff_toNat_le.mpr l)
    constructor
    · intro e
      cases e
    · intro e
      omega

theorem toNat_saturate {n : Nat} (h : n < 0x100000000) : (saturate n).toNat = n := by
  rw [saturate, if_pos h, UInt32.toNat_ofNat_of_lt' h]

end Word

end ScriptImage
