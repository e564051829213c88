import ScriptImage.Utf8
import ScriptImage.Proofs.Outcome

/-!
UTF-8 both ways. The bytes that a step takes for a character are the bytes the character is
written with, so strict decoding inverts encoding, and what it accepts is what encoding writes.
Zero bytes come from the zero character only.
-/

namespace ScriptImage.Utf8

/-! ### Bytes by their numbers -/

theorem isTail_iff {b : UInt8} : isTail b = true ↔ 0x80 ≤ b.toNat ∧ b.toNat ≤ 0xBF := by
  simp [isTail, UInt8.le_iff_toNat_le]

theorem isSecondOfThree_iff {a b : UInt8} :
    isSecondOfThree a b = true ↔ 0x80 ≤ b.toNat ∧ b.toNat ≤ 0xBF ∧
      (a.toNat = 0xE0 → 0xA0 ≤ b.toNat) ∧ (a.toNat = 0xED → b.toNat ≤ 0x9F) := by
  have h0 : a = 0xE0 ↔ a.toNat = 0xE0 := UInt8.toNat_inj.symm
  have h1 : a = 0xED ↔ a.toNat = 0xED := UInt8.toNat_inj.symm
  simp only [isSecondOfThree, h0, h1]
  split
  · simp only [Bool.and_eq_true, decide_eq_true_iff, UInt8.le_iff_toNat_le]
    change 0xA0 ≤ b.toNat ∧ b.toNat ≤ 0xBF ↔ _
    omega
  · split
    · simp only [Bool.and_eq_true, decide_eq_true_iff, UInt8.le_iff_toNat_le]
      change 0x80 ≤ b.toNat ∧ b.toNat ≤ 0x9F ↔ _
      omega
    · rw [isTail_iff]
      omega

theorem isSecondOfFour_iff {a b : UInt8} :
    isSecondOfFour a b = true ↔ 0x80 ≤ b.toNat ∧ b.toNat ≤ 0xBF ∧
      (a.toNat = 0xF0 → 0x90 ≤ b.toNat) ∧ (a.toNat = 0xF4 → b.toNat ≤ 0x8F) := by
  have h0 : a = 0xF0 ↔ a.toNat = 0xF0 := UInt8.toNat_inj.symm
  have h1 : a = 0xF4 ↔ a.toNat = 0xF4 := UInt8.toNat_inj.symm
  simp only [isSecondOfFour, h0, h1]
  split
  · simp only [Bool.and_eq_true, decide_eq_true_iff, UInt8.le_iff_toNat_le]
    change 0x90 ≤ b.toNat ∧ b.toNat ≤ 0xBF ↔ _
    omega
  · split
    · simp only [Bool.and_eq_true, decide_eq_true_iff, UInt8.le_iff_toNat_le]
      change 0x80 ≤ b.toNat ∧ b.toNat ≤ 0x8F ↔ _
      omega
    · rw [isTail_iff]
      omega

/-! ### The bytes of a character -/

/-- A character and its bytes, by their numbers. -/
inductive Form (x : Char) : List UInt8 → Prop
  | one {a : UInt8} : a.toNat = x.toNat → x.toNat < 0x80 → Form x [a]
  | two {a b : UInt8} : a.toNat = 0xC0 + x.toNat / 64 → b.toNat = 0x80 + x.toNat % 64 →
      0x80 ≤ x.toNat → x.toNat < 0x800 → Form x [a, b]
  | three {a b c : UInt8} : a.toNat = 0xE0 + x.toNat / 4096 →
      b.toNat = 0x80 + x.toNat / 64 % 64 → c.toNat = 0x80 + x.toNat % 64 →
      0x800 ≤ x.toNat → x.toNat < 0x10000 → Form x [a, b, c]
  | four {a b c d : UInt8} : a.toNat = 0xF0 + x.toNat / 262144 →
      b.toNat = 0x80 + x.toNat / 4096 % 64 → c.toNat = 0x80 + x.toNat / 64 % 64 →
      d.toNat = 0x80 + x.toNat % 64 → 0x10000 ≤ x.toNat → Form x [a, b, c, d]

theorem toNat_range (x : Char) :
    x.toNat < 0xD800 ∨ 0xDFFF < x.toNat ∧ x.toNat < 0x110000 := x.valid

theorem toNat_ofNat_small {n : Nat} (h : n < 256) : (UInt8.ofNat n).toNat = n :=
  UInt8.toNat_ofNat_of_lt' h

theorem form_encodeChar (x : Char) : Form x (encodeChar x) := by
  have hrange := toNat_range x
  simp only [encodeChar]
  split
  · rename_i h1
    exact .one (toNat_ofNat_small (by omega)) h1
  · split
    · rename_i h1 h2
      exact .two (toNat_ofNat_small (by omega)) (toNat_ofNat_small (by omega)) (by omega) h2
    · split
      · rename_i h1 h2 h3
        exact .three (toNat_ofNat_small (by omega)) (toNat_ofNat_small (by omega))
          (toNat_ofNat_small (by omega)) (by omega) h3
      · exact .four (toNat_ofNat_small (by omega)) (toNat_ofNat_small (by omega))
          (toNat_ofNat_small (by omega)) (toNat_ofNat_small (by omega)) (by omega)

theorem encodeChar_of_form {x : Char} {bs : List UInt8} (h : Form x bs) : encodeChar x = bs := by
  simp only [encodeChar]
  cases h with
  | one ha hlt => rw [if_pos hlt, ← ha, UInt8.ofNat_toNat]
  | two ha hb hge hlt =>
      rw [if_neg (Nat.not_lt.mpr hge), if_pos hlt, ← ha, ← hb, UInt8.ofNat_toNat,
        UInt8.ofNat_toNat]
  | three ha hb hc hge hlt =>
      rw [if_neg (by omega), if_neg (Nat.not_lt.mpr hge), if_pos hlt, ← ha, ← hb, ← hc,
        UInt8.ofNat_toNat, UInt8.ofNat_toNat, UInt8.ofNat_toNat]
  | four ha hb hc hd hge =>
      rw [if_neg (by omega), if_neg (by omega), if_neg (Nat.not_lt.mpr hge), ← ha, ← hb, ← hc,
        ← hd, UInt8.ofNat_toNat, UInt8.ofNat_toNat, UInt8.ofNat_toNat, UInt8.ofNat_toNat]

theorem ofNat_eq_of_toNat {x : Char} {n : Nat} (h : n = x.toNat) : Char.ofNat n = x :=
  h ▸ Char.ofNat_toNat x

theorem not_lt_of_le {a : UInt8} (k : UInt8) (h : k.toNat ≤ a.toNat) : ¬ a < k := by
  rw [UInt8.lt_iff_toNat_lt]
  omega

/-- A step takes the bytes of a character. -/
theorem step_of_form {x : Char} {bs : List UInt8} (h : Form x bs) :
    ∃ a r, bs = a :: r ∧ ∀ rest, step a (r ++ rest) = (some x, rest) := by
  have hrange := toNat_range x
  cases h with
  | one ha hlt =>
      refine ⟨_, _, rfl, fun rest => ?_⟩
      unfold step
      rw [if_pos (UInt8.lt_iff_toNat_lt.mpr (ha ▸ hlt)), ofNat_eq_of_toNat ha]
      rfl
  | two ha hb hge hlt =>
      rename_i a b
      have hb' : isTail b = true := isTail_iff.mpr (by omega)
      have hlead : a < 0xE0 := UInt8.lt_iff_toNat_lt.mpr (show a.toNat < 0xE0 by omega)
      have hx : Char.ofNat ((a.toNat - 0xC0) * 64 + tailBits b) = x := by
        unfold tailBits
        exact ofNat_eq_of_toNat (by omega)
      refine ⟨_, _, rfl, fun rest => ?_⟩
      unfold step
      rw [if_neg (not_lt_of_le 0x80 (show 0x80 ≤ a.toNat by omega)),
        if_neg (not_lt_of_le 0xC2 (show 0xC2 ≤ a.toNat by omega)), if_pos hlead]
      simp [hb', hx]
  | three ha hb hc hge hlt =>
      rename_i a b c
      have hb' : isSecondOfThree a b = true := isSecondOfThree_iff.mpr (by omega)
      have hc' : isTail c = true := isTail_iff.mpr (by omega)
      have hlead : a < 0xF0 := UInt8.lt_iff_toNat_lt.mpr (show a.toNat < 0xF0 by omega)
      have hx : Char.ofNat ((a.toNat - 0xE0) * 4096 + tailBits b * 64 + tailBits c) = x := by
        unfold tailBits
        exact ofNat_eq_of_toNat (by omega)
      refine ⟨_, _, rfl, fun rest => ?_⟩
      unfold step
      rw [if_neg (not_lt_of_le 0x80 (show 0x80 ≤ a.toNat by omega)),
        if_neg (not_lt_of_le 0xC2 (show 0xC2 ≤ a.toNat by omega)),
        if_neg (not_lt_of_le 0xE0 (show 0xE0 ≤ a.toNat by omega)), if_pos hlead]
      simp [hb', hc', hx]
  | four ha hb hc hd hge =>
      rename_i a b c d
      have hb' : isSecondOfFour a b = true := isSecondOfFour_iff.mpr (by omega)
      have hc' : isTail c = true := isTail_iff.mpr (by omega)
      have hd' : isTail d = true := isTail_iff.mpr (by omega)
      have hlead : a < 0xF5 := UInt8.lt_iff_toNat_lt.mpr (show a.toNat < 0xF5 by omega)
      have hx : Char.ofNat ((a.toNat - 0xF0) * 262144 + tailBits b * 4096 + tailBits c * 64
          + tailBits d) = x := by
        unfold tailBits
        exact ofNat_eq_of_toNat (by omega)
      refine ⟨_, _, rfl, fun rest => ?_⟩
      unfold step
      rw [if_neg (not_lt_of_le 0x80 (show 0x80 ≤ a.toNat by omega)),
        if_neg (not_lt_of_le 0xC2 (show 0xC2 ≤ a.toNat by omega)),
        if_neg (not_lt_of_le 0xE0 (show 0xE0 ≤ a.toNat by omega)),
        if_neg (not_lt_of_le 0xF0 (show 0xF0 ≤ a.toNat by omega)), if_pos hlead]
      simp [hb', hc', hd', hx]

theorem toNat_ofNat_valid {n : Nat} (h : n < 0xD800 ∨ 0xDFFF < n ∧ n < 0x110000) :
    (Char.ofNat n).toNat = n := by
  rw [Char.toNat_ofNat, if_pos h]

section Step

variable {a b c d : UInt8}

theorem Form.of_tail (ha : 0xC2 ≤ a.toNat) (ha' : a.toNat < 0xE0) (hb : isTail b = true) :
    Form (Char.ofNat ((a.toNat - 0xC0) * 64 + tailBits b)) [a, b] := by
  rw [isTail_iff] at hb
  unfold tailBits
  have hx := toNat_ofNat_valid (n := (a.toNat - 0xC0) * 64 + (b.toNat - 0x80)) (by omega)
  generalize Char.ofNat _ = x at hx ⊢
  exact .two (by omega) (by omega) (by omega) (by omega)

theorem Form.of_secondOfThree (ha : 0xE0 ≤ a.toNat) (ha' : a.toNat < 0xF0)
    (hb : isSecondOfThree a b = true) (hc : isTail c = true) :
    Form (Char.ofNat ((a.toNat - 0xE0) * 4096 + tailBits b * 64 + tailBits c)) [a, b, c] := by
  rw [isSecondOfThree_iff] at hb
  rw [isTail_iff] at hc
  unfold tailBits
  have hx := toNat_ofNat_valid
    (n := (a.toNat - 0xE0) * 4096 + (b.toNat - 0x80) * 64 + (c.toNat - 0x80)) (by omega)
  generalize Char.ofNat _ = x at hx ⊢
  exact .three (by omega) (by omega) (by omega) (by omega) (by omega)

theorem Form.of_secondOfFour (ha : 0xF0 ≤ a.toNat) (ha' : a.toNat < 0xF5)
    (hb : isSecondOfFour a b = true) (hc : isTail c = true) (hd : isTail d = true) :
    Form (Char.ofNat ((a.toNat - 0xF0) * 262144 + tailBits b * 4096 + tailBits c * 64
      + tailBits d)) [a, b, c, d] := by
  rw [isSecondOfFour_iff] at hb
  rw [isTail_iff] at hc hd
  unfold tailBits
  have hx := toNat_ofNat_valid (n := (a.toNat - 0xF0) * 262144 + (b.toNat - 0x80) * 4096
    + (c.toNat - 0x80) * 64 + (d.toNat - 0x80)) (by omega)
  generalize Char.ofNat _ = x at hx ⊢
  exact .four (by omega) (by omega) (by omega) (by omega) (by omega)

theorem form_of_step_two {r rest : List UInt8} {x : Char} (ha : 0xC2 ≤ a.toNat)
    (ha' : a < 0xE0) (h : step a r = (some x, rest)) : ∃ bs, a :: r = bs ++ rest ∧ Form x bs := by
  unfold step at h
  rw [if_neg (not_lt_of_le 0x80 (show 0x80 ≤ a.toNat by omega)), if_neg (not_lt_of_le 0xC2 ha),
    if_pos ha'] at h
  split at h
  · split at h
    · rename_i hb
      simp only [Prod.mk.injEq, Option.some.injEq] at h
      obtain ⟨rfl, rfl⟩ := h
      exact ⟨[a, _], rfl, .of_tail ha (UInt8.lt_iff_toNat_lt.mp ha') hb⟩
    · cases h
  · cases h

theorem form_of_step_three {r rest : List UInt8} {x : Char} (ha : 0xE0 ≤ a.toNat)
    (ha' : a < 0xF0) (h : step a r = (some x, rest)) : ∃ bs, a :: r = bs ++ rest ∧ Form x bs := by
  unfold step at h
  rw [if_neg (not_lt_of_le 0x80 (show 0x80 ≤ a.toNat by omega)),
    if_neg (not_lt_of_le 0xC2 (show 0xC2 ≤ a.toNat by omega)), if_neg (not_lt_of_le 0xE0 ha),
    if_pos ha'] at h
  split at h
  · split at h
    · rename_i hb
      split at h
      · split at h
        · rename_i hc
          simp only [Prod.mk.injEq, Option.some.injEq] at h
          obtain ⟨rfl, rfl⟩ := h
          exact ⟨[a, _, _], rfl, .of_secondOfThree ha (UInt8.lt_iff_toNat_lt.mp ha') hb hc⟩
        · cases h
      · cases h
    · cases h
  · cases h

theorem form_of_step_four {r rest : List UInt8} {x : Char} (ha : 0xF0 ≤ a.toNat)
    (ha' : a < 0xF5) (h : step a r = (some x, rest)) : ∃ bs, a :: r = bs ++ rest ∧ Form x bs := by
  unfold step at h
  rw [if_neg (not_lt_of_le 0x80 (show 0x80 ≤ a.toNat by omega)),
    if_neg (not_lt_of_le 0xC2 (show 0xC2 ≤ a.toNat by omega)),
    if_neg (not_lt_of_le 0xE0 (show 0xE0 ≤ a.toNat by omega)), if_neg (not_lt_of_le 0xF0 ha),
    if_pos ha'] at h
  split at h
  · split at h
    · rename_i hb
      split at h
      · split at h
        · rename_i hc
          split at h
          · split at h
            · rename_i hd
              simp only [Prod.mk.injEq, Option.some.injEq] at h
              obtain ⟨rfl, rfl⟩ := h
              exact ⟨[a, _, _, _], rfl,
                .of_secondOfFour ha (UInt8.lt_iff_toNat_lt.mp ha') hb hc hd⟩
            · cases h
          · cases h
        · cases h
      · cases h
    · cases h
  · cases h

/-- A step that gives a character took its bytes. -/
theorem form_of_step {r rest : List UInt8} {x : Char} (h : step a r = (some x, rest)) :
    ∃ bs, a :: r = bs ++ rest ∧ Form x bs := by
  -- the first byte tells how many bytes there are
  by_cases h1 : a < 0x80
  · unfold step at h
    rw [if_pos h1] at h
    simp only [Prod.mk.injEq, Option.some.injEq] at h
    obtain ⟨rfl, rfl⟩ := h
    have ha : a.toNat < 0x80 := UInt8.lt_iff_toNat_lt.mp h1
    have hx : (Char.ofNat a.toNat).toNat = a.toNat := toNat_ofNat_valid (by omega)
    exact ⟨[a], rfl, .one hx.symm (by omega)⟩
  by_cases hc2 : a < 0xC2
  · unfold step at h
    rw [if_neg h1, if_pos hc2] at h
    cases h
  rw [UInt8.lt_iff_toNat_lt, Nat.not_lt] at hc2
  by_cases h2 : a < 0xE0
  · exact form_of_step_two hc2 h2 h
  rw [UInt8.lt_iff_toNat_lt, Nat.not_lt] at h2
  by_cases h3 : a < 0xF0
  · exact form_of_step_three h2 h3 h
  rw [UInt8.lt_iff_toNat_lt, Nat.not_lt] at h3
  by_cases h4 : a < 0xF5
  · exact form_of_step_four h3 h4 h
  unfold step at h
  rw [if_neg h1, if_neg (not_lt_of_le 0xC2 hc2), if_neg (not_lt_of_le 0xE0 h2),
    if_neg (not_lt_of_le 0xF0 h3), if_neg h4] at h
  cases h

end Step

/-! ### Texts -/

theorem pieces_nil : pieces [] = [] := by
  rw [pieces]

theorem pieces_cons (b : UInt8) (r : List UInt8) :
    pieces (b :: r) = (step b r).1 :: pieces (step b r).2 := by
  rw [pieces]

theorem pieces_encodeChar (x : Char) (rest : List UInt8) :
    pieces (encodeChar x ++ rest) = some x :: pieces rest := by
  obtain ⟨a, r, hbytes, hstep⟩ := step_of_form (form_encodeChar x)
  rw [hbytes, List.cons_append, pieces_cons, hstep]

theorem pieces_flatMap (xs : List Char) : pieces (xs.flatMap encodeChar) = xs.map some := by
  induction xs with
  | nil => exact pieces_nil
  | cons x xs ih => rw [List.flatMap_cons, pieces_encodeChar, ih, List.map_cons]

theorem mapM_id_some {α : Type} (xs : List α) : (xs.map some).mapM id = some xs := by
  induction xs with
  | nil => rfl
  | cons x xs ih => simp [ih]

@[simp] theorem decode?_encode (s : String) : decode? (encode s) = some s := by
  rw [decode?, encode, pieces_flatMap, mapM_id_some]
  simp

/-- Bytes whose pieces are all characters are what writing those characters gives. -/
theorem flatMap_of_pieces {bs : List UInt8} {xs : List Char}
    (h : (pieces bs).mapM id = some xs) : xs.flatMap encodeChar = bs := by
  induction bs using pieces.induct generalizing xs with
  | case1 =>
      rw [pieces_nil] at h
      cases h
      rfl
  | case2 b r ih =>
      rw [pieces_cons, List.mapM_cons] at h
      obtain ⟨x, hx, h⟩ := Option.bind_eq_some_iff.mp h
      obtain ⟨ys, hys, h⟩ := Option.bind_eq_some_iff.mp h
      cases h
      obtain ⟨bs, hbs, hform⟩ := form_of_step (a := b) (r := r) (x := x) (Prod.ext hx rfl)
      rw [List.flatMap_cons, ih hys, encodeChar_of_form hform, hbs]

theorem encode_of_decode? {bs : List UInt8} {s : String} (h : decode? bs = some s) :
    encode s = bs := by
  obtain ⟨xs, hxs, rfl⟩ := Option.map_eq_some_iff.mp h
  rw [encode, String.toList_ofList, flatMap_of_pieces hxs]

/-! ### Lossy decoding of encoded texts -/

theorem encode_append (s t : String) : encode (s ++ t) = encode s ++ encode t := by
  rw [encode, String.toList_append, List.flatMap_append]
  rfl

theorem pieces_flatMap_append (xs : List Char) (bs : List UInt8) :
    pieces (xs.flatMap encodeChar ++ bs) = xs.map some ++ pieces bs := by
  induction xs with
  | nil => rfl
  | cons x xs ih =>
      rw [List.flatMap_cons, List.append_assoc, pieces_encodeChar, ih, List.map_cons,
        List.cons_append]

theorem decodeLossy_encode_append (s : String) (bs : List UInt8) :
    decodeLossy (encode s ++ bs) = s ++ decodeLossy bs := by
  rw [← String.toList_inj, String.toList_append, decodeLossy, decodeLossy, String.toList_ofList,
    String.toList_ofList, encode, pieces_flatMap_append, List.map_append, List.map_map]
  refine congrArg₂ _ ?_ rfl
  exact List.map_id _

theorem decodeLossy_nil : decodeLossy [] = "" := by
  rw [decodeLossy, pieces_nil]
  rfl

@[simp] theorem decodeLossy_encode (s : String) : decodeLossy (encode s) = s := by
  rw [← List.append_nil (encode s), decodeLossy_encode_append, decodeLossy_nil, String.append_empty]

/-! ### Zero bytes -/

theorem zero_mem_encodeChar {x : Char} (h : (0 : UInt8) ∈ encodeChar x) : x = '\x00' := by
  have hzero : (0 : UInt8).toNat = 0 := rfl
  have hform := form_encodeChar x
  generalize encodeChar x = bs at h hform
  cases hform with
  | one ha _ =>
      rw [List.mem_singleton] at h
      subst h
      exact Char.toNat_inj.mp ha.symm
  | two ha hb _ _ =>
      simp only [List.mem_cons, List.not_mem_nil, or_false] at h
      rcases h with rfl | rfl
      · omega
      · omega
  | three ha hb hc _ _ =>
      simp only [List.mem_cons, List.not_mem_nil, or_false] at h
      rcases h with rfl | rfl | rfl
      · omega
      · omega
      · omega
  | four ha hb hc hd _ =>
      simp only [List.mem_cons, List.not_mem_nil, or_false] at h
      rcases h with rfl | rfl | rfl | rfl
      · omega
      · omega
      · omega
      · omega

theorem zero_mem_encode {s : String} (h : (0 : UInt8) ∈ encode s) : '\x00' ∈ s.toList := by
  obtain ⟨x, hx, h⟩ := List.mem_flatMap.mp h
  exact zero_mem_encodeChar h ▸ hx

theorem zero_mem_encode_iff {s : String} : (0 : UInt8) ∈ encode s ↔ '\x00' ∈ s.toList :=
  ⟨zero_mem_encode, fun h => List.mem_flatMap.mpr ⟨_, h, by decide⟩⟩

/-- The part of a text before its first zero character. -/
def upToZero (s : String) : String := String.ofList (s.toList.takeWhile (· != '\x00'))

/-- A text is cut at the same place before it is encoded and after. -/
theorem takeWhile_encode (s : String) :
    (encode s).takeWhile (· != 0) = encode (upToZero s) := by
  rw [encode, encode, upToZero, String.toList_ofList]
  induction s.toList with
  | nil => rfl
  | cons c cs ih =>
      rw [List.flatMap_cons]
      by_cases hc : c = '\x00'
      · rw [hc, List.takeWhile_cons_of_neg (by decide)]
        rfl
      · have hbytes : ∀ b ∈ encodeChar c, (b != 0) = true := by
          intro b hb
          refine bne_iff_ne.mpr ?_
          rintro rfl
          exact hc (zero_mem_encodeChar hb)
        have hkeep : (c :: cs).takeWhile (· != '\x00') = c :: cs.takeWhile (· != '\x00') :=
          List.takeWhile_cons_of_pos (bne_iff_ne.mpr hc)
        rw [List.takeWhile_append_of_pos hbytes, ih, hkeep, List.flatMap_cons]

theorem step_subset (a : UInt8) (r : List UInt8) : (step a r).2 ⊆ r := by
  unfold step
  repeat' split
  all_goals simp
  all_goals intro x hx; simp_all

theorem zero_mem_of_pieces {bs : List UInt8} (h : some '\x00' ∈ pieces bs) : (0 : UInt8) ∈ bs := by
  induction bs using pieces.induct with
  | case1 =>
      rw [pieces_nil] at h
      cases h
  | case2 b r ih =>
      rw [pieces_cons, List.mem_cons] at h
      rcases h with h | h
      · obtain ⟨bs, hbs, hform⟩ := form_of_step (a := b) (r := r) (Prod.ext h.symm rfl)
        rw [hbs, ← encodeChar_of_form hform]
        exact List.mem_append_left _ (by decide)
      · exact List.mem_cons_of_mem _ (step_subset b r (ih h))

/-- Lossy decoding makes no zero character of bytes that hold no zero. -/
theorem zero_mem_of_decodeLossy {bs : List UInt8} (h : '\x00' ∈ (decodeLossy bs).toList) :
    (0 : UInt8) ∈ bs := by
  rw [decodeLossy, String.toList_ofList] at h
  obtain ⟨p, hp, hchar⟩ := List.mem_map.mp h
  cases p with
  | none => exact absurd hchar (by decide)
  | some x =>
      rw [Option.getD_some] at hchar
      exact zero_mem_of_pieces (hchar ▸ hp)

end ScriptImage.Utf8
