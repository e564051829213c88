import ScriptImage.Proofs.Codec.Consuming

/-!
Where decoders stop. What is left behind the cursor decides whether a decoder gives a value or
fails; the lemmas below say when it does which, and where the cursor is then. A decoder that fails
after its first step keeps what it has read so far. Whatever the outcome, the cursor never moves
back and never past the last byte (`Advances`), so reading can go on behind a failure.
-/

namespace ScriptImage

namespace Cursor

/-- The cursor `n` bytes further on. -/
def skip (n : Nat) (c : Cursor) : Cursor := ⟨c.offset + n, c.rest.drop n⟩

@[simp] theorem skip_offset (n : Nat) (c : Cursor) : (c.skip n).offset = c.offset + n := rfl

@[simp] theorem skip_rest (n : Nat) (c : Cursor) : (c.skip n).rest = c.rest.drop n := rfl

@[simp] theorem skip_remaining (n : Nat) (c : Cursor) :
    (c.skip n).remaining = c.remaining - n :=
  List.length_drop

@[simp] theorem skip_zero (c : Cursor) : c.skip 0 = c := rfl

@[simp] theorem skip_skip (c : Cursor) (m n : Nat) : (c.skip m).skip n = c.skip (m + n) := by
  simp [skip, Nat.add_assoc]

/-- The number in the next four bytes. -/
def announced (c : Cursor) : Nat := (Bytes.toWord (c.rest.take 4)).toNat

end Cursor

namespace Decoder

variable {α β : Type} {c c' : Cursor} {e e' : FormatError}

/-! ### Outcomes of composed decoders -/

theorem pure_eq_ok_iff {x y : α} : (pure x : Decoder α) c = .ok y c' ↔ x = y ∧ c = c' := by
  change EStateM.Result.ok x c = .ok y c' ↔ _
  rw [EStateM.Result.ok.injEq]

theorem pure_ne_error {x : α} : (pure x : Decoder α) c ≠ .error e c' := nofun

theorem fail_eq_error_iff : (fail e : Decoder α) c = .error e' c' ↔ e = e' ∧ c = c' := by
  change EStateM.Result.error e c = .error e' c' ↔ _
  rw [EStateM.Result.error.injEq]

theorem bind_eq_error_iff {d : Decoder α} {f : α → Decoder β} :
    (d >>= f) c = .error e c' ↔
      d c = .error e c' ∨ ∃ x c₁, d c = .ok x c₁ ∧ f x c₁ = .error e c' := by
  rw [bind_apply]
  cases d c <;> simp

theorem bind_pure_eq_ok_iff {d : Decoder α} {f : α → β} {y : β} :
    (d >>= fun x => pure (f x)) c = .ok y c' ↔ ∃ x, d c = .ok x c' ∧ f x = y := by
  rw [bind_eq_ok]
  simp [pure_eq_ok_iff]

theorem bind_pure_eq_error_iff {d : Decoder α} {f : α → β} :
    (d >>= fun x => pure (f x)) c = .error e c' ↔ d c = .error e c' := by
  rw [bind_eq_error_iff]
  simp [pure_ne_error]

theorem map_eq_ok_iff {d : Decoder α} {f : α → β} {y : β} :
    (f <$> d) c = .ok y c' ↔ ∃ x, d c = .ok x c' ∧ f x = y := by
  rw [map_eq_pure_bind, bind_pure_eq_ok_iff]

theorem map_eq_error_iff {d : Decoder α} {f : α → β} :
    (f <$> d) c = .error e c' ↔ d c = .error e c' := by
  rw [map_eq_pure_bind, bind_pure_eq_error_iff]

/-! ### Bytes and words -/

theorem bytes_of_le {n : Nat} (h : n ≤ c.remaining) :
    bytes n c = .ok (c.rest.take n) (c.skip n) := by
  unfold bytes
  refine if_neg ?_
  rw [List.length_take]
  change ¬ min n c.remaining < n
  omega

theorem bytes_of_lt {n : Nat} (h : c.remaining < n) :
    bytes n c = .error (.unexpectedEof n c.offset) c := by
  unfold bytes
  refine if_pos ?_
  rw [List.length_take]
  change min n c.remaining < n
  omega

theorem bytes_eq_ok_iff {n : Nat} {bs : List UInt8} :
    bytes n c = .ok bs c' ↔ n ≤ c.remaining ∧ c.rest.take n = bs ∧ c.skip n = c' := by
  rcases Nat.lt_or_ge c.remaining n with h | h
  · simp [bytes_of_lt h, Nat.not_le.mpr h]
  · simp [bytes_of_le h, h]

theorem bytes_eq_error_iff {n : Nat} :
    bytes n c = .error e c' ↔ c.remaining < n ∧ .unexpectedEof n c.offset = e ∧ c = c' := by
  rcases Nat.lt_or_ge c.remaining n with h | h
  · simp [bytes_of_lt h, h]
  · simp [bytes_of_le h, Nat.not_lt.mpr h]

theorem byte_eq_error_iff :
    byte c = .error e c' ↔ c.remaining < 1 ∧ .unexpectedEof 1 c.offset = e ∧ c = c' :=
  bind_pure_eq_error_iff.trans bytes_eq_error_iff

theorem word_eq_ok_iff {w : UInt32} :
    word c = .ok w c' ↔ 4 ≤ c.remaining ∧ Bytes.toWord (c.rest.take 4) = w ∧ c.skip 4 = c' := by
  rw [word, bind_pure_eq_ok_iff]
  simp only [bytes_eq_ok_iff]
  constructor
  · rintro ⟨_, ⟨h, rfl, rfl⟩, rfl⟩
    exact ⟨h, rfl, rfl⟩
  · rintro ⟨h, rfl, rfl⟩
    exact ⟨_, ⟨h, rfl, rfl⟩, rfl⟩

theorem word_eq_error_iff :
    word c = .error e c' ↔ c.remaining < 4 ∧ .unexpectedEof 4 c.offset = e ∧ c = c' :=
  bind_pure_eq_error_iff.trans bytes_eq_error_iff

theorem signed_eq_error_iff :
    signed c = .error e c' ↔ c.remaining < 4 ∧ .unexpectedEof 4 c.offset = e ∧ c = c' :=
  bind_pure_eq_error_iff.trans word_eq_error_iff

theorem float_eq_error_iff :
    float c = .error e c' ↔ c.remaining < 4 ∧ .unexpectedEof 4 c.offset = e ∧ c = c' :=
  bind_pure_eq_error_iff.trans word_eq_error_iff

/-! ### Values behind a word -/

theorem blob_eq_ok_iff {bs : List UInt8} :
    blob c = .ok bs c' ↔ 4 + c.announced ≤ c.remaining ∧
      (c.skip 4).rest.take c.announced = bs ∧ c.skip (4 + c.announced) = c' := by
  rw [blob, bind_eq_ok]
  simp only [word_eq_ok_iff, bytes_eq_ok_iff]
  constructor
  · rintro ⟨_, _, ⟨hword, rfl, rfl⟩, hbytes, rfl, rfl⟩
    rw [Cursor.skip_remaining] at hbytes
    exact ⟨by rw [Cursor.announced]; omega, rfl, (Cursor.skip_skip ..).symm⟩
  · rintro ⟨h, rfl, rfl⟩
    refine ⟨_, _, ⟨by omega, rfl, rfl⟩, ?_, rfl, Cursor.skip_skip ..⟩
    rw [Cursor.skip_remaining]
    change c.announced ≤ _
    omega

/-- The word with the length stays read when the bytes it announces are not there. -/
theorem blob_eq_error_iff :
    blob c = .error e c' ↔
      c.remaining < 4 ∧ .unexpectedEof 4 c.offset = e ∧ c = c' ∨
      4 ≤ c.remaining ∧ c.remaining < 4 + c.announced ∧
        .unexpectedEof c.announced (c.offset + 4) = e ∧ c.skip 4 = c' := by
  rw [blob, bind_eq_error_iff, word_eq_error_iff]
  refine or_congr_right ?_
  simp only [word_eq_ok_iff, bytes_eq_error_iff]
  constructor
  · rintro ⟨_, _, ⟨hword, rfl, rfl⟩, hbytes, rfl, rfl⟩
    rw [Cursor.skip_remaining] at hbytes
    exact ⟨hword, by rw [Cursor.announced]; omega, rfl, rfl⟩
  · rintro ⟨hword, hbytes, rfl, rfl⟩
    refine ⟨_, _, ⟨hword, rfl, rfl⟩, ?_, rfl, rfl⟩
    rw [Cursor.skip_remaining]
    change _ < c.announced
    omega

theorem text_eq_ok_iff {s : String} :
    text c = .ok s c' ↔ ∃ bs, blob c = .ok bs c' ∧ Utf8.decode? bs = some s := by
  rw [text, bind_eq_ok]
  constructor
  · rintro ⟨bs, c₁, hbs, h⟩
    cases hs : Utf8.decode? bs with
    | none => simp only [hs] at h; cases h
    | some s' =>
        simp only [hs] at h
        obtain ⟨rfl, rfl⟩ := pure_eq_ok_iff.mp h
        exact ⟨bs, hbs, hs⟩
  · rintro ⟨bs, hbs, hs⟩
    refine ⟨bs, c', hbs, ?_⟩
    simp only [hs]
    rfl

theorem text_eq_error_iff :
    text c = .error e c' ↔ blob c = .error e c' ∨
      ∃ bs, blob c = .ok bs c' ∧ Utf8.decode? bs = none ∧ .invalidUtf8 = e := by
  rw [text, bind_eq_error_iff]
  refine or_congr_right ?_
  constructor
  · rintro ⟨bs, c₁, hbs, h⟩
    cases hs : Utf8.decode? bs with
    | none =>
        simp only [hs] at h
        obtain ⟨rfl, rfl⟩ := fail_eq_error_iff.mp h
        exact ⟨bs, hbs, hs, rfl⟩
    | some s => simp only [hs] at h; cases h
  · rintro ⟨bs, hbs, hs, rfl⟩
    refine ⟨bs, c', hbs, ?_⟩
    simp only [hs]
    rfl

theorem count_apply (minSize : Nat) (c : Cursor) :
    count minSize c = match word c with
      | .ok w c₁ =>
        if c₁.remaining < w.toNat * max minSize 1 then .error (.invalidCount w.toNat c.offset) c₁
        else .ok w.toNat c₁
      | .error e c₁ => .error e c₁ := by
  rw [count, bind_apply]
  simp only [offset]
  rw [bind_apply]
  cases word c with
  | error e c₁ => rfl
  | ok w c₁ =>
      simp only
      rw [bind_apply]
      simp only [remaining]
      split <;> rfl

/-- The word with the number stays read when there is no room for so many elements. -/
theorem count_eq_error_iff {minSize : Nat} :
    count minSize c = .error e c' ↔
      c.remaining < 4 ∧ .unexpectedEof 4 c.offset = e ∧ c = c' ∨
      4 ≤ c.remaining ∧ c.remaining < 4 + c.announced * max minSize 1 ∧
        .invalidCount c.announced c.offset = e ∧ c.skip 4 = c' := by
  rw [count_apply]
  rcases Nat.lt_or_ge c.remaining 4 with hword | hword
  · rw [word_eq_error_iff.mpr ⟨hword, rfl, rfl⟩]
    simp [hword]
  · rw [word_eq_ok_iff.mpr ⟨hword, rfl, rfl⟩]
    simp only [Cursor.skip_remaining]
    change (if c.remaining - 4 < c.announced * max minSize 1 then _ else _) = _ ↔ _
    split
    · rename_i hroom
      have hsize : c.remaining < 4 + c.announced * max minSize 1 := by omega
      change EStateM.Result.error (FormatError.invalidCount c.announced c.offset) (c.skip 4) = _ ↔ _
      simp [hword, hsize, Nat.not_lt.mpr hword]
    · rename_i hroom
      have hsize : ¬ c.remaining < 4 + c.announced * max minSize 1 := by omega
      simp [hsize, Nat.not_lt.mpr hword]

theorem finish_eq_error_iff :
    finish c = .error e c' ↔ 0 < c.remaining ∧ .trailingBytes c.offset = e ∧ c = c' := by
  rw [finish, bind_apply]
  simp only [remaining]
  split
  · rename_i hdone
    simp [hdone, pure_ne_error]
  · rename_i hdone
    rw [bind_apply]
    simp only [offset]
    rw [fail_eq_error_iff]
    exact ⟨fun h => ⟨Nat.pos_of_ne_zero hdone, h⟩, fun h => h.2⟩

/-! ### Moving forward -/

/-- Where a decoder leaves the cursor, whether it gives a value or fails. -/
def stop (d : Decoder α) (c : Cursor) : Cursor :=
  match d c with
  | .ok _ c' => c'
  | .error _ c' => c'

/-- A decoder that never moves back, and never past the end. -/
def Advances (d : Decoder α) : Prop := ∀ c, ∃ n ≤ c.remaining, d.stop c = c.skip n

theorem advances_of_stays {d : Decoder α} (h : ∀ c, d.stop c = c) : d.Advances :=
  fun c => ⟨0, Nat.zero_le _, (h c).trans c.skip_zero.symm⟩

theorem advances_pure (x : α) : (pure x : Decoder α).Advances := advances_of_stays fun _ => rfl

theorem advances_fail (e : FormatError) : (fail e : Decoder α).Advances :=
  advances_of_stays fun _ => rfl

theorem advances_offset : offset.Advances := advances_of_stays fun _ => rfl

theorem advances_remaining : remaining.Advances := advances_of_stays fun _ => rfl

theorem advances_bytes (n : Nat) : (bytes n).Advances := by
  intro c
  rcases Nat.lt_or_ge c.remaining n with h | h
  · exact ⟨0, Nat.zero_le _, by rw [stop, bytes_of_lt h]; rfl⟩
  · exact ⟨n, h, by rw [stop, bytes_of_le h]⟩

theorem Advances.bind {d : Decoder α} {f : α → Decoder β} (h : d.Advances)
    (h' : ∀ x, (f x).Advances) : (d >>= f).Advances := by
  intro c
  obtain ⟨m, hm, hstop⟩ := h c
  rw [stop, bind_apply]
  rw [stop] at hstop
  cases hd : d c with
  | error e c₁ =>
      rw [hd] at hstop
      exact ⟨m, hm, hstop⟩
  | ok x c₁ =>
      rw [hd] at hstop
      obtain rfl : c₁ = c.skip m := hstop
      obtain ⟨n, hn, hstop⟩ := h' x (c.skip m)
      rw [Cursor.skip_remaining] at hn
      exact ⟨m + n, by omega, hstop.trans (Cursor.skip_skip ..)⟩

theorem Advances.map {d : Decoder α} (h : d.Advances) (f : α → β) : (f <$> d).Advances := by
  rw [map_eq_pure_bind]
  exact h.bind fun x => advances_pure (f x)

theorem advances_byte : byte.Advances := (advances_bytes 1).bind fun _ => advances_pure _

theorem advances_word : word.Advances := (advances_bytes 4).bind fun _ => advances_pure _

theorem advances_signed : signed.Advances := advances_word.bind fun _ => advances_pure _

theorem advances_float : float.Advances := advances_word.bind fun _ => advances_pure _

theorem advances_blob : blob.Advances := advances_word.bind fun n => advances_bytes n.toNat

theorem advances_text : text.Advances := by
  refine advances_blob.bind fun bs => ?_
  split
  · exact advances_pure _
  · exact advances_fail _

theorem advances_count (minSize : Nat) : (count minSize).Advances := by
  refine advances_offset.bind fun _ => advances_word.bind fun _ => ?_
  refine advances_remaining.bind fun _ => ?_
  split
  · exact advances_fail _
  · exact advances_pure _

theorem advances_finish : finish.Advances := by
  refine advances_remaining.bind fun _ => ?_
  split
  · exact advances_pure _
  · exact advances_offset.bind fun _ => advances_fail _

end Decoder

end ScriptImage
