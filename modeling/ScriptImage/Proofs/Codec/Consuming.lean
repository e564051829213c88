import ScriptImage.Proofs.Codec.Reading

/-!
What a run of a decoder consumes. A decoder may look at how many bytes are left before it reads a
counted list, so what it does is not given by the bytes it takes alone. Where it succeeds it is: a
count is only too large for bytes that could not hold the elements anyway. So every value that a
decoder gives it also reads, in the sense of `Reads`, from just the bytes that the run has taken.
-/

namespace ScriptImage

@[simp] theorem Bytes.count_length (n : Nat) : (count n).length = 4 := rfl

@[simp] theorem Bytes.blob_length (bs : List UInt8) : (blob bs).length = 4 + bs.length := by
  simp [blob]

@[simp] theorem Bytes.list_length {α : Type} (f : α → List UInt8) (xs : List α) :
    (list f xs).length = 4 + (xs.flatMap f).length := by
  simp [list]

namespace Decoder

variable {α β : Type} {R S : α → Nat → Prop} {Q : β → Nat → Prop}

/-- A run that gives a value reads it from the bytes it has taken, whose number `R` relates to the
value. -/
def Consumes (d : Decoder α) (R : α → Nat → Prop) : Prop :=
  ∀ c x c', d c = .ok x c' → ∃ used, c.rest = used ++ c'.rest ∧ d.Reads used x ∧ R x used.length

theorem consumes_pure {x : α} (h : R x 0) : (pure x : Decoder α).Consumes R := by
  intro c y c' hy
  cases hy
  exact ⟨[], rfl, reads_pure _, h⟩

theorem consumes_fail (e : FormatError) : (fail e : Decoder α).Consumes R := by
  intro c x c' h
  cases h

theorem Consumes.mono {d : Decoder α} (h : d.Consumes R) (himp : ∀ x n, R x n → S x n) :
    d.Consumes S := by
  intro c x c' hx
  obtain ⟨used, hrest, hreads, hR⟩ := h c x c' hx
  exact ⟨used, hrest, hreads, himp _ _ hR⟩

theorem bind_eq_ok {d : Decoder α} {f : α → Decoder β} {c c'' : Cursor} {y : β} :
    (d >>= f) c = .ok y c'' ↔ ∃ x c', d c = .ok x c' ∧ f x c' = .ok y c'' := by
  rw [bind_apply]
  cases d c <;> simp

theorem Consumes.bind {d : Decoder α} {f : α → Decoder β} (h : d.Consumes R)
    (h' : ∀ x n, R x n → (f x).Consumes fun y k => Q y (n + k)) : (d >>= f).Consumes Q := by
  intro c y c'' hy
  obtain ⟨x, c', hx, hy⟩ := bind_eq_ok.mp hy
  obtain ⟨used, hrest, hreads, hR⟩ := h c x c' hx
  obtain ⟨used', hrest', hreads', hQ⟩ := h' x used.length hR c' y c'' hy
  refine ⟨used ++ used', ?_, hreads.bind hreads', ?_⟩
  · rw [hrest, hrest', List.append_assoc]
  · rwa [List.length_append]

/-! ### Plain values -/

theorem consumes_bytes (n : Nat) : (bytes n).Consumes fun bs k => bs.length = n ∧ k = n := by
  intro c bs c' h
  unfold bytes at h
  simp only at h
  split at h
  · cases h
  · rename_i hlength
    cases h
    have htaken : (c.rest.take n).length = n := by
      rw [List.length_take] at hlength ⊢
      omega
    have hreads := reads_bytes (c.rest.take n)
    rw [htaken] at hreads
    exact ⟨c.rest.take n, (List.take_append_drop n c.rest).symm, hreads, htaken, htaken⟩

theorem consumes_byte : byte.Consumes fun _ k => k = 1 :=
  (consumes_bytes 1).bind fun _ _ h => consumes_pure h.2

theorem consumes_word : word.Consumes fun _ k => k = 4 :=
  (consumes_bytes 4).bind fun _ _ h => consumes_pure h.2

theorem consumes_signed : signed.Consumes fun _ k => k = 4 :=
  consumes_word.bind fun _ _ h => consumes_pure h

theorem consumes_float : float.Consumes fun _ k => k = 4 :=
  consumes_word.bind fun _ _ h => consumes_pure h

theorem consumes_blob : blob.Consumes fun bs k => k = (Bytes.blob bs).length := by
  refine consumes_word.bind fun n k hk => (consumes_bytes n.toNat).mono fun bs j h => ?_
  rw [Bytes.blob_length, h.1, h.2, hk]

theorem consumes_text : text.Consumes fun s k => k = (Bytes.text s).length := by
  refine consumes_blob.bind fun bs k hk => ?_
  split
  · rename_i s hs
    refine consumes_pure ?_
    rw [Bytes.text, Utf8.encode_of_decode? hs]
    exact hk
  · exact consumes_fail _

theorem consumes_magic (expected : List UInt8) :
    (magic expected).Consumes fun _ k => k = expected.length := by
  refine (consumes_bytes expected.length).bind fun bs k hk => ?_
  split
  · exact consumes_pure hk.2
  · exact consumes_fail _

/-! ### Counted lists -/

/-- A count that is accepted is a word, and the bytes behind it could hold the elements. -/
theorem count_eq_ok {minSize n : Nat} {c c' : Cursor} (h : count minSize c = .ok n c') :
    ∃ w, word c = .ok w c' ∧ n = w.toNat := by
  obtain ⟨start, c₁, hstart, h⟩ := bind_eq_ok.mp h
  cases hstart
  obtain ⟨w, c₂, hw, h⟩ := bind_eq_ok.mp h
  obtain ⟨left, c₃, hleft, h⟩ := bind_eq_ok.mp h
  cases hleft
  split at h
  · cases h
  · cases h
    exact ⟨w, hw, rfl⟩

/-- What stands behind a count has to take at least the bytes that the count was checked
against. -/
theorem consumes_count_bind {f : Nat → Decoder β} {minSize : Nat}
    (h : ∀ n, (f n).Consumes fun y k => n * max minSize 1 ≤ k ∧ Q y (4 + k)) :
    (count minSize >>= f).Consumes Q := by
  intro c y c'' hy
  obtain ⟨n, c', hn, hy⟩ := bind_eq_ok.mp hy
  obtain ⟨w, hw, rfl⟩ := count_eq_ok hn
  obtain ⟨used, hrest, hreads, hused⟩ := consumes_word c w c' hw
  obtain ⟨used', hrest', hreads', hsize, hQ⟩ := h w.toNat c' y c'' hy
  refine ⟨used ++ used', ?_, hreads.count_bind hreads' hsize, ?_⟩
  · rw [hrest, hrest', List.append_assoc]
  · rwa [List.length_append, hused]

theorem consumes_times {d : Decoder α} {f : α → List UInt8}
    (h : d.Consumes fun x k => k = (f x).length) (n : Nat) :
    (times n d).Consumes fun xs k => xs.length = n ∧ k = (xs.flatMap f).length := by
  induction n with
  | zero => exact consumes_pure ⟨rfl, rfl⟩
  | succ n ih =>
      refine h.bind fun x k hk => ih.bind fun xs j hj => consumes_pure ?_
      simp only [List.length_cons, List.flatMap_cons, List.length_append]
      exact ⟨by omega, by omega⟩

theorem consumes_list {d : Decoder α} {f : α → List UInt8} {minSize : Nat}
    (hsize : ∀ x, max minSize 1 ≤ (f x).length) (h : d.Consumes fun x k => k = (f x).length) :
    (list minSize d).Consumes fun xs k => k = (Bytes.list f xs).length := by
  refine consumes_count_bind fun n => (consumes_times h n).mono fun xs k hk => ?_
  obtain ⟨rfl, rfl⟩ := hk
  exact ⟨length_flatMap_ge fun x _ => hsize x, (Bytes.list_length f xs).symm⟩

/-! ### Whole files -/

theorem run_whole_eq_ok {d : Decoder α} {bs : List UInt8} {x : α} (h : d.whole.run bs = .ok x) :
    ∃ offset, d (Cursor.ofBytes bs) = .ok x ⟨offset, []⟩ := by
  unfold Decoder.run at h
  split at h
  · rename_i y c hy
    cases h
    obtain ⟨x, ⟨offset, rest⟩, hx, hy⟩ := bind_eq_ok.mp hy
    cases rest with
    | nil =>
        cases hy
        exact ⟨offset, hx⟩
    | cons b rest => cases hy
  · cases h

/-- The value of a whole file is read from all of its bytes. -/
theorem Consumes.run_whole {d : Decoder α} (h : d.Consumes R) {bs : List UInt8} {x : α}
    (hx : d.whole.run bs = .ok x) : d.Reads bs x ∧ R x bs.length := by
  obtain ⟨offset, hx⟩ := run_whole_eq_ok hx
  obtain ⟨used, hused, hreads⟩ := h _ _ _ hx
  obtain rfl : bs = used := by rwa [List.append_nil] at hused
  exact hreads

/-- Behind a file that was read to its end, more bytes are refused where they start. -/
theorem Reads.run_whole_append {d : Decoder α} {bs more : List UInt8} {x : α} (h : d.Reads bs x)
    (hmore : more ≠ []) : d.whole.run (bs ++ more) = .error (.trailingBytes bs.length) := by
  obtain ⟨b, more, rfl⟩ := List.exists_cons_of_ne_nil hmore
  unfold Decoder.run Cursor.ofBytes
  rw [whole, bind_apply, h 0 (b :: more), Nat.zero_add]
  rfl

end Decoder

end ScriptImage
