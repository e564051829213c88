import ScriptImage.Bytes.Decoder
import ScriptImage.Proofs.Outcome
import ScriptImage.Proofs.Utf8
import ScriptImage.Proofs.Words

/-!
What decoders do. A decoder reads a value from bytes when it gives the value and stops behind them,
whatever follows; it yields a property when every value it gives has it. Both are built up along
the steps of a decoder.
-/

namespace ScriptImage

/-- A text whose bytes can be counted by a word. -/
def TextFits (s : String) : Prop := (Utf8.encode s).length < 0x100000000

/-- A list that can be counted by a word, of elements with a property. -/
structure ListFits {α : Type} (P : α → Prop) (xs : List α) : Prop where
  length : xs.length < 0x100000000
  all : ∀ x ∈ xs, P x

namespace Decoder

variable {α β : Type}

theorem bind_apply (d : Decoder α) (f : α → Decoder β) (c : Cursor) :
    (d >>= f) c = match d c with
      | .ok x c' => f x c'
      | .error e c' => .error e c' := by
  change EStateM.bind d f c = _
  unfold EStateM.bind
  cases d c <;> rfl

/-! ### Reading -/

def Reads (d : Decoder α) (bs : List UInt8) (x : α) : Prop :=
  ∀ offset rest, d ⟨offset, bs ++ rest⟩ = .ok x ⟨offset + bs.length, rest⟩

theorem reads_pure (x : α) : (pure x : Decoder α).Reads [] x := fun _ _ => rfl

theorem Reads.bind {d : Decoder α} {f : α → Decoder β} {bs bs' : List UInt8} {x : α} {y : β}
    (h : d.Reads bs x) (h' : (f x).Reads bs' y) : (d >>= f).Reads (bs ++ bs') y := by
  intro offset rest
  rw [bind_apply, List.append_assoc, h offset (bs' ++ rest)]
  simp only
  rw [h' (offset + bs.length) rest, List.length_append, Nat.add_assoc]

/-- Steps that read no more bytes. -/
theorem Reads.bind_done {d : Decoder α} {f : α → Decoder β} {bs : List UInt8} {x : α} {y : β}
    (h : d.Reads bs x) (h' : (f x).Reads [] y) : (d >>= f).Reads bs y := by
  have hbind := h.bind h'
  rwa [List.append_nil] at hbind

theorem Reads.bind_pure {d : Decoder α} {bs : List UInt8} {x : α} (h : d.Reads bs x)
    (f : α → β) : (d >>= fun x => pure (f x)).Reads bs (f x) :=
  h.bind_done (reads_pure (f x))

theorem Reads.map {d : Decoder α} {bs : List UInt8} {x : α} (h : d.Reads bs x) (f : α → β) :
    (f <$> d).Reads bs (f x) := by
  rw [map_eq_pure_bind]
  exact h.bind_pure f

theorem reads_bytes (bs : List UInt8) : (bytes bs.length).Reads bs bs := by
  intro offset rest
  unfold bytes
  simp

theorem reads_byte (b : UInt8) : byte.Reads [b] b :=
  (reads_bytes [b]).bind_pure fun bs => bs.headD 0

theorem reads_word (w : UInt32) : word.Reads (Bytes.word w) w := by
  have h := (reads_bytes (Bytes.word w)).bind_pure Bytes.toWord
  rwa [Bytes.toWord_word] at h

theorem reads_signed (w : Int32) : signed.Reads (Bytes.signed w) w :=
  (reads_word w.toUInt32).bind_pure UInt32.toInt32

theorem reads_float (x : Binary32) : float.Reads (Bytes.float x) x :=
  (reads_word x.bits).bind_pure Binary32.mk

theorem reads_blob {bs : List UInt8} (h : bs.length < 0x100000000) :
    blob.Reads (Bytes.blob bs) bs := by
  refine (reads_word (Word.saturate bs.length)).bind ?_
  rw [Word.toNat_saturate h]
  exact reads_bytes bs

theorem reads_text {s : String} (h : TextFits s) : text.Reads (Bytes.text s) s := by
  refine (reads_blob h).bind_done ?_
  rw [Utf8.decode?_encode]
  exact reads_pure s

theorem reads_magic (expected : List UInt8) : (magic expected).Reads expected () := by
  refine (reads_bytes expected).bind_done ?_
  rw [if_pos rfl]
  exact reads_pure ()

/-- A count is accepted when the bytes behind it can hold that many elements. -/
theorem Reads.count_bind {f : Nat → Decoder α} {minSize : Nat} {w : UInt32} {bs bs' : List UInt8}
    {x : α} (hw : word.Reads bs w) (h : (f w.toNat).Reads bs' x)
    (hsize : w.toNat * max minSize 1 ≤ bs'.length) :
    (count minSize >>= f).Reads (bs ++ bs') x := by
  intro offset rest
  have hcount : count minSize ⟨offset, bs ++ bs' ++ rest⟩ =
      .ok w.toNat ⟨offset + bs.length, bs' ++ rest⟩ := by
    rw [count, bind_apply]
    simp only [Decoder.offset]
    rw [List.append_assoc, bind_apply, hw offset (bs' ++ rest)]
    simp only
    rw [bind_apply]
    simp only [remaining, Cursor.remaining]
    -- the rest of the file may hold more than the elements, never less
    rw [if_neg (by rw [List.length_append]; omega)]
    rfl
  rw [bind_apply, hcount]
  simp only
  rw [h (offset + bs.length) rest, List.length_append, Nat.add_assoc]

theorem Reads.counted {f : Nat → Decoder α} {minSize n : Nat} {bs : List UInt8} {x : α}
    (h : (f n).Reads bs x) (hn : n < 0x100000000) (hsize : n * max minSize 1 ≤ bs.length) :
    (count minSize >>= f).Reads (Bytes.count n ++ bs) x := by
  have hword := Word.toNat_saturate hn
  exact (reads_word (Word.saturate n)).count_bind (hword.symm ▸ h) (hword.symm ▸ hsize)

theorem reads_times {d : Decoder α} {f : α → List UInt8} {xs : List α}
    (h : ∀ x ∈ xs, d.Reads (f x) x) : (times xs.length d).Reads (xs.flatMap f) xs := by
  induction xs with
  | nil => exact reads_pure []
  | cons x xs ih =>
      have hxs := ih fun y hy => h y (List.mem_cons_of_mem _ hy)
      refine (h x List.mem_cons_self).bind ?_
      exact hxs.bind_pure (x :: ·)

theorem length_flatMap_ge {f : α → List UInt8} {xs : List α} {size : Nat}
    (h : ∀ x ∈ xs, size ≤ (f x).length) : xs.length * size ≤ (xs.flatMap f).length := by
  induction xs with
  | nil => simp
  | cons x xs ih =>
      have hx := h x List.mem_cons_self
      have hxs := ih fun y hy => h y (List.mem_cons_of_mem _ hy)
      rw [List.flatMap_cons, List.length_append, List.length_cons, Nat.succ_mul]
      omega

theorem reads_list {d : Decoder α} {f : α → List UInt8} {minSize : Nat} {P : α → Prop}
    {xs : List α} (hxs : ListFits P xs) (hsize : ∀ x, max minSize 1 ≤ (f x).length)
    (h : ∀ x, P x → d.Reads (f x) x) : (list minSize d).Reads (Bytes.list f xs) xs :=
  (reads_times fun x hx => h x (hxs.all x hx)).counted hxs.length
    (length_flatMap_ge fun x _ => hsize x)

/-! ### Yielding -/

def Yields (d : Decoder α) (P : α → Prop) : Prop := ∀ c x c', d c = .ok x c' → P x

variable {P : α → Prop} {Q : β → Prop}

theorem yields_pure {x : α} (h : P x) : (pure x : Decoder α).Yields P := by
  intro c y c' hy
  cases hy
  exact h

theorem yields_fail (e : FormatError) : (fail e : Decoder α).Yields P := by
  intro c x c' h
  cases h

theorem yields_any (d : Decoder α) : d.Yields fun _ => True := fun _ _ _ _ => trivial

theorem Yields.bind {d : Decoder α} {f : α → Decoder β} (h : d.Yields P)
    (h' : ∀ x, P x → (f x).Yields Q) : (d >>= f).Yields Q := by
  intro c y c' hy
  rw [bind_apply] at hy
  split at hy
  · rename_i x c'' hx
    exact h' x (h c x c'' hx) c'' y c' hy
  · cases hy

theorem yields_blob : blob.Yields fun bs => bs.length < 0x100000000 := by
  refine (yields_any word).bind fun n _ => ?_
  intro c bs c' h
  simp only [bytes] at h
  split at h
  · cases h
  · cases h
    have hn := n.toNat_lt
    rw [List.length_take]
    omega

theorem yields_text : text.Yields TextFits := by
  refine yields_blob.bind fun bs hbs => ?_
  split
  · rename_i s hs
    refine yields_pure ?_
    rwa [TextFits, Utf8.encode_of_decode? hs]
  · exact yields_fail _

theorem yields_count (minSize : Nat) : (count minSize).Yields fun n => n < 0x100000000 := by
  refine (yields_any _).bind fun at_ _ => (yields_any _).bind fun n _ =>
    (yields_any _).bind fun left _ => ?_
  split
  · exact yields_fail _
  · exact yields_pure n.toNat_lt

theorem yields_times {d : Decoder α} (h : d.Yields P) (n : Nat) :
    (times n d).Yields fun xs => xs.length = n ∧ ∀ x ∈ xs, P x := by
  induction n with
  | zero => exact yields_pure ⟨rfl, by simp⟩
  | succ n ih =>
      refine h.bind fun x hx => ih.bind fun xs hxs => yields_pure ⟨?_, ?_⟩
      · rw [List.length_cons, hxs.1]
      · intro y hy
        rcases List.mem_cons.mp hy with rfl | hy
        · exact hx
        · exact hxs.2 y hy

theorem yields_list {d : Decoder α} (h : d.Yields P) (minSize : Nat) :
    (list minSize d).Yields (ListFits P) := by
  refine (yields_count minSize).bind fun n hn c xs c' hxs => ?_
  obtain ⟨hlength, hall⟩ := yields_times h n c xs c' hxs
  exact ⟨hlength ▸ hn, hall⟩

/-! ### Whole files -/

/-- Reads bytes to their end. -/
def whole (d : Decoder α) : Decoder α := do
  let x ← d
  finish
  return x

theorem Reads.run_whole {d : Decoder α} {bs : List UInt8} {x : α} (h : d.Reads bs x) :
    d.whole.run bs = .ok x := by
  have hread := h 0 []
  rw [List.append_nil] at hread
  unfold Decoder.run Cursor.ofBytes
  rw [whole, bind_apply, hread]
  rfl

theorem Yields.whole {d : Decoder α} (h : d.Yields P) : d.whole.Yields P :=
  h.bind fun _ hx => (yields_any finish).bind fun _ _ => yields_pure hx

/-- What a decoder yields, the values it gives for whole files have. -/
theorem Yields.run {d : Decoder α} (h : d.Yields P) {bs : List UInt8} {x : α}
    (hx : d.run bs = .ok x) : P x := by
  unfold Decoder.run at hx
  split at hx
  · rename_i y c hy
    cases hx
    exact h _ _ _ hy
  · cases hx

end Decoder

end ScriptImage
