import ScriptImage.Bytes.Field
import ScriptImage.Proofs.Codec.Stopping

/-!
Records of fields. Reading the shapes of a record is inverse to writing it: a buffer gives exactly
the fields it is the stored form of, and a buffer that ends early stops the read of the field that
is cut. A reader may also be asked for more after a read has failed. When a single request fails,
and where it leaves the cursor, is said by `Request.Refuses`; that the cursor stays in the buffer
and never moves back holds for each request, and so for sequences of them.
-/

namespace ScriptImage

/-! ### Stored words -/

theorem Bytes.toNat_toWord (a b c d : UInt8) :
    (toWord [a, b, c, d]).toNat =
      a.toNat + 256 * (b.toNat + 256 * (c.toNat + 256 * d.toNat)) := by
  have ha := a.toNat_lt
  have hb := b.toNat_lt
  have hc := c.toNat_lt
  have hd := d.toNat_lt
  rw [toWord, UInt32.toNat_ofNat_of_lt']
  · rfl
  · simp only [List.foldr_cons, List.foldr_nil, UInt32.size]
    omega

/-- Four bytes are what the word made from them is written as. -/
theorem Bytes.word_toWord {bs : List UInt8} (h : bs.length = 4) : word (toWord bs) = bs := by
  obtain ⟨a, b, c, d, rfl⟩ := List.length_eq_four.mp h
  have ha := a.toNat_lt
  have hb := b.toNat_lt
  have hc := c.toNat_lt
  have hd := d.toNat_lt
  simp only [word, toNat_toWord, List.cons.injEq, and_true]
  refine ⟨?_, ?_, ?_, ?_⟩ <;>
    apply UInt8.toNat_inj.mp <;> rw [UInt8.toNat_ofNat'] <;> omega

/-! ### What was read -/

namespace Decoder

variable {c c' : Cursor}

theorem rest_of_bytes {n : Nat} {bs : List UInt8} (h : bytes n c = .ok bs c') :
    bs.length = n ∧ c.rest = bs ++ c'.rest := by
  obtain ⟨hn, rfl, rfl⟩ := bytes_eq_ok_iff.mp h
  exact ⟨List.length_take_of_le hn, (List.take_append_drop ..).symm⟩

theorem rest_of_byte {b : UInt8} (h : byte c = .ok b c') : c.rest = b :: c'.rest := by
  obtain ⟨bs, hbs, rfl⟩ := bind_pure_eq_ok_iff.mp h
  obtain ⟨hlength, hrest⟩ := rest_of_bytes hbs
  obtain ⟨b, rfl⟩ := List.length_eq_one_iff.mp hlength
  exact hrest

theorem rest_of_word {w : UInt32} (h : word c = .ok w c') : c.rest = Bytes.word w ++ c'.rest := by
  obtain ⟨bs, hbs, rfl⟩ := bind_pure_eq_ok_iff.mp h
  obtain ⟨hlength, hrest⟩ := rest_of_bytes hbs
  rw [Bytes.word_toWord hlength, hrest]

theorem rest_of_signed {w : Int32} (h : signed c = .ok w c') :
    c.rest = Bytes.signed w ++ c'.rest := by
  obtain ⟨u, hu, rfl⟩ := bind_pure_eq_ok_iff.mp h
  exact rest_of_word hu

theorem rest_of_float {x : Binary32} (h : float c = .ok x c') :
    c.rest = Bytes.float x ++ c'.rest := by
  obtain ⟨u, hu, rfl⟩ := bind_pure_eq_ok_iff.mp h
  exact rest_of_word hu

theorem rest_of_blob {bs : List UInt8} (h : blob c = .ok bs c') :
    bs.length < 0x100000000 ∧ c.rest = Bytes.blob bs ++ c'.rest := by
  obtain ⟨n, c₁, hn, hbs⟩ := bind_eq_ok.mp h
  obtain ⟨hlength, hrest⟩ := rest_of_bytes hbs
  refine ⟨hlength ▸ n.toNat_lt, ?_⟩
  rw [Bytes.blob, Bytes.count, hlength, Word.saturate_toNat, List.append_assoc, ← hrest]
  exact rest_of_word hn

theorem rest_of_text {s : String} (h : text c = .ok s c') :
    TextFits s ∧ c.rest = Bytes.text s ++ c'.rest := by
  obtain ⟨bs, hbs, hs⟩ := text_eq_ok_iff.mp h
  obtain rfl : Utf8.encode s = bs := Utf8.encode_of_decode? hs
  exact rest_of_blob hbs

end Decoder

/-! ### Records -/

namespace Field

/-- A field whose length a word can hold, where its length is stored. -/
def Fits : Field → Prop
  | .blob bs => bs.length < 0x100000000
  | .text s => TextFits s
  | _ => True

instance : DecidablePred Fits
  | .blob bs => Nat.decLt bs.length 0x100000000
  | .text s => Nat.decLt (Utf8.encode s).length 0x100000000
  | .bytes _ | .byte _ | .word _ | .signed _ | .float _ => .isTrue trivial

theorem reads_shape {f : Field} (h : f.Fits) : f.shape.read.Reads f.encode f := by
  cases f with
  | bytes bs => exact (Decoder.reads_bytes bs).map Field.bytes
  | byte b => exact (Decoder.reads_byte b).map Field.byte
  | word w => exact (Decoder.reads_word w).map Field.word
  | signed w => exact (Decoder.reads_signed w).map Field.signed
  | float x => exact (Decoder.reads_float x).map Field.float
  | blob bs => exact (Decoder.reads_blob h).map Field.blob
  | text s => exact (Decoder.reads_text h).map Field.text

theorem reads_shapes {fs : List Field} (h : ∀ f ∈ fs, f.Fits) :
    ((fs.map shape).mapM Shape.read).Reads (fs.flatMap encode) fs := by
  induction fs with
  | nil => exact Decoder.reads_pure []
  | cons f fs ih =>
      rw [List.map_cons, List.mapM_cons]
      have hf := h f List.mem_cons_self
      have hfs := ih fun g hg => h g (List.mem_cons_of_mem _ hg)
      exact (reads_shape hf).bind (hfs.bind_pure (f :: ·))

end Field

/-- What is read from a buffer is a field of the shape that was asked for, and stands there as the
field is written. -/
theorem Shape.rest_of_read {s : Shape} {f : Field} {c c' : Cursor} (h : s.read c = .ok f c') :
    f.shape = s ∧ f.Fits ∧ c.rest = f.encode ++ c'.rest := by
  cases s with
  | bytes n =>
      obtain ⟨bs, hbs, rfl⟩ := Decoder.map_eq_ok_iff.mp h
      obtain ⟨rfl, hrest⟩ := Decoder.rest_of_bytes hbs
      exact ⟨rfl, trivial, hrest⟩
  | byte =>
      obtain ⟨b, hb, rfl⟩ := Decoder.map_eq_ok_iff.mp h
      exact ⟨rfl, trivial, Decoder.rest_of_byte hb⟩
  | word =>
      obtain ⟨w, hw, rfl⟩ := Decoder.map_eq_ok_iff.mp h
      exact ⟨rfl, trivial, Decoder.rest_of_word hw⟩
  | signed =>
      obtain ⟨w, hw, rfl⟩ := Decoder.map_eq_ok_iff.mp h
      exact ⟨rfl, trivial, Decoder.rest_of_signed hw⟩
  | float =>
      obtain ⟨x, hx, rfl⟩ := Decoder.map_eq_ok_iff.mp h
      exact ⟨rfl, trivial, Decoder.rest_of_float hx⟩
  | blob =>
      obtain ⟨bs, hbs, rfl⟩ := Decoder.map_eq_ok_iff.mp h
      exact ⟨rfl, Decoder.rest_of_blob hbs⟩
  | text =>
      obtain ⟨t, ht, rfl⟩ := Decoder.map_eq_ok_iff.mp h
      exact ⟨rfl, Decoder.rest_of_text ht⟩

theorem Shape.rest_of_mapM_read {shapes : List Shape} {fs : List Field} {c c' : Cursor}
    (h : shapes.mapM Shape.read c = .ok fs c') :
    fs.map Field.shape = shapes ∧ (∀ f ∈ fs, f.Fits) ∧
      c.rest = fs.flatMap Field.encode ++ c'.rest := by
  induction shapes generalizing fs c with
  | nil =>
      obtain ⟨rfl, rfl⟩ := Decoder.pure_eq_ok_iff.mp h
      exact ⟨rfl, by simp, rfl⟩
  | cons s shapes ih =>
      rw [List.mapM_cons] at h
      obtain ⟨f, c₁, hf, h⟩ := Decoder.bind_eq_ok.mp h
      obtain ⟨gs, c₂, hgs, h⟩ := Decoder.bind_eq_ok.mp h
      obtain ⟨rfl, rfl⟩ := Decoder.pure_eq_ok_iff.mp h
      obtain ⟨hshape, hfits, hrest⟩ := rest_of_read hf
      obtain ⟨hshapes, hall, hrests⟩ := ih hgs
      refine ⟨by rw [List.map_cons, hshape, hshapes], List.forall_mem_cons.mpr ⟨hfits, hall⟩, ?_⟩
      rw [List.flatMap_cons, List.append_assoc, hrest, hrests]

/-- A record is read to the end of a buffer exactly when the buffer is what the record is written
as. -/
theorem Shape.run_whole_eq_ok_iff {shapes : List Shape} {bs : List UInt8} {fs : List Field} :
    (shapes.mapM Shape.read).whole.run bs = .ok fs ↔
      fs.map Field.shape = shapes ∧ (∀ f ∈ fs, f.Fits) ∧ fs.flatMap Field.encode = bs := by
  constructor
  · intro h
    obtain ⟨offset, h⟩ := Decoder.run_whole_eq_ok h
    obtain ⟨hshapes, hfits, hrest⟩ := rest_of_mapM_read h
    exact ⟨hshapes, hfits, by rw [← List.append_nil (fs.flatMap _), ← hrest]; rfl⟩
  · rintro ⟨rfl, hfits, rfl⟩
    exact (Field.reads_shapes hfits).run_whole

/-! ### Buffers that end early -/

namespace Shape

/-- The bytes that are read first: those of the value, or of the word with its length. -/
def width : Shape → Nat
  | .bytes n => n
  | .byte => 1
  | .word | .signed | .float | .blob | .text => 4

/-- The shapes whose values are stored behind their length. -/
def HasLength (s : Shape) : Prop := s = .blob ∨ s = .text

theorem read_eq_error_iff_of_fixed {s : Shape} {c c' : Cursor} {e : FormatError}
    (hs : ¬ s.HasLength) :
    s.read c = .error e c' ↔
      c.remaining < s.width ∧ .unexpectedEof s.width c.offset = e ∧ c = c' := by
  cases s with
  | bytes n => exact Decoder.map_eq_error_iff.trans Decoder.bytes_eq_error_iff
  | byte => exact Decoder.map_eq_error_iff.trans Decoder.byte_eq_error_iff
  | word => exact Decoder.map_eq_error_iff.trans Decoder.word_eq_error_iff
  | signed => exact Decoder.map_eq_error_iff.trans Decoder.signed_eq_error_iff
  | float => exact Decoder.map_eq_error_iff.trans Decoder.float_eq_error_iff
  | blob => exact absurd (.inl rfl) hs
  | text => exact absurd (.inr rfl) hs

/-- A value behind its length is refused where its bytes are. -/
theorem read_of_blob {s : Shape} {c c' : Cursor} {e : FormatError} (hs : s.HasLength)
    (h : Decoder.blob c = .error e c') : s.read c = .error e c' := by
  obtain rfl | rfl := hs
  · exact Decoder.map_eq_error_iff.mpr h
  · exact Decoder.map_eq_error_iff.mpr (Decoder.text_eq_error_iff.mpr (.inl h))

end Shape

/-- Where the first four bytes of stored bytes are left, so is their number. -/
theorem Cursor.announced_of_prefix {c : Cursor} {bs : List UInt8} (h : c.rest <+: Bytes.blob bs)
    (hlength : 4 ≤ c.remaining) (hbs : bs.length < 0x100000000) : c.announced = bs.length := by
  have hblob : (Bytes.blob bs).take 4 = Bytes.count bs.length :=
    List.take_left' (Bytes.count_length _)
  have htake : c.rest.take 4 = Bytes.count bs.length := by
    have hprefix := h.take 4
    rw [hblob] at hprefix
    refine hprefix.eq_of_length ?_
    rw [Bytes.count_length]
    exact List.length_take_of_le hlength
  rw [announced, htake, Bytes.count, Bytes.toWord_word, Word.toNat_saturate hbs]

theorem Decoder.blob_of_cut {c : Cursor} {bs : List UInt8} (hbs : bs.length < 0x100000000)
    (h : c.rest <+: Bytes.blob bs) (hlt : c.remaining < (Bytes.blob bs).length) :
    ∃ needed c', blob c = .error (.unexpectedEof needed c'.offset) c' := by
  rcases Nat.lt_or_ge c.remaining 4 with hleft | hlength
  · exact ⟨4, c, blob_eq_error_iff.mpr (.inl ⟨hleft, rfl, rfl⟩)⟩
  · have hannounced := c.announced_of_prefix h hlength hbs
    rw [Bytes.blob_length, ← hannounced] at hlt
    exact ⟨_, c.skip 4, blob_eq_error_iff.mpr (.inr ⟨hlength, hlt, rfl, rfl⟩)⟩

namespace Field

theorem length_encode_of_fixed {f : Field} (hs : ¬ f.shape.HasLength) :
    f.encode.length = f.shape.width := by
  cases f with
  | blob bs => exact absurd (.inl rfl) hs
  | text s => exact absurd (.inr rfl) hs
  | _ => rfl

theorem exists_encode_eq_blob {f : Field} (hf : f.Fits) (hs : f.shape.HasLength) :
    ∃ bs, bs.length < 0x100000000 ∧ f.encode = Bytes.blob bs := by
  cases f with
  | blob bs => exact ⟨bs, hf, rfl⟩
  | text s => exact ⟨Utf8.encode s, hf, rfl⟩
  | _ => obtain hs | hs := hs <;> cases hs

/-- The read of a field that is cut finds the end of the buffer. -/
theorem read_of_cut {f : Field} {c : Cursor} (hf : f.Fits) (h : c.rest <+: f.encode)
    (hne : c.rest ≠ f.encode) :
    ∃ needed c', f.shape.read c = .error (.unexpectedEof needed c'.offset) c' := by
  have hlt : c.remaining < f.encode.length :=
    lt_of_le_of_ne h.length_le fun heq => hne (h.eq_of_length heq)
  by_cases hs : f.shape.HasLength
  · obtain ⟨bs, hbs, hencode⟩ := exists_encode_eq_blob hf hs
    rw [hencode] at h hlt
    obtain ⟨needed, c', hblob⟩ := Decoder.blob_of_cut hbs h hlt
    exact ⟨needed, c', Shape.read_of_blob hs hblob⟩
  · rw [length_encode_of_fixed hs] at hlt
    exact ⟨_, c, (Shape.read_eq_error_iff_of_fixed hs).mpr ⟨hlt, rfl, rfl⟩⟩

/-- In a buffer that ends early the fields before the cut are read as they were written, and the
read of the one that is cut fails. -/
theorem exists_cut {fs : List Field} {start : List UInt8} (offset : Nat) (hfs : ∀ f ∈ fs, f.Fits)
    (h : start <+: fs.flatMap encode) (hne : start ≠ fs.flatMap encode) :
    ∃ done f later c needed c', fs = done ++ f :: later ∧
      (done.map shape).mapM Shape.read ⟨offset, start⟩ = .ok done c ∧
      f.shape.read c = .error (.unexpectedEof needed c'.offset) c' := by
  induction fs generalizing offset start with
  | nil => exact absurd (List.prefix_nil.mp h) hne
  | cons f fs ih =>
      obtain ⟨hf, hfs⟩ := List.forall_mem_cons.mp hfs
      rw [List.flatMap_cons] at h hne
      by_cases hwhole : f.encode <+: start
      · -- the first field is all there: the cut is in one of the others
        obtain ⟨start, rfl⟩ := hwhole
        have hstart := (List.prefix_append_right_inj _).mp h
        obtain ⟨done, g, later, c, needed, c', rfl, hdone, hg⟩ :=
          ih (offset + f.encode.length) hfs hstart fun heq => hne (congrArg _ heq)
        refine ⟨f :: done, g, later, c, needed, c', rfl, ?_, hg⟩
        rw [List.map_cons, List.mapM_cons]
        refine Decoder.bind_eq_ok.mpr ⟨f, _, reads_shape hf offset start, ?_⟩
        exact Decoder.bind_eq_ok.mpr ⟨done, c, hdone, rfl⟩
      · have hor := List.prefix_or_prefix_of_prefix h (List.prefix_append f.encode _)
        have hcut := hor.resolve_right hwhole
        have hne : start ≠ f.encode := fun heq => hwhole (heq ▸ List.prefix_rfl)
        obtain ⟨needed, c', hread⟩ := read_of_cut (c := ⟨offset, start⟩) hf hcut hne
        exact ⟨[], f, fs, _, needed, c', rfl, rfl, hread⟩

end Field

/-! ### Reading on after a failure -/

/-- What can be asked of a reader: a field, the number of elements of a list, or that nothing is
left. -/
inductive Request where
  | field (shape : Shape)
  | count (minSize : Nat)
  | finish
  deriving DecidableEq, Repr

inductive Reply where
  | field (value : Field)
  | count (n : Nat)
  | finished
  deriving DecidableEq, Repr

namespace Request

def read : Request → Decoder Reply
  | .field s => .field <$> s.read
  | .count minSize => .count <$> Decoder.count minSize
  | .finish => (fun _ => .finished) <$> Decoder.finish

def width : Request → Nat
  | .field s => s.width
  | .count _ => 4
  | .finish => 0

/-- How a request is refused at a cursor, and where the cursor is after that. -/
inductive Refuses (c : Cursor) : Request → FormatError → Cursor → Prop where
  /-- The bytes that are read first are not all there, and none of them is taken. -/
  | short {r : Request} (h : c.remaining < r.width) :
      Refuses c r (.unexpectedEof r.width c.offset) c
  /-- The bytes behind a length are not all there; the length stays read. -/
  | cut {s : Shape} (hs : s.HasLength) (hlength : 4 ≤ c.remaining)
      (h : c.remaining < 4 + c.announced) :
      Refuses c (.field s) (.unexpectedEof c.announced (c.offset + 4)) (c.skip 4)
  /-- The bytes behind a length are no text; the length and the bytes stay read. -/
  | notText (h : 4 + c.announced ≤ c.remaining)
      (hbytes : Utf8.decode? ((c.skip 4).rest.take c.announced) = none) :
      Refuses c (.field .text) .invalidUtf8 (c.skip (4 + c.announced))
  /-- There is no room for so many elements; their number stays read. -/
  | noRoom {minSize : Nat} (hnumber : 4 ≤ c.remaining)
      (h : c.remaining < 4 + c.announced * max minSize 1) :
      Refuses c (.count minSize) (.invalidCount c.announced c.offset) (c.skip 4)
  | trailing (h : 0 < c.remaining) : Refuses c .finish (.trailingBytes c.offset) c

variable {r : Request} {c c' : Cursor} {e : FormatError}

theorem Refuses.of_read (h : r.read c = .error e c') : Refuses c r e c' := by
  cases r with
  | field s =>
      have hread := Decoder.map_eq_error_iff.mp h
      by_cases hs : s.HasLength
      · obtain rfl | rfl := hs
        · have hblob := Decoder.map_eq_error_iff.mp hread
          obtain ⟨hleft, rfl, rfl⟩ | ⟨hlength, hleft, rfl, rfl⟩ :=
            Decoder.blob_eq_error_iff.mp hblob
          · exact .short hleft
          · exact .cut (.inl rfl) hlength hleft
        · have htext := Decoder.map_eq_error_iff.mp hread
          obtain hblob | ⟨bs, hblob, hnone, rfl⟩ := Decoder.text_eq_error_iff.mp htext
          · obtain ⟨hleft, rfl, rfl⟩ | ⟨hlength, hleft, rfl, rfl⟩ :=
              Decoder.blob_eq_error_iff.mp hblob
            · exact .short hleft
            · exact .cut (.inr rfl) hlength hleft
          · obtain ⟨hleft, rfl, rfl⟩ := Decoder.blob_eq_ok_iff.mp hblob
            exact .notText hleft hnone
      · obtain ⟨hleft, rfl, rfl⟩ := (Shape.read_eq_error_iff_of_fixed hs).mp hread
        exact .short hleft
  | count minSize =>
      have hcount := Decoder.map_eq_error_iff.mp h
      obtain ⟨hleft, rfl, rfl⟩ | ⟨hnumber, hleft, rfl, rfl⟩ :=
        Decoder.count_eq_error_iff.mp hcount
      · exact .short hleft
      · exact .noRoom hnumber hleft
  | finish =>
      have hfinish := Decoder.map_eq_error_iff.mp h
      obtain ⟨hleft, rfl, rfl⟩ := Decoder.finish_eq_error_iff.mp hfinish
      exact .trailing hleft

theorem Refuses.read (h : Refuses c r e c') : r.read c = .error e c' := by
  cases h with
  | short hleft =>
      cases r with
      | field s =>
          refine Decoder.map_eq_error_iff.mpr ?_
          by_cases hs : s.HasLength
          · have hblob : Decoder.blob c = .error (.unexpectedEof s.width c.offset) c := by
              refine Decoder.blob_eq_error_iff.mpr (.inl ?_)
              obtain rfl | rfl := hs <;> exact ⟨hleft, rfl, rfl⟩
            exact Shape.read_of_blob hs hblob
          · exact (Shape.read_eq_error_iff_of_fixed hs).mpr ⟨hleft, rfl, rfl⟩
      | count minSize =>
          refine Decoder.map_eq_error_iff.mpr ?_
          exact Decoder.count_eq_error_iff.mpr (.inl ⟨hleft, rfl, rfl⟩)
      | finish => exact absurd hleft (Nat.not_lt_zero _)
  | cut hs hlength hleft =>
      have hblob := Decoder.blob_eq_error_iff.mpr (.inr ⟨hlength, hleft, rfl, rfl⟩)
      exact Decoder.map_eq_error_iff.mpr (Shape.read_of_blob hs hblob)
  | notText hleft hbytes =>
      have hblob := Decoder.blob_eq_ok_iff.mpr ⟨hleft, rfl, rfl⟩
      have htext := Decoder.text_eq_error_iff.mpr (.inr ⟨_, hblob, hbytes, rfl⟩)
      exact Decoder.map_eq_error_iff.mpr (Decoder.map_eq_error_iff.mpr htext)
  | noRoom hnumber hleft =>
      have hcount := Decoder.count_eq_error_iff.mpr (.inr ⟨hnumber, hleft, rfl, rfl⟩)
      exact Decoder.map_eq_error_iff.mpr hcount
  | trailing hleft =>
      exact Decoder.map_eq_error_iff.mpr (Decoder.finish_eq_error_iff.mpr ⟨hleft, rfl, rfl⟩)

/-- A request fails exactly where it is refused. -/
theorem read_eq_error_iff : r.read c = .error e c' ↔ Refuses c r e c' :=
  ⟨Refuses.of_read, Refuses.read⟩

/-! ### Sequences of requests -/

theorem advances_read (r : Request) : r.read.Advances := by
  cases r with
  | field s =>
      refine Decoder.Advances.map ?_ _
      cases s with
      | bytes n => exact (Decoder.advances_bytes n).map _
      | byte => exact Decoder.advances_byte.map _
      | word => exact Decoder.advances_word.map _
      | signed => exact Decoder.advances_signed.map _
      | float => exact Decoder.advances_float.map _
      | blob => exact Decoder.advances_blob.map _
      | text => exact Decoder.advances_text.map _
  | count minSize => exact (Decoder.advances_count minSize).map _
  | finish => exact Decoder.advances_finish.map _

/-- Where a sequence of requests leaves the cursor; each goes on where the one before it has
stopped, whether it failed or not. -/
def reach (rs : List Request) (c : Cursor) : Cursor := rs.foldl (fun c r => r.read.stop c) c

theorem reach_append (rs more : List Request) (c : Cursor) :
    reach (rs ++ more) c = reach more (reach rs c) :=
  List.foldl_append

theorem exists_reach (rs : List Request) (c : Cursor) :
    ∃ n ≤ c.remaining, reach rs c = c.skip n := by
  induction rs generalizing c with
  | nil => exact ⟨0, Nat.zero_le _, rfl⟩
  | cons r rs ih =>
      obtain ⟨m, hm, hstop⟩ := r.advances_read c
      obtain ⟨n, hn, hreach⟩ := ih (c.skip m)
      rw [Cursor.skip_remaining] at hn
      refine ⟨m + n, by omega, ?_⟩
      rw [reach, List.foldl_cons, hstop, ← Cursor.skip_skip]
      exact hreach

/-- The cursor stands in the buffer, in front of what it has not passed, and more requests do not
move it back. -/
theorem reach_within (bs : List UInt8) (done more : List Request) :
    let c := reach done (Cursor.ofBytes bs)
    let c' := reach (done ++ more) (Cursor.ofBytes bs)
    c.rest = bs.drop c.offset ∧ c.offset ≤ c'.offset ∧ c'.offset ≤ bs.length := by
  obtain ⟨m, hm, hdone⟩ := exists_reach done (Cursor.ofBytes bs)
  obtain ⟨n, hn, hmore⟩ := exists_reach more ((Cursor.ofBytes bs).skip m)
  rw [Cursor.skip_remaining] at hn
  -- a cursor that began at the first byte has passed as many bytes as its offset says
  change m ≤ bs.length at hm
  change n ≤ bs.length - m at hn
  rw [reach_append, hdone, hmore, Cursor.skip_skip]
  simp only [Cursor.skip_rest, Cursor.skip_offset, Cursor.ofBytes, Nat.zero_add]
  exact ⟨trivial, by omega, by omega⟩

end Request

/-- Readers and writers are inverse. A sequence of shapes is read to the end of a buffer exactly
when the buffer is what fields of these shapes are written as, and gives these fields; a buffer that
ends before them is read up to the field that is cut. Whatever is asked of a reader, and however
often it has failed before, its cursor stays in the buffer and never goes back, and a request fails
just where it is refused, with the cursor where the refusal leaves it. -/
theorem reading_inverts_writing :
    (∀ (shapes : List Shape) (bs : List UInt8) (fs : List Field),
      (shapes.mapM Shape.read).whole.run bs = .ok fs ↔
      fs.map Field.shape = shapes ∧ (∀ f ∈ fs, f.Fits) ∧ fs.flatMap Field.encode = bs) ∧
    (∀ (fs : List Field) (start : List UInt8), (∀ f ∈ fs, f.Fits) →
      start <+: fs.flatMap Field.encode → start ≠ fs.flatMap Field.encode →
      ∃ done f later c needed c', fs = done ++ f :: later ∧
        (done.map Field.shape).mapM Shape.read (Cursor.ofBytes start) = .ok done c ∧
        f.shape.read c = .error (.unexpectedEof needed c'.offset) c') ∧
    (∀ (bs : List UInt8) (done more : List Request),
      let c := Request.reach done (Cursor.ofBytes bs)
      let c' := Request.reach (done ++ more) (Cursor.ofBytes bs)
      c.rest = bs.drop c.offset ∧ c.offset ≤ c'.offset ∧ c'.offset ≤ bs.length) ∧
    ∀ (r : Request) (c : Cursor) (e : FormatError) (c' : Cursor),
      r.read c = .error e c' ↔ Request.Refuses c r e c' := by
  refine ⟨?_, ?_, Request.reach_within, ?_⟩
  · intro shapes bs fs
    exact Shape.run_whole_eq_ok_iff
  · intro fs start hfs
    exact Field.exists_cut 0 hfs
  · intro r c e c'
    exact Request.read_eq_error_iff

namespace Sample

/-- A field of each shape. -/
def mixed : List Field :=
  [.byte 7, .word 0xDEADBEEF, .signed (-42), .float ⟨0x7FC00001⟩, .bytes [1, 2], .blob [],
    .text "sablé"]

/-- All fields are read back, but not from a buffer without the last byte. A text that is cut leaves
its length read, and the byte behind it is what is read next. -/
theorem mixed_read_back : (∀ f ∈ mixed, f.Fits) ∧
    ((mixed.map Field.shape).mapM Shape.read).whole.run (mixed.flatMap Field.encode) = .ok mixed ∧
    (∃ done f later c needed c', mixed = done ++ f :: later ∧
      (done.map Field.shape).mapM Shape.read
        (Cursor.ofBytes (mixed.flatMap Field.encode).dropLast) = .ok done c ∧
      f.shape.read c = .error (.unexpectedEof needed c'.offset) c') ∧
    (Request.field .text).read (Cursor.ofBytes [5, 0, 0, 0, 1]) =
      .error (.unexpectedEof 5 4) ⟨4, [1]⟩ ∧
    Request.reach [.field .text, .field .byte] (Cursor.ofBytes [5, 0, 0, 0, 1]) = ⟨5, []⟩ := by
  obtain ⟨hread, hcut, -, hrefuses⟩ := reading_inverts_writing
  have hfits : ∀ f ∈ mixed, f.Fits := by decide
  exact ⟨hfits, (hread _ _ _).mpr ⟨rfl, hfits, rfl⟩,
    hcut mixed _ hfits (List.dropLast_prefix _) (by decide),
    (hrefuses _ _ _ _).mpr (.cut (.inr rfl) (by decide) (by decide)), by decide⟩

end Sample

end ScriptImage
