import ScriptImage.Proofs.Layout
import ScriptImage.Proofs.Search
import ScriptImage.Proofs.Texts

/-!
Data sections as lists of texts. In a consistent section the entries stand in order inside the
bytes, so that the search finds the text that starts at an offset. Texts pushed one after the other
give a consistent section, in which each text starts where those before it end.
-/

namespace ScriptImage

namespace DataSection

/-- The texts of the entries in order. -/
def texts (d : DataSection) : Except Fault (List (List UInt8)) := d.entries.mapM d.bytesOf

/-- The text that starts at the offset which a signed word gives. -/
def Holds (d : DataSection) (v : Int32) (text : List UInt8) : Prop :=
  0 ≤ v.toInt ∧ ∃ e, d.entryAt? v.toUInt32 = some e ∧ d.bytesOf e = .ok text

/-- Entries lie inside the bytes and start one after the other. -/
structure Consistent (d : DataSection) : Prop where
  inside : ∀ e ∈ d.entries, e.offset.toNat + e.length.toNat ≤ d.bytes.length ∧
    e.offset.toNat < d.bytes.length
  ascending : d.entries.Pairwise fun e f => e.offset < f.offset

theorem consistent_empty : Consistent {} := ⟨by simp, .nil⟩

theorem bytes_length_push (d : DataSection) (text : List UInt8) :
    (d.push text).2.bytes.length = d.bytes.length + text.length + 1 := by
  simp only [push, List.length_append, List.length_singleton]

/-- The entries beside their texts. -/
theorem mem_zip_texts_iff {d : DataSection} {us : List (List UInt8)} (hus : d.texts = .ok us)
    {x : TextEntry × List UInt8} :
    x ∈ d.entries.zip us ↔ x.1 ∈ d.entries ∧ d.bytesOf x.1 = .ok x.2 := by
  constructor
  · intro hx
    obtain ⟨k, hk⟩ := List.mem_iff_getElem?.mp hx
    obtain ⟨he, ht⟩ := List.getElem?_zip_eq_some.mp hk
    obtain ⟨t, ht', hbytes⟩ := mapM_getElem? hus he
    rw [ht, Option.some.injEq] at ht'
    exact ⟨List.mem_of_getElem? he, ht' ▸ hbytes⟩
  · rintro ⟨hmem, hbytes⟩
    obtain ⟨k, he⟩ := List.mem_iff_getElem?.mp hmem
    obtain ⟨t, ht, hbytes'⟩ := mapM_getElem? hus he
    rw [hbytes, Except.ok.injEq] at hbytes'
    exact List.mem_of_getElem? (List.getElem?_zip_eq_some.mpr ⟨he, hbytes' ▸ ht⟩)

/-! ### Finding texts -/

namespace Consistent

variable {d : DataSection}

theorem exists_bytesOf (h : d.Consistent) {e : TextEntry} (he : e ∈ d.entries) :
    ∃ t, d.bytesOf e = .ok t := by
  simp only [bytesOf]
  rw [if_pos (h.inside e he).1]
  exact ⟨_, rfl⟩

theorem exists_texts (h : d.Consistent) : ∃ ts, d.texts = .ok ts :=
  exists_mapM fun _ => h.exists_bytesOf

/-- The search finds the entry that starts at an offset. -/
theorem entryAt?_eq_some_iff (h : d.Consistent) {offset : UInt32} {e : TextEntry} :
    d.entryAt? offset = some e ↔ e ∈ d.entries ∧ e.offset = offset := by
  simp only [entryAt?, Option.bind_eq_bind, Option.bind_eq_some_iff]
  constructor
  · rintro ⟨n, hn, he⟩
    obtain ⟨f, hf, heq⟩ := BinarySearch.find?_eq_some hn
    rw [he, Option.some.injEq] at hf
    subst hf
    exact ⟨List.mem_of_getElem? he, Std.compare_eq_iff_eq.mp heq⟩
  · rintro ⟨hmem, rfl⟩
    obtain ⟨n, hn⟩ := List.mem_iff_getElem?.mp hmem
    refine ⟨n, BinarySearch.find?_eq ?_ hn (Std.compare_eq_iff_eq.mpr rfl), hn⟩
    -- entries start one after the other, so the later ones are those above
    have hlt : ∀ (i j : Nat) (a b : TextEntry), d.entries[i]? = some a →
        d.entries[j]? = some b → i < j → a.offset < b.offset := by
      intro i j a b ha hb hij
      obtain ⟨hi, rfl⟩ := List.getElem?_eq_some_iff.mp ha
      obtain ⟨hj, rfl⟩ := List.getElem?_eq_some_iff.mp hb
      exact List.pairwise_iff_getElem.mp h.ascending i j hi hj hij
    intro i f hf
    rw [Std.compare_eq_gt]
    constructor
    · intro habove
      rcases Nat.lt_trichotomy n i with hni | rfl | hin
      · exact hni
      · rw [hn, Option.some.injEq] at hf
        subst hf
        exact absurd habove (UInt32.lt_irrefl _)
      · exact absurd (UInt32.lt_trans habove (hlt i n f e hf hn hin)) (UInt32.lt_irrefl _)
    · exact hlt n i e f hn hf

theorem holds_iff (h : d.Consistent) {v : Int32} {t : List UInt8} :
    d.Holds v t ↔
      0 ≤ v.toInt ∧ ∃ e ∈ d.entries, e.offset = v.toUInt32 ∧ d.bytesOf e = .ok t := by
  simp only [Holds, h.entryAt?_eq_some_iff, and_assoc]

/-- A section stays consistent when a text is pushed. -/
theorem push (h : d.Consistent) (hsize : d.bytes.length < 0x100000000) (text : List UInt8) :
    (d.push text).2.Consistent := by
  have hoffset : (Word.saturate d.bytes.length).toNat = d.bytes.length := Word.toNat_saturate hsize
  have hlength := Word.toNat_saturate_le text.length
  refine ⟨?_, ?_⟩
  · intro e he
    have hbytes := bytes_length_push d text
    rcases List.mem_append.mp he with he | he
    · have := h.inside e he
      omega
    · rw [List.mem_singleton] at he
      subst he
      simp only
      omega
  · refine List.pairwise_append.mpr ⟨h.ascending, List.pairwise_singleton _ _, ?_⟩
    intro e he f hf
    rw [List.mem_singleton] at hf
    subst hf
    rw [UInt32.lt_iff_toNat_lt, hoffset]
    exact (h.inside e he).2

end Consistent

/-- The entries that reading finds start behind what is read already, inside the bytes. -/
theorem inside_of_mem_index {start length : Nat} {bs : List UInt8} {e : TextEntry}
    (hsize : start + length + bs.length < 0x100000000) (he : e ∈ index start length bs) :
    start ≤ e.offset.toNat ∧
      e.offset.toNat + e.length.toNat ≤ start + length + bs.length ∧
        e.offset.toNat < start + length + bs.length := by
  induction bs generalizing start length with
  | nil =>
      unfold index at he
      split at he
      · cases he
      · rw [List.mem_singleton] at he
        subst he
        have := Word.toNat_saturate (n := start) (by omega)
        have := Word.toNat_saturate (n := length) (by omega)
        simp only
        omega
  | cons b bs ih =>
      rw [List.length_cons] at hsize ⊢
      unfold index at he
      split at he
      · rcases List.mem_cons.mp he with rfl | he
        · have := Word.toNat_saturate (n := start) (by omega)
          have := Word.toNat_saturate (n := length) (by omega)
          simp only
          omega
        · have := ih (by omega) he
          omega
      · have := ih (by omega) he
        omega

theorem pairwise_index {start length : Nat} {bs : List UInt8}
    (hsize : start + length + bs.length < 0x100000000) :
    (index start length bs).Pairwise fun e f => e.offset < f.offset := by
  induction bs generalizing start length with
  | nil =>
      unfold index
      split
      · exact .nil
      · exact List.pairwise_singleton _ _
  | cons b bs ih =>
      rw [List.length_cons] at hsize
      unfold index
      split
      · refine .cons ?_ (ih (by omega))
        intro e he
        have hoffset := Word.toNat_saturate (n := start) (by omega)
        have := inside_of_mem_index (by omega) he
        rw [UInt32.lt_iff_toNat_lt]
        simp only
        omega
      · exact ih (by omega)

/-- Data that were read are consistent. -/
theorem consistent_ofBytes {bs : List UInt8} (hsize : bs.length < 0x100000000) :
    (ofBytes bs).Consistent := by
  refine ⟨?_, pairwise_index (by omega)⟩
  intro e he
  have hinside := inside_of_mem_index (by omega) he
  have hbytes : (ofBytes bs).bytes.length = bs.length := rfl
  omega

/-! ### Pushing texts one after the other -/

/-- A text that was pushed has its entry where the bytes before it end. -/
theorem bytesOf_push {d : DataSection} {t : List UInt8}
    (hsize : (d.push t).2.bytes.length < 0x100000000) :
    (d.push t).2.bytesOf ⟨(d.push t).1, Word.saturate t.length⟩ = .ok t := by
  have hsplit : (d.push t).2.bytes = d.bytes ++ (t ++ [0]) := List.append_assoc _ _ _
  exact bytesOf_of_split hsize hsplit

/-- The section after texts were pushed in order. -/
def pushAll (d : DataSection) (ts : List (List UInt8)) : DataSection :=
  ts.foldl (fun d t => (d.push t).2) d

section

variable {d : DataSection} {ts us : List (List UInt8)} {t : List UInt8}

theorem pushAll_append : d.pushAll (ts ++ us) = (d.pushAll ts).pushAll us := List.foldl_append

theorem pushAll_concat : d.pushAll (ts ++ [t]) = ((d.pushAll ts).push t).2 := pushAll_append

theorem bytes_pushAll (d : DataSection) (ts : List (List UInt8)) :
    (d.pushAll ts).bytes = d.bytes ++ ts.flatMap fun t => t ++ [0] := by
  induction ts using List.reverseRecOn with
  | nil => simp [pushAll]
  | append_singleton ts t ih =>
      rw [pushAll_concat, List.flatMap_append, ← List.append_assoc, ← ih, List.flatMap_singleton,
        ← List.append_assoc]
      rfl

/-- What is in the index stays there. -/
theorem entries_pushAll : d.entries <+: (d.pushAll ts).entries := by
  induction ts using List.reverseRecOn with
  | nil => exact List.prefix_rfl
  | append_singleton ts t ih =>
      rw [pushAll_concat]
      exact ih.trans (List.prefix_append _ _)

/-- Bytes behind a text do not change it. -/
theorem bytesOf_pushAll (ts : List (List UInt8)) {e : TextEntry} (h : d.bytesOf e = .ok t) :
    (d.pushAll ts).bytesOf e = .ok t := by
  simp only [bytesOf] at h ⊢
  split at h
  · rename_i hinside
    cases h
    rw [bytes_pushAll, if_pos (by rw [List.length_append]; omega),
      List.drop_append_of_le_length (by omega),
      List.take_append_of_le_length (by rw [List.length_drop]; omega)]
  · cases h

theorem Consistent.pushAll (h : d.Consistent) (hsize : (d.pushAll ts).bytes.length < 0x100000000) :
    (d.pushAll ts).Consistent := by
  induction ts using List.reverseRecOn with
  | nil => exact h
  | append_singleton ts t ih =>
      rw [pushAll_concat] at hsize ⊢
      have hbytes := bytes_length_push (d.pushAll ts) t
      exact (ih (by omega)).push (by omega) t

theorem Indexed.pushAll (h : d.Indexed) (hts : ∀ t ∈ ts, (0 : UInt8) ∉ t) :
    (d.pushAll ts).Indexed := by
  induction ts using List.reverseRecOn with
  | nil => exact h
  | append_singleton ts t ih =>
      rw [pushAll_concat]
      exact (ih fun u hu => hts u (List.mem_append_left _ hu)).push
        (hts t (List.mem_append_right _ List.mem_cons_self))

/-- The texts of a section are those it had and those that were pushed. -/
theorem texts_pushAll (h : d.texts = .ok us) (hsize : (d.pushAll ts).bytes.length < 0x100000000) :
    (d.pushAll ts).texts = .ok (us ++ ts) := by
  induction ts using List.reverseRecOn with
  | nil => rwa [List.append_nil]
  | append_singleton ts t ih =>
      rw [pushAll_concat] at hsize ⊢
      have hbytes := bytes_length_push (d.pushAll ts) t
      have hold := mapM_eq_ok_iff.mp (ih (by omega))
      rw [← List.append_assoc]
      refine mapM_eq_ok_iff.mpr (List.rel_append (hold.imp fun e u hu => ?_)
        (.cons (bytesOf_push hsize) .nil))
      exact bytesOf_pushAll [t] hu

/-- The search finds a text where it was pushed, whatever was pushed later. -/
theorem Consistent.exists_entryAt? (h : d.Consistent)
    (hsize : (d.pushAll (ts ++ t :: us)).bytes.length < 0x100000000) :
    ∃ e, (d.pushAll (ts ++ t :: us)).entryAt? ((d.pushAll ts).push t).1 = some e ∧
      (d.pushAll (ts ++ t :: us)).bytesOf e = .ok t := by
  have hsplit : d.pushAll (ts ++ t :: us) = ((d.pushAll ts).push t).2.pushAll us := pushAll_append
  have hconsistent := h.pushAll hsize
  rw [hsplit] at hsize hconsistent ⊢
  have hbytes := congrArg List.length (bytes_pushAll ((d.pushAll ts).push t).2 us)
  rw [List.length_append] at hbytes
  refine ⟨⟨((d.pushAll ts).push t).1, Word.saturate t.length⟩, ?_,
    bytesOf_pushAll us (bytesOf_push (by omega))⟩
  refine hconsistent.entryAt?_eq_some_iff.mpr ⟨?_, rfl⟩
  exact entries_pushAll.subset (List.mem_append_right _ List.mem_cons_self)

end

/-! ### Sections made of texts -/

/-- The section into which texts were pushed in order. -/
def ofTexts (ts : List (List UInt8)) : DataSection := ts.foldl (fun d t => (d.push t).2) {}

/-- Where the text at a position starts. -/
def textStart (ts : List (List UInt8)) (n : Nat) : Nat := pieceStart (fun t => t ++ [0]) ts n

theorem ofTexts_concat (ts : List (List UInt8)) (t : List UInt8) :
    ofTexts (ts ++ [t]) = ((ofTexts ts).push t).2 := pushAll_concat

theorem ofTexts_append (ts us : List (List UInt8)) :
    ofTexts (ts ++ us) = us.foldl (fun d t => (d.push t).2) (ofTexts ts) := pushAll_append

theorem textStart_append {ts : List (List UInt8)} (us : List (List UInt8)) {n : Nat}
    (h : n ≤ ts.length) : textStart (ts ++ us) n = textStart ts n :=
  pieceStart_append_left _ us h

theorem textStart_of_prefix {ts us : List (List UInt8)} (h : ts <+: us) {n : Nat}
    (hn : n ≤ ts.length) : textStart us n = textStart ts n := by
  obtain ⟨vs, rfl⟩ := h
  exact textStart_append vs hn

theorem bytes_ofTexts (ts : List (List UInt8)) :
    (ofTexts ts).bytes = ts.flatMap fun t => t ++ [0] := bytes_pushAll {} ts

theorem textStart_length (ts : List (List UInt8)) :
    textStart ts ts.length = (ofTexts ts).bytes.length := by
  rw [bytes_ofTexts]
  exact pieceStart_length _ ts

theorem entries_ofTexts (ts : List (List UInt8)) :
    (ofTexts ts).entries = ts.zipIdx.map fun (t, n) =>
      ⟨Word.saturate (textStart ts n), Word.saturate t.length⟩ := by
  induction ts using List.reverseRecOn with
  | nil => rfl
  | append_singleton ts t ih =>
      rw [ofTexts_concat, List.zipIdx_append, List.map_append]
      change (ofTexts ts).entries ++ [_] = _
      congr 1
      · rw [ih]
        refine List.map_congr_left ?_
        rintro ⟨u, n⟩ hun
        have hn : n < ts.length := (List.mem_zipIdx' hun).1
        simp only
        rw [textStart_append [t] hn.le]
      · simp only [Nat.zero_add, List.zipIdx_singleton, List.map_singleton]
        rw [textStart_append [t] (Nat.le_refl _), textStart_length]

theorem getElem?_entries_ofTexts {ts : List (List UInt8)} {n : Nat} {t : List UInt8}
    (h : ts[n]? = some t) :
    (ofTexts ts).entries[n]? =
      some ⟨Word.saturate (textStart ts n), Word.saturate t.length⟩ := by
  rw [entries_ofTexts, List.getElem?_map, List.getElem?_zipIdx, h]
  simp

theorem consistent_ofTexts {ts : List (List UInt8)}
    (hsize : (ofTexts ts).bytes.length < 0x100000000) : (ofTexts ts).Consistent :=
  consistent_empty.pushAll hsize

/-- A text lies inside the section with its closing zero. -/
theorem textStart_add_length_lt {ts : List (List UInt8)} {n : Nat} {t : List UInt8}
    (h : ts[n]? = some t) : textStart ts n + t.length < (ofTexts ts).bytes.length := by
  have hpiece := pieceStart_add_length_le (f := fun t : List UInt8 => t ++ [0]) h
  rw [List.length_append, List.length_singleton] at hpiece
  rw [bytes_ofTexts, textStart]
  omega

theorem bytesOf_ofTexts {ts : List (List UInt8)} {n : Nat} {t : List UInt8}
    (h : ts[n]? = some t) (hinside : textStart ts n + t.length < 0x100000000) :
    (ofTexts ts).bytesOf ⟨Word.saturate (textStart ts n), Word.saturate t.length⟩ = .ok t := by
  have hsplit : (ofTexts ts).bytes = (ts.take n).flatMap (fun t => t ++ [0]) ++
      (t ++ ([0] ++ (ts.drop (n + 1)).flatMap fun t => t ++ [0])) := by
    rw [bytes_ofTexts, flatMap_eq_append h, List.append_assoc t]
  have hlt := textStart_add_length_lt h
  have hstart := Word.toNat_saturate_le (textStart ts n)
  have hlength := Word.toNat_saturate_le t.length
  simp only [bytesOf]
  rw [if_pos (by omega)]
  exact congrArg Except.ok (take_drop_saturate hinside hsplit)

/-- The texts of the section are those that were pushed. -/
theorem texts_ofTexts {ts : List (List UInt8)}
    (hsize : (ofTexts ts).bytes.length < 0x100000000) : (ofTexts ts).texts = .ok ts :=
  @texts_pushAll {} ts [] rfl hsize

/-- The search finds a text where it was pushed, whatever texts follow. -/
theorem entryAt?_ofTexts {ts : List (List UInt8)} {n : Nat} {t : List UInt8}
    (h : ts[n]? = some t) (hinside : textStart ts n + t.length < 0xFFFFFFFF) :
    (ofTexts ts).entryAt? (Word.saturate (textStart ts n)) =
      some ⟨Word.saturate (textStart ts n), Word.saturate t.length⟩ := by
  have hentry := getElem?_entries_ofTexts h
  have hnext : textStart ts (n + 1) = textStart ts n + (t.length + 1) := by
    rw [textStart, pieceStart_succ h, List.length_append]
    rfl
  have hfind : BinarySearch.find? (fun e => compare e.offset (Word.saturate (textStart ts n)))
      (ofTexts ts).entries = some n := by
    refine BinarySearch.find?_eq ?_ hentry (Std.compare_eq_iff_eq.mpr rfl)
    intro i e he
    rw [entries_ofTexts, List.getElem?_map, Option.map_eq_some_iff] at he
    obtain ⟨⟨u, i'⟩, hu, rfl⟩ := he
    rw [List.getElem?_zipIdx, Option.map_eq_some_iff] at hu
    obtain ⟨u', -, hpair⟩ := hu
    cases hpair
    rw [Std.compare_eq_gt, UInt32.lt_iff_toNat_lt, Word.toNat_saturate_eq, Word.toNat_saturate_eq,
      Nat.zero_add]
    -- starts before this one are below it, those after it behind its closing zero
    rcases Nat.lt_or_ge n i with hlt | hge
    · have hmono : textStart ts (n + 1) ≤ textStart ts i := pieceStart_mono _ ts hlt
      omega
    · have hmono : textStart ts i ≤ textStart ts n := pieceStart_mono _ ts hge
      omega
  rw [entryAt?, hfind]
  exact hentry

/-- A text is found where it was pushed. -/
theorem textAt?_ofTexts {ts : List (List UInt8)} {n : Nat} {t : List UInt8} (h : ts[n]? = some t)
    (hinside : textStart ts n + t.length < 0xFFFFFFFF) :
    (ofTexts ts).textAt? (Word.saturate (textStart ts n)) = .ok (some (Utf8.decodeLossy t)) := by
  rw [textAt?, entryAt?_ofTexts h hinside]
  simp only [textOf, bytesOf_ofTexts h (by omega)]
  rfl

/-- A signed word that holds the offset of a text holds the text. -/
theorem holds_ofTexts {ts : List (List UInt8)} {n : Nat} {t : List UInt8} (h : ts[n]? = some t)
    (hinside : textStart ts n + t.length < 0x80000000) :
    (ofTexts ts).Holds (Word.saturateSigned (Word.saturate (textStart ts n))) t := by
  have hstart : (Word.saturate (textStart ts n)).toNat = textStart ts n :=
    Word.toNat_saturate (by omega)
  obtain ⟨hpos, hoffset⟩ := Word.toUInt32_saturateSigned (w := Word.saturate (textStart ts n))
    (by omega)
  refine ⟨hpos, _, ?_, bytesOf_ofTexts h (by omega)⟩
  rw [hoffset]
  exact entryAt?_ofTexts h (by omega)

end DataSection

end ScriptImage
