import ScriptImage.Proofs.Sections

/-!
The index of texts. Reading cuts bytes at their zero bytes, and the texts it finds, joined again,
are the bytes. Texts that are pushed behind bytes that were read are found where they were pushed.
Reading the whole again finds the same index exactly when no text that was pushed has a zero byte
and none stands behind a text left open.
-/

namespace ScriptImage

namespace DataSection

/-- Texts with a zero byte after each, except after the last one when that is left open. -/
def join (closeLast : Bool) (ts : List (List UInt8)) : List UInt8 :=
  let bs := ts.flatMap fun t => t ++ [0]
  if closeLast then bs else bs.dropLast

theorem join_isClosed {us : List (List UInt8)} {bs : List UInt8}
    (h : us.flatMap (fun u => u ++ [0]) = bs ++ if isClosed bs then [] else [0]) :
    join (isClosed bs) us = bs := by
  unfold join
  rw [h]
  cases isClosed bs <;> simp

theorem Consistent.entryAt?_eq_none_iff {d : DataSection} (h : d.Consistent) {offset : UInt32} :
    d.entryAt? offset = none ↔ ∀ e ∈ d.entries, e.offset ≠ offset := by
  rw [Option.eq_none_iff_forall_ne_some]
  simp only [ne_eq, h.entryAt?_eq_some_iff, not_and]

/-! ### Reading pushed texts back -/

/-- Reading the whole again finds the same index when nothing was pushed, or when no text that was
pushed has a zero byte and the bytes before them are closed. -/
theorem ofBytes_pushAll_iff {bs : List UInt8} {ts : List (List UInt8)}
    (hsize : ((ofBytes bs).pushAll ts).bytes.length < 0x100000000) :
    ofBytes ((ofBytes bs).pushAll ts).bytes = (ofBytes bs).pushAll ts ↔
      ts = [] ∨ (∀ t ∈ ts, (0 : UInt8) ∉ t) ∧ isClosed bs = true := by
  have hbytes : ((ofBytes bs).pushAll ts).bytes = bs ++ ts.flatMap fun t => t ++ [0] :=
    bytes_pushAll (ofBytes bs) ts
  constructor
  · intro hsame
    refine or_iff_not_imp_left.mpr fun hne => ?_
    -- the texts that reading finds are those read at first and those pushed
    have hlength := congrArg List.length hbytes
    rw [List.length_append] at hlength
    have hread : bs.length < 0x100000000 := by omega
    obtain ⟨us, hus, -, hjoin⟩ := exists_texts_ofBytes hread
    obtain ⟨vs, hvs, hzero, hall⟩ := exists_texts_ofBytes hsize
    rw [hsame] at hvs
    cases hvs.symm.trans (texts_pushAll hus hsize)
    refine ⟨fun t ht => hzero t (List.mem_append_right _ ht), ?_⟩
    -- the last text that was pushed is closed, so joining them all gives just the bytes
    have hclosed : isClosed ((ofBytes bs).pushAll ts).bytes = true := by
      cases ts using List.reverseRecOn with
      | nil => exact absurd rfl hne
      | append_singleton ts t => exact isClosed_iff.mpr (.inr ⟨_, by rw [pushAll_concat]; rfl⟩)
    rw [if_pos hclosed, List.append_nil, hbytes, List.flatMap_append, List.append_cancel_right_eq,
      hjoin] at hall
    by_contra hopen
    simp [hopen] at hall
  · rintro (rfl | ⟨hts, hclosed⟩)
    · rfl
    · have hindexed : (ofBytes bs).Indexed := ⟨rfl, isClosed_iff.mp hclosed⟩
      exact (hindexed.pushAll hts).ofBytes_eq

/-- Texts that were pushed are found again in their bytes when none of them has a zero byte. -/
theorem ofBytes_ofTexts_iff {ts : List (List UInt8)}
    (hsize : (ofTexts ts).bytes.length < 0x100000000) :
    ofBytes (ofTexts ts).bytes = ofTexts ts ↔ ∀ t ∈ ts, (0 : UInt8) ∉ t := by
  refine (@ofBytes_pushAll_iff [] ts hsize).trans ?_
  constructor
  · rintro (rfl | h)
    · simp
    · exact h.1
  · exact fun h => .inr ⟨h, rfl⟩

/-- What is found in the bytes where a text was pushed ends at the first zero byte of the text. -/
theorem textAt?_ofBytes_ofTexts {ts : List (List UInt8)} {n : Nat} {t : List UInt8}
    (hsize : (ofTexts ts).bytes.length < 0x100000000) (h : ts[n]? = some t) :
    (ofBytes (ofTexts ts).bytes).textAt? (Word.saturate (textStart ts n)) =
      .ok (some (Utf8.decodeLossy (t.takeWhile (· != 0)))) := by
  have hsplit : (ofTexts ts).bytes = (ts.take n).flatMap (fun t => t ++ [0]) ++
      (t ++ 0 :: (ts.drop (n + 1)).flatMap fun t => t ++ [0]) := by
    rw [bytes_ofTexts, flatMap_eq_append h, List.append_assoc t]
    rfl
  have hclosed : (ts.take n).flatMap (fun t => t ++ [0]) = [] ∨
      ∃ bs, (ts.take n).flatMap (fun t => t ++ [0]) = bs ++ [(0 : UInt8)] := by
    cases hts : ts.take n using List.reverseRecOn with
    | nil => exact .inl rfl
    | append_singleton us u _ =>
        refine .inr ⟨us.flatMap (fun t => t ++ [0]) ++ u, ?_⟩
        rw [List.flatMap_append, List.flatMap_singleton, List.append_assoc]
  have hmem := mem_index_of_closed hclosed t ((ts.drop (n + 1)).flatMap fun t => t ++ [0])
  rw [← hsplit] at hmem
  have hentry := (consistent_ofBytes hsize).entryAt?_eq_some_iff.mpr ⟨hmem, rfl⟩
  obtain ⟨rest, hrest⟩ := exists_eq_takeWhile t ((ts.drop (n + 1)).flatMap fun t => t ++ [0])
  have hbytes : (ofBytes (ofTexts ts).bytes).bytesOf
      ⟨Word.saturate ((ts.take n).flatMap fun t => t ++ [0]).length,
        Word.saturate (t.takeWhile (· != 0)).length⟩ = .ok (t.takeWhile (· != 0)) := by
    simp only [bytesOf]
    rw [if_pos ((consistent_ofBytes hsize).inside _ hmem).1]
    exact congrArg Except.ok (take_drop_entry hsize (hrest ▸ hsplit))
  change (ofBytes (ofTexts ts).bytes).textAt?
    (Word.saturate ((ts.take n).flatMap fun t => t ++ [0]).length) = _
  rw [textAt?, hentry]
  simp only [textOf, hbytes]
  rfl

/-- The index of texts is faithful. Its entries stand in order inside the bytes. The texts found by
reading are the bytes again when they are joined; a text that was pushed is found where it was
pushed, and nothing is found where no entry starts. Reading the whole finds the same index exactly
when nothing was pushed, or only texts without zero bytes behind a closed one. -/
theorem index_faithful {raw : List UInt8} {ts : List (List UInt8)} {d : DataSection}
    (hd : (ofBytes raw).pushAll ts = d) (hsize : d.size < 0x100000000) :
    d.Consistent ∧
    (∃ us, (ofBytes raw).texts = .ok us ∧ (∀ u ∈ us, (0 : UInt8) ∉ u) ∧
      join (isClosed raw) us = raw) ∧
    (∀ before t after, ts = before ++ t :: after →
      ∃ e, d.entryAt? (((ofBytes raw).pushAll before).push t).1 = some e ∧ d.bytesOf e = .ok t) ∧
    (∀ offset, d.entryAt? offset = none ↔ ∀ e ∈ d.entries, e.offset ≠ offset) ∧
    (ofBytes d.bytes = d ↔ ts = [] ∨ (∀ t ∈ ts, (0 : UInt8) ∉ t) ∧ isClosed raw = true) := by
  subst hd
  have hlength := congrArg List.length (bytes_pushAll (ofBytes raw) ts)
  rw [List.length_append] at hlength
  have hraw : raw.length < 0x100000000 := by
    change ((ofBytes raw).pushAll ts).bytes.length < _ at hsize
    change _ = raw.length + _ at hlength
    omega
  have hread := consistent_ofBytes hraw
  have hconsistent := hread.pushAll hsize
  obtain ⟨us, hus, hzero, hjoin⟩ := exists_texts_ofBytes hraw
  refine ⟨hconsistent, ⟨us, hus, hzero, join_isClosed hjoin⟩, ?_,
    fun offset => hconsistent.entryAt?_eq_none_iff, ofBytes_pushAll_iff hsize⟩
  rintro before t after rfl
  exact hread.exists_entryAt? hsize

end DataSection

namespace Sample

/-- Two texts, the second of them empty, and one that is left open. -/
def openBytes : List UInt8 := [104, 105, 0, 0, 101, 110, 100]

/-- A text with a zero byte is found behind an open one, though reading the whole would cut it. -/
theorem pushed_behind_open : ∃ d, (DataSection.ofBytes openBytes).pushAll [[97, 0, 98], []] = d ∧
    d.size < 0x100000000 ∧ d.entries.map TextEntry.offset = [0, 3, 4, 7, 11] ∧
      (∃ e, d.entryAt? 7 = some e ∧ d.bytesOf e = .ok [97, 0, 98]) ∧ d.entryAt? 5 = none ∧
        DataSection.ofBytes d.bytes ≠ d := by
  have hd : (DataSection.ofBytes openBytes).pushAll [[97, 0, 98], []] = _ := rfl
  obtain ⟨-, -, hfound, hnone, hsame⟩ := DataSection.index_faithful hd (by decide)
  exact ⟨_, rfl, by decide, by decide, hfound [] [97, 0, 98] [[]] rfl, (hnone 5).mpr (by decide),
    fun h => absurd (hsame.mp h) (by decide)⟩

end Sample

end ScriptImage
