import ScriptImage.Link.Merge
import ScriptImage.Proofs.Distinct
import ScriptImage.Proofs.Utf8
import ScriptImage.Proofs.Words

/-!
Data sections that agree with their bytes. The index is what reading the bytes finds, and pushing
a text without zero bytes keeps that. The texts of a module that was read have no zero bytes, and
neither have those a link makes of them, so the data of a linked image agrees with its bytes.
-/

namespace ScriptImage

namespace DataSection

/-! ### Reading an index -/

theorem index_append_text (start length : Nat) {text : List UInt8} (h : (0 : UInt8) ∉ text)
    (rest : List UInt8) :
    index start length (text ++ 0 :: rest) =
      ⟨Word.saturate start, Word.saturate (length + text.length)⟩ ::
        index (start + (length + text.length) + 1) 0 rest := by
  induction text generalizing length with
  | nil => simp [index]
  | cons b text ih =>
      rw [List.mem_cons, not_or] at h
      rw [List.cons_append, index, if_neg (Ne.symm h.1), ih (length + 1) h.2, List.length_cons,
        show length + 1 + text.length = length + (text.length + 1) by omega]

/-- Bytes behind a zero byte are read as if they stood alone, but further on. -/
theorem index_append_closed (start length : Nat) (bs rest : List UInt8) :
    index start length (bs ++ 0 :: rest) =
      index start length (bs ++ [0]) ++ index (start + length + bs.length + 1) 0 rest := by
  induction bs generalizing start length with
  | nil => simp [index]
  | cons b bs ih =>
      rw [List.cons_append, List.cons_append, index, index, List.length_cons]
      split
      · rw [ih (start + length + 1) 0, List.cons_append]
        congr 3
        omega
      · rw [ih start (length + 1)]
        congr 2
        omega

/-- The bytes of an entry are the text it was made for. -/
theorem take_drop_saturate {all before text rest : List UInt8}
    (hinside : before.length + text.length < 0x100000000)
    (hsplit : all = before ++ (text ++ rest)) :
    (all.drop (Word.saturate before.length).toNat).take (Word.saturate text.length).toNat =
      text := by
  rw [Word.toNat_saturate (by omega), Word.toNat_saturate (by omega), hsplit, List.drop_left,
    List.take_left]

theorem take_drop_entry {all before text rest : List UInt8} (hall : all.length < 0x100000000)
    (hsplit : all = before ++ (text ++ rest)) :
    (all.drop (Word.saturate before.length).toNat).take (Word.saturate text.length).toNat =
      text := by
  have hlength := congrArg List.length hsplit
  rw [List.length_append, List.length_append] at hlength
  exact take_drop_saturate (by omega) hsplit

theorem bytesOf_of_split {d : DataSection} {before text rest : List UInt8}
    (hsize : d.bytes.length < 0x100000000) (hsplit : d.bytes = before ++ (text ++ rest)) :
    d.bytesOf ⟨Word.saturate before.length, Word.saturate text.length⟩ = .ok text := by
  have hlength := congrArg List.length hsplit
  rw [List.length_append, List.length_append] at hlength
  have hstart := Word.toNat_saturate_le before.length
  have htext := Word.toNat_saturate_le text.length
  simp only [bytesOf]
  rw [if_pos (by omega)]
  exact congrArg Except.ok (take_drop_entry hsize hsplit)

/-- Whether the last text of the bytes is closed by a zero byte. -/
def isClosed (bs : List UInt8) : Bool := bs.getLast?.all (· == 0)

theorem isClosed_iff {bs : List UInt8} : isClosed bs = true ↔ bs = [] ∨ ∃ cs, bs = cs ++ [0] := by
  cases bs using List.reverseRecOn with
  | nil => simp [isClosed]
  | append_singleton bs b => simp [isClosed]

theorem isClosed_append_zero (bs rest : List UInt8) :
    isClosed (bs ++ 0 :: rest) = isClosed rest := by
  cases rest using List.reverseRecOn with
  | nil => simp [isClosed]
  | append_singleton rest b =>
      rw [← List.cons_append, ← List.append_assoc, isClosed, isClosed, List.getLast?_concat,
        List.getLast?_concat]

/-- A text without zero bytes is open unless it is empty. -/
theorem isClosed_iff_of_zero_not_mem {t : List UInt8} (h : (0 : UInt8) ∉ t) :
    isClosed t = true ↔ t = [] := by
  rw [isClosed_iff]
  refine or_iff_left ?_
  rintro ⟨cs, rfl⟩
  simp at h

/-- The texts that an index finds have no zero bytes. With a zero byte after each they are the bytes
the index was made of, and one zero byte more when the last text is open. -/
theorem exists_texts_of_index {d : DataSection} (hsize : d.bytes.length < 0x100000000)
    {bs before text : List UInt8} (hsplit : d.bytes = before ++ (text ++ bs))
    (htext : (0 : UInt8) ∉ text) :
    ∃ us, (index before.length text.length bs).mapM d.bytesOf = .ok us ∧
      (∀ u ∈ us, (0 : UInt8) ∉ u) ∧ us.flatMap (fun u => u ++ [0]) =
        text ++ bs ++ if isClosed (text ++ bs) then [] else [0] := by
  induction bs generalizing before text with
  | nil =>
      rw [index, List.append_nil]
      by_cases hempty : text = []
      · subst hempty
        exact ⟨[], rfl, by simp, rfl⟩
      · have hopen := mt (isClosed_iff_of_zero_not_mem htext).mp hempty
        refine ⟨[text], ?_, by simpa using htext, by simp [hopen]⟩
        rw [if_neg (by simpa using hempty), mapM_eq_ok_iff]
        exact .cons (bytesOf_of_split hsize hsplit) .nil
  | cons b bs ih =>
      by_cases hb : b = 0
      · -- the text that is read ends here, and the next one is empty so far
        subst hb
        have hrest : d.bytes = before ++ text ++ [0] ++ ([] ++ bs) := by simp [hsplit]
        obtain ⟨us, hus, hzero, hjoin⟩ := ih hrest (by simp)
        refine ⟨text :: us, ?_, List.forall_mem_cons.mpr ⟨htext, hzero⟩, ?_⟩
        · rw [index, if_pos rfl, mapM_eq_ok_iff]
          refine .cons (bytesOf_of_split hsize hsplit) (mapM_eq_ok_iff.mp ?_)
          simpa [Nat.add_assoc] using hus
        · rw [List.flatMap_cons, hjoin, isClosed_append_zero]
          simp
      · have hrest : d.bytes = before ++ (text ++ [b] ++ bs) := by simp [hsplit]
        obtain ⟨us, hus, hzero, hjoin⟩ := ih hrest (by simp [htext, Ne.symm hb])
        refine ⟨us, ?_, hzero, by simpa using hjoin⟩
        rw [index, if_neg hb]
        simpa using hus

/-- The texts that reading finds, with a zero byte after each, are the bytes and a zero byte for a
text that is left open. -/
theorem exists_texts_ofBytes {bs : List UInt8} (hsize : bs.length < 0x100000000) :
    ∃ us, (ofBytes bs).entries.mapM (ofBytes bs).bytesOf = .ok us ∧
      (∀ u ∈ us, (0 : UInt8) ∉ u) ∧
        us.flatMap (fun u => u ++ [0]) = bs ++ if isClosed bs then [] else [0] := by
  have hsplit : (ofBytes bs).bytes = [] ++ ([] ++ bs) := rfl
  exact exists_texts_of_index hsize hsplit (by simp)

theorem zero_not_mem_of_bytesOf {bs text : List UInt8} (hsize : bs.length < 0x100000000)
    {e : TextEntry} (he : e ∈ (ofBytes bs).entries) (h : (ofBytes bs).bytesOf e = .ok text) :
    (0 : UInt8) ∉ text := by
  obtain ⟨us, hus, hzero, -⟩ := exists_texts_ofBytes hsize
  obtain ⟨n, hn⟩ := List.mem_iff_getElem?.mp he
  obtain ⟨u, hu, hbytes⟩ := mapM_getElem? hus hn
  cases h.symm.trans hbytes
  exact hzero text (List.mem_of_getElem? hu)

/-- A text and its closing zero byte, cut at the first zero byte. -/
theorem exists_eq_takeWhile (text rest : List UInt8) :
    ∃ rest', text ++ 0 :: rest = text.takeWhile (· != 0) ++ 0 :: rest' := by
  induction text with
  | nil => exact ⟨rest, rfl⟩
  | cons b text ih =>
      by_cases hb : b = 0
      · exact ⟨text ++ 0 :: rest, by simp [hb]⟩
      · obtain ⟨rest', h⟩ := ih
        exact ⟨rest', by rw [List.takeWhile_cons_of_pos (by simpa using hb), List.cons_append, h,
          List.cons_append]⟩

/-- Behind a zero byte a text is read up to its first zero byte. -/
theorem mem_index_of_closed {before : List UInt8}
    (hbefore : before = [] ∨ ∃ bs, before = bs ++ [0]) (text rest : List UInt8) :
    ⟨Word.saturate before.length, Word.saturate (text.takeWhile (· != 0)).length⟩ ∈
      index 0 0 (before ++ (text ++ 0 :: rest)) := by
  obtain ⟨rest', hrest⟩ := exists_eq_takeWhile text rest
  have hzero : (0 : UInt8) ∉ text.takeWhile (· != 0) := fun hmem =>
    absurd (List.mem_takeWhile_imp hmem) (by decide)
  rw [hrest]
  rcases hbefore with rfl | ⟨bs, rfl⟩
  · rw [List.nil_append, index_append_text 0 0 hzero, Nat.zero_add]
    exact List.mem_cons_self
  · rw [List.append_assoc, List.singleton_append, index_append_closed, index_append_text _ _ hzero,
      List.length_append, List.length_singleton, Nat.zero_add, Nat.zero_add]
    exact List.mem_append_right _ List.mem_cons_self

/-! ### Pushing texts -/

/-- The index is what reading the bytes finds, and no text is open at their end. -/
structure Indexed (d : DataSection) : Prop where
  entries : d.entries = index 0 0 d.bytes
  closed : d.bytes = [] ∨ ∃ bs, d.bytes = bs ++ [0]

theorem indexed_empty : Indexed {} := ⟨rfl, Or.inl rfl⟩

theorem Indexed.push {d : DataSection} (h : d.Indexed) {text : List UInt8}
    (htext : (0 : UInt8) ∉ text) : (d.push text).2.Indexed := by
  refine ⟨?_, Or.inr ⟨d.bytes ++ text, rfl⟩⟩
  change d.entries ++ [⟨Word.saturate d.bytes.length, Word.saturate text.length⟩] =
    index 0 0 (d.bytes ++ text ++ [0])
  rcases h.closed with hempty | ⟨bs, hbs⟩
  · rw [h.entries, hempty, List.nil_append, index_append_text 0 0 htext []]
    simp [index]
  · rw [h.entries, hbs, List.append_assoc, List.append_assoc, List.singleton_append,
      index_append_closed 0 0 bs (text ++ [0]), index_append_text _ _ htext []]
    simp [index]

theorem Indexed.ofBytes_eq {d : DataSection} (h : d.Indexed) : ofBytes d.bytes = d := by
  rw [ofBytes, ← h.entries]

end DataSection

/-! ### Merging texts -/

theorem mem_of_mem_splitParts {separator c : Char} {cs part : List Char}
    (hpart : part ∈ splitParts separator cs) (hc : c ∈ part) : c ∈ cs := by
  induction cs generalizing part with
  | nil =>
      rw [splitParts, List.mem_singleton] at hpart
      subst hpart
      cases hc
  | cons d cs ih =>
      unfold splitParts at hpart
      split at hpart
      · rcases List.mem_cons.mp hpart with rfl | hpart
        · cases hc
        · exact List.mem_cons_of_mem _ (ih hpart hc)
      · split at hpart
        · rename_i p ps hps
          rcases List.mem_cons.mp hpart with rfl | hpart
          · rcases List.mem_cons.mp hc with rfl | hc
            · exact List.mem_cons_self
            · exact List.mem_cons_of_mem _ (ih (hps ▸ List.mem_cons_self) hc)
          · exact List.mem_cons_of_mem _ (ih (hps ▸ List.mem_cons_of_mem _ hpart) hc)
        · rw [List.mem_singleton] at hpart
          subst hpart
          rw [List.mem_singleton] at hc
          exact hc ▸ List.mem_cons_self

theorem TextKind.sourceDirs_subset {bs ds : List UInt8} (h : TextKind.ofBytes bs = .sourceDirs ds) :
    ds ⊆ bs := by
  unfold TextKind.ofBytes at h
  split at h
  · cases h
  · split at h
    · cases h
      exact List.drop_subset _ _
    · split at h
      · cases h
      · cases h

namespace TextPool

/-- The data agree with their bytes, and what is set aside has no zero characters. -/
structure Sound (p : TextPool) : Prop where
  indexed : p.data.Indexed
  properties : ∀ s ∈ p.properties, '\x00' ∉ s.toList
  sourceDirs : ∀ s ∈ p.sourceDirs, '\x00' ∉ s.toList

theorem sound_empty : Sound {} := ⟨DataSection.indexed_empty, by simp, by simp⟩

theorem zero_not_mem_directories {bs : List UInt8} (hbs : (0 : UInt8) ∉ bs) {s : String}
    (hs : s ∈ directories bs) : '\x00' ∉ s.toList := by
  obtain ⟨part, hpart, rfl⟩ := List.mem_map.mp hs
  intro hzero
  rw [String.toList_ofList] at hzero
  exact hbs (Utf8.zero_mem_of_decodeLossy
    (mem_of_mem_splitParts (List.mem_filter.mp hpart).1 hzero))

theorem Sound.addProperty {p : TextPool} (h : p.Sound) {s : String} (hs : '\x00' ∉ s.toList) :
    (p.addProperty s).Sound := by
  refine ⟨h.indexed, ?_, h.sourceDirs⟩
  intro t ht
  rcases mem_insertNew ht with ht | rfl
  · exact h.properties t ht
  · exact hs

theorem Sound.addSourceDirs {p : TextPool} (h : p.Sound) {ds : List String}
    (hds : ∀ s ∈ ds, '\x00' ∉ s.toList) : (p.addSourceDirs ds).Sound := by
  refine ⟨h.indexed, h.properties, ?_⟩
  intro s hs
  rcases mem_foldl_insertNew hs with hs | hs
  · exact h.sourceDirs s hs
  · exact hds s hs

theorem Sound.place {p : TextPool} (h : p.Sound) (share : Bool) {bs : List UInt8}
    (hbs : (0 : UInt8) ∉ bs) : (p.place share bs).2.2.Sound := by
  unfold TextPool.place
  split
  · split
    · exact h
    · exact ⟨h.indexed.push hbs, h.properties, h.sourceDirs⟩
  · exact ⟨h.indexed.push hbs, h.properties, h.sourceDirs⟩

/-- Merging the texts of data that were read. -/
theorem Sound.merge {p p' : TextPool} {moves : TextMoves} (h : p.Sound) {share : Bool}
    {bs : List UInt8} (hsize : bs.length < 0x100000000)
    (hmerge : p.merge share (.ofBytes bs) = .ok (p', moves)) : p'.Sound := by
  have step : ∀ (s : TextPool × TextMoves) (e : TextEntry) (s' : TextPool × TextMoves),
      e ∈ (DataSection.ofBytes bs).entries → s.1.Sound →
        mergeEntry share (.ofBytes bs) s e = .ok s' → s'.1.Sound := by
    intro s e s' he hs hstep
    obtain ⟨text, htext, hstep⟩ := bind_eq_ok.mp hstep
    have hzero := DataSection.zero_not_mem_of_bytesOf hsize he htext
    have hlossy : '\x00' ∉ (Utf8.decodeLossy text).toList :=
      fun h => hzero (Utf8.zero_mem_of_decodeLossy h)
    simp only at hstep
    cases hkind : TextKind.ofBytes text with
    | property =>
        rw [hkind] at hstep
        cases hstep
        exact hs.addProperty hlossy
    | sourceDirs ds =>
        rw [hkind] at hstep
        cases hstep
        refine hs.addSourceDirs fun s hmem => zero_not_mem_directories ?_ hmem
        exact fun h => hzero (TextKind.sourceDirs_subset hkind h)
    | pushList =>
        rw [hkind] at hstep
        cases hstep
        exact hs
    | plain =>
        rw [hkind] at hstep
        cases hstep
        exact hs.place share hzero
  exact foldlM_invariant (fun s : TextPool × TextMoves => s.1.Sound) step h hmerge

end TextPool

namespace Draft

theorem not_mem_intercalate {α : Type} {x : α} {separator : List α} {texts : List (List α)}
    (hseparator : x ∉ separator) (h : ∀ t ∈ texts, x ∉ t) : x ∉ separator.intercalate texts := by
  induction texts with
  | nil => simp
  | cons t texts ih =>
      cases texts with
      | nil => simpa using h
      | cons u texts =>
          rw [List.intercalate_cons_cons, List.mem_append, List.mem_append]
          rintro ((hx | hx) | hx)
          · exact h t List.mem_cons_self hx
          · exact hseparator hx
          · exact ih (fun v hv => h v (List.mem_cons_of_mem _ hv)) hx

theorem zero_not_mem_marked {marker separator : String} {texts : List String}
    (hmarker : '\x00' ∉ marker.toList) (hseparator : '\x00' ∉ separator.toList)
    (h : ∀ s ∈ texts, '\x00' ∉ s.toList) :
    '\x00' ∉ (marker ++ separator.intercalate texts).toList := by
  rw [String.toList_append, String.toList_intercalate, List.mem_append, not_or]
  refine ⟨hmarker, not_mem_intercalate hseparator ?_⟩
  intro t ht
  obtain ⟨s, hs, rfl⟩ := List.mem_map.mp ht
  exact h s hs

theorem zero_not_mem_toString (a : UInt32) : '\x00' ∉ (toString a).toList := by
  change '\x00' ∉ a.toNat.repr.toList
  rw [Nat.toList_repr]
  intro hzero
  exact absurd (Nat.isDigit_of_mem_toDigits (by decide) (by decide) hzero) (by decide)

theorem zero_not_mem_metadataTexts {d : Draft} (h : d.texts.Sound) {s : String}
    (hs : s ∈ d.metadataTexts) : '\x00' ∉ s.toList := by
  unfold metadataTexts at hs
  rcases List.mem_append.mp hs with hs | hs
  · rcases List.mem_append.mp hs with hs | hs
    · exact h.properties s hs
    · split at hs
      · cases hs
      · rw [List.mem_singleton] at hs
        subst hs
        exact zero_not_mem_marked (by decide) (by decide) h.sourceDirs
  · rw [List.mem_singleton] at hs
    subst hs
    refine zero_not_mem_marked (by decide) (by decide) ?_
    intro s hs
    obtain ⟨a, -, rfl⟩ := List.mem_map.mp hs
    exact zero_not_mem_toString a

/-- The data of the image agree with their bytes. -/
theorem indexed_finalData {d : Draft} (h : d.texts.Sound) (debug : Bool) :
    (d.finalData debug).Indexed := by
  unfold finalData
  split
  · have hmeta := fun s => zero_not_mem_metadataTexts h (s := s)
    have hdata := h.indexed
    -- the texts are pushed one after the other; each push keeps the index
    generalize d.metadataTexts = texts at hmeta
    generalize d.texts.data = data at hdata
    induction texts generalizing data with
    | nil => exact hdata
    | cons s texts ih =>
        refine ih (fun t ht => hmeta t (List.mem_cons_of_mem _ ht)) _ ?_
        exact hdata.push fun hzero => hmeta s List.mem_cons_self (Utf8.zero_mem_encode hzero)
  · exact h.indexed

end Draft

end ScriptImage
