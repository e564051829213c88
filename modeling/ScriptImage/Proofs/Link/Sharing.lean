import ScriptImage.Proofs.Sections
import ScriptImage.Proofs.Link.Placement

/-!
What becomes of texts. The data of a draft are a list of texts that only grows, so the new offset
of a text stays the start of the same text up to the image. Without sharing the list holds the
texts of all modules one by one; with sharing it holds each of them once.
-/

namespace ScriptImage

/-! ### Lists of texts -/

/-- Adds a text to the texts of an image and gives its position. -/
def addText (share : Bool) (ts : List (List UInt8)) (t : List UInt8) : Nat × List (List UInt8) :=
  if share then insertNew ts t else (ts.length, ts ++ [t])

/-- Adds texts one after the other and gives the position of each. -/
def addTexts (share : Bool) : List (List UInt8) → List (List UInt8) → List Nat × List (List UInt8)
  | ts, [] => ([], ts)
  | ts, u :: us =>
    let (n, ts) := addText share ts u
    let (ns, ts) := addTexts share ts us
    (n :: ns, ts)

section

variable {share : Bool} {ts us vs : List (List UInt8)} {t u : List UInt8}

@[simp] theorem addTexts_nil : addTexts share ts [] = ([], ts) := rfl

@[simp] theorem addTexts_cons : addTexts share ts (u :: us) =
    ((addText share ts u).1 :: (addTexts share (addText share ts u).2 us).1,
      (addTexts share (addText share ts u).2 us).2) := rfl

theorem addText_grows (share : Bool) (ts : List (List UInt8)) (t : List UInt8) :
    ts <+: (addText share ts t).2 := by
  unfold addText
  split
  · rcases insertNew_cases ts t with ⟨n, -, heq⟩ | ⟨-, heq⟩
    · rw [heq]
    · rw [heq]
      exact List.prefix_append _ _
  · exact List.prefix_append _ _

theorem addText_getElem? (share : Bool) (ts : List (List UInt8)) (t : List UInt8) :
    (addText share ts t).2[(addText share ts t).1]? = some t := by
  unfold addText
  split
  · rcases insertNew_cases ts t with ⟨n, hn, heq⟩ | ⟨-, heq⟩
    · rw [heq]
      exact hn
    · rw [heq]
      exact List.getElem?_concat_length
  · exact List.getElem?_concat_length

theorem addTexts_grows (share : Bool) (ts us : List (List UInt8)) :
    ts <+: (addTexts share ts us).2 := by
  induction us generalizing ts with
  | nil => exact List.prefix_rfl
  | cons u us ih => exact (addText_grows share ts u).trans (ih _)

theorem addTexts_append : (addTexts share ts (us ++ vs)).2 =
    (addTexts share (addTexts share ts us).2 vs).2 := by
  induction us generalizing ts with
  | nil => rfl
  | cons u us ih => simp only [List.cons_append, addTexts_cons, ih]

theorem addTexts_length : (addTexts share ts us).1.length = us.length := by
  induction us generalizing ts with
  | nil => rfl
  | cons u us ih => simp only [addTexts_cons, List.length_cons, ih]

/-- A text stands at the position it was given. -/
theorem addTexts_getElem? {k n : Nat} (hk : us[k]? = some u)
    (hn : (addTexts share ts us).1[k]? = some n) : (addTexts share ts us).2[n]? = some u := by
  induction us generalizing ts k with
  | nil => simp at hk
  | cons v us ih =>
      cases k with
      | zero =>
          rw [List.getElem?_cons_zero, Option.some.injEq] at hk
          rw [addTexts_cons, List.getElem?_cons_zero, Option.some.injEq] at hn
          subst hk hn
          have hget := addText_getElem? share ts v
          have hlt := (List.getElem?_eq_some_iff.mp hget).1
          obtain ⟨rest, hrest⟩ := addTexts_grows share (addText share ts v).2 us
          rw [addTexts_cons, ← hrest, List.getElem?_append_left hlt, hget]
      | succ k => exact ih hk hn

/-- Without sharing every text is appended. -/
theorem addTexts_false : addTexts false ts us = (List.range' ts.length us.length, ts ++ us) := by
  induction us generalizing ts with
  | nil => simp
  | cons u us ih => simp [addText, ih, List.range'_succ]

/-- With sharing the texts are those that differ, in the order in which they first occur. -/
theorem addTexts_true :
    (addTexts true ts us).2 = us.foldl (fun acc u => (insertNew acc u).2) ts := by
  induction us generalizing ts with
  | nil => rfl
  | cons u us ih => exact ih

theorem mem_addTexts (h : t ∈ (addTexts share ts us).2) : t ∈ ts ∨ t ∈ us := by
  cases share with
  | false =>
      rw [addTexts_false] at h
      exact List.mem_append.mp h
  | true =>
      rw [addTexts_true] at h
      exact mem_foldl_insertNew h

/-- Texts that differ are all appended even with sharing. -/
theorem addTexts_of_nodup (h : (ts ++ us).Nodup) :
    addTexts share ts us = (List.range' ts.length us.length, ts ++ us) := by
  cases share with
  | false => exact addTexts_false
  | true =>
      induction us generalizing ts with
      | nil => simp
      | cons u us ih =>
          have hu : u ∉ ts := fun hmem =>
            (List.nodup_append.mp h).2.2 u hmem u List.mem_cons_self rfl
          have hadd : addText true ts u = (ts.length, ts ++ [u]) := insertNew_of_not_mem hu
          rw [addTexts_cons, hadd, ih (by simpa using h)]
          simp [List.range'_succ]

end

/-! ### Pools of texts -/

/-- Whether a text is one that instructions use and none that tells about the build. -/
def TextKind.isPlain (t : List UInt8) : Bool := ofBytes t == .plain

namespace TextPool

/-- A pool whose data are a list of texts; with sharing it also knows where each of them starts. -/
structure Stores (share : Bool) (p : TextPool) (ts : List (List UInt8)) : Prop where
  data : p.data = .ofTexts ts
  known : share = true → ∀ (n : Nat) (t : List UInt8), ts[n]? = some t →
    p.shared.lookup t = some (Word.saturate (DataSection.textStart ts n))
  unknown : share = true → ∀ t ∉ ts, p.shared.lookup t = none

theorem stores_empty (share : Bool) : Stores share {} [] := ⟨rfl, by simp, fun _ _ _ => rfl⟩

variable {share : Bool} {p : TextPool} {ts : List (List UInt8)}

/-- What placing a text does to a pool. -/
structure Places (share : Bool) (p : TextPool) (ts : List (List UInt8)) (t : List UInt8) :
    Prop where
  offset : (p.place share t).1 =
    Word.saturate (DataSection.textStart (addText share ts t).2 (addText share ts t).1)
  stores : (p.place share t).2.2.Stores share (addText share ts t).2
  known : (p.place share t).2.1.toNat + (addText share ts t).2.length = ts.length + 1

theorem Stores.push_eq (h : p.Stores share ts) (t : List UInt8) :
    p.data.push t =
      (Word.saturate (DataSection.textStart (ts ++ [t]) ts.length), .ofTexts (ts ++ [t])) := by
  rw [DataSection.ofTexts_concat, DataSection.textStart_append [t] (Nat.le_refl _),
    DataSection.textStart_length, ← h.data]
  rfl

theorem Stores.places (h : p.Stores share ts) (t : List UInt8) : Places share p ts t := by
  have hpush := h.push_eq t
  cases share with
  | false =>
      refine ⟨?_, ⟨?_, by simp, by simp⟩, ?_⟩
      · exact congrArg Prod.fst hpush
      · exact congrArg Prod.snd hpush
      · simp [place, addText]
  | true =>
      rcases insertNew_cases ts t with ⟨n, hn, heq⟩ | ⟨hnew, heq⟩
      · -- the text is there already, and the pool knows where
        have hplace : p.place true t = (Word.saturate (DataSection.textStart ts n), true, p) := by
          simp only [place, if_true, h.known rfl n t hn]
        have hadd : addText true ts t = (n, ts) := heq
        refine ⟨?_, ?_, ?_⟩
        all_goals rw [hplace]
        · rw [hadd]
        · rw [hadd]
          exact h
        · rw [hadd, Nat.add_comm]
          rfl
      · have hplace : p.place true t =
            (Word.saturate (DataSection.textStart (ts ++ [t]) ts.length), false,
              { p with
                data := .ofTexts (ts ++ [t])
                shared := (t, Word.saturate (DataSection.textStart (ts ++ [t]) ts.length)) ::
                  p.shared }) := by
          simp only [place, if_true, h.unknown rfl t hnew, hpush]
        have hadd : addText true ts t = (ts.length, ts ++ [t]) := heq
        refine ⟨?_, ⟨?_, ?_, ?_⟩, ?_⟩
        all_goals rw [hplace]
        · rw [hadd]
        · rw [hadd]
        · intro _ k u hu
          rw [hadd] at hu ⊢
          simp only [List.lookup_cons]
          rcases Nat.lt_or_ge k ts.length with hlt | hge
          · -- a text that was known keeps its start
            rw [List.getElem?_append_left hlt] at hu
            have hne : u ≠ t := by
              rintro rfl
              exact hnew (List.mem_of_getElem? hu)
            rw [beq_eq_false_iff_ne.mpr hne, DataSection.textStart_append [t] hlt.le]
            exact h.known rfl k u hu
          · rw [List.getElem?_append_right hge, List.getElem?_singleton] at hu
            split at hu
            · cases hu
              rw [beq_self_eq_true, show k = ts.length by omega]
            · cases hu
        · intro _ u hu
          rw [hadd, List.mem_append, List.mem_singleton, not_or] at hu
          simp only [List.lookup_cons, beq_eq_false_iff_ne.mpr hu.2]
          exact h.unknown rfl u hu.1
        · rw [hadd]
          simp

/-! ### Merging texts -/

/-- Merges one entry of a module whose text is known. -/
def addEntry (share : Bool) (s : TextPool × TextMoves) (x : TextEntry × List UInt8) :
    TextPool × TextMoves :=
  match TextKind.ofBytes x.2 with
  | .property => (s.1.addProperty (Utf8.decodeLossy x.2), s.2)
  | .sourceDirs ds => (s.1.addSourceDirs (directories ds), s.2)
  | .pushList => s
  | .plain =>
    let (offset, known, p) := s.1.place share x.2
    (p, { offsets := (x.1.offset, offset) :: s.2.offsets, hits := s.2.hits + known.toNat })

theorem mergeEntry_eq_ok_iff {d : DataSection} {s r : TextPool × TextMoves} {e : TextEntry} :
    mergeEntry share d s e = .ok r ↔ ∃ t, d.bytesOf e = .ok t ∧ addEntry share s (e, t) = r := by
  simp only [mergeEntry, bind_eq_ok]
  refine exists_congr fun t => and_congr_right fun _ => ?_
  unfold addEntry
  cases TextKind.ofBytes t <;> simp only [pure_eq_ok]

/-- Texts are merged when their bytes are there. -/
theorem merge_eq_ok_iff {d : DataSection} {r : TextPool × TextMoves} :
    p.merge share d = .ok r ↔
      ∃ us, d.texts = .ok us ∧ (d.entries.zip us).foldl (addEntry share) (p, {}) = r := by
  unfold merge DataSection.texts
  generalize (p, ({} : TextMoves)) = s
  induction d.entries generalizing s with
  | nil => simp
  | cons e es ih =>
      rw [List.foldlM_cons, List.mapM_cons]
      simp only [bind_eq_ok, pure_eq_ok, mergeEntry_eq_ok_iff, ih]
      constructor
      · rintro ⟨_, ⟨t, ht, rfl⟩, us, hus, hr⟩
        exact ⟨t :: us, ⟨t, ht, us, hus, rfl⟩, hr⟩
      · rintro ⟨_, ⟨t, ht, us, hus, rfl⟩, hr⟩
        exact ⟨_, ⟨t, ht, rfl⟩, us, hus, hr⟩

/-- The entries whose texts are plain. -/
def plainEntries (xs : List (TextEntry × List UInt8)) : List (TextEntry × List UInt8) :=
  xs.filter fun x => TextKind.isPlain x.2

/-- The old and new offsets of entries whose texts got positions in a list. -/
def newOffsets (ts : List (List UInt8)) (xs : List (TextEntry × List UInt8)) (ns : List Nat) :
    List (UInt32 × UInt32) :=
  (xs.zip ns).map fun (x, n) => (x.1.offset, Word.saturate (DataSection.textStart ts n))

/-- Adds the plain texts of entries and gives the position of each. -/
def addEntries (share : Bool) (ts : List (List UInt8)) (xs : List (TextEntry × List UInt8)) :
    List Nat × List (List UInt8) :=
  addTexts share ts ((plainEntries xs).map Prod.snd)

/-- What merging entries with their texts does to a pool and to the table of offsets. -/
structure Adds (share : Bool) (ts : List (List UInt8)) (s r : TextPool × TextMoves)
    (xs : List (TextEntry × List UInt8)) : Prop where
  stores : r.1.Stores share (addEntries share ts xs).2
  offsets : r.2.offsets = (newOffsets (addEntries share ts xs).2 (plainEntries xs)
    (addEntries share ts xs).1).reverse ++ s.2.offsets
  hits : r.2.hits + (addEntries share ts xs).2.length =
    s.2.hits + ts.length + (plainEntries xs).length

/-- A text that is not plain leaves the list of texts and the table of offsets. -/
theorem addEntry_of_not_plain {s : TextPool × TextMoves} {x : TextEntry × List UInt8}
    (hs : s.1.Stores share ts) (hx : ¬ TextKind.isPlain x.2 = true) :
    (addEntry share s x).1.Stores share ts ∧ (addEntry share s x).2 = s.2 := by
  rw [TextKind.isPlain, beq_iff_eq] at hx
  unfold addEntry
  cases hkind : TextKind.ofBytes x.2 with
  | property => exact ⟨⟨hs.data, hs.known, hs.unknown⟩, rfl⟩
  | sourceDirs ds => exact ⟨⟨hs.data, hs.known, hs.unknown⟩, rfl⟩
  | pushList => exact ⟨hs, rfl⟩
  | plain => exact absurd hkind hx

theorem addEntry_of_plain (share : Bool) (s : TextPool × TextMoves) {x : TextEntry × List UInt8}
    (hx : TextKind.isPlain x.2 = true) :
    addEntry share s x = ((s.1.place share x.2).2.2,
      { offsets := (x.1.offset, (s.1.place share x.2).1) :: s.2.offsets
        hits := s.2.hits + (s.1.place share x.2).2.1.toNat }) := by
  rw [TextKind.isPlain, beq_iff_eq] at hx
  simp only [addEntry, hx]

theorem addEntries_of_not_plain (share : Bool) (ts : List (List UInt8))
    {x : TextEntry × List UInt8} (hx : ¬ TextKind.isPlain x.2 = true)
    (xs : List (TextEntry × List UInt8)) :
    plainEntries (x :: xs) = plainEntries xs ∧
      addEntries share ts (x :: xs) = addEntries share ts xs := by
  have hplain : plainEntries (x :: xs) = plainEntries xs := List.filter_cons_of_neg hx
  exact ⟨hplain, by rw [addEntries, hplain, addEntries]⟩

theorem addEntries_of_plain (share : Bool) (ts : List (List UInt8))
    {x : TextEntry × List UInt8} (hx : TextKind.isPlain x.2 = true)
    (xs : List (TextEntry × List UInt8)) :
    plainEntries (x :: xs) = x :: plainEntries xs ∧
      addEntries share ts (x :: xs) =
        ((addText share ts x.2).1 :: (addEntries share (addText share ts x.2).2 xs).1,
          (addEntries share (addText share ts x.2).2 xs).2) := by
  have hplain : plainEntries (x :: xs) = x :: plainEntries xs := List.filter_cons_of_pos hx
  exact ⟨hplain, by rw [addEntries, hplain, List.map_cons, addTexts_cons]; rfl⟩

theorem adds_foldl {s : TextPool × TextMoves} {xs : List (TextEntry × List UInt8)}
    (hs : s.1.Stores share ts) : Adds share ts s (xs.foldl (addEntry share) s) xs := by
  induction xs generalizing s ts with
  | nil => exact ⟨hs, rfl, rfl⟩
  | cons x xs ih =>
      by_cases hx : TextKind.isPlain x.2 = true
      · have hplaces := hs.places x.2
        obtain ⟨hplain, hentries⟩ := addEntries_of_plain share ts hx xs
        have hstep := addEntry_of_plain share s hx
        have hstores : (addEntry share s x).1.Stores share (addText share ts x.2).2 :=
          hstep ▸ hplaces.stores
        have hadd := ih hstores
        have hoffsets := hadd.offsets
        have hhits := hadd.hits
        have hknown := hplaces.known
        -- the texts behind it are appended, so it starts where it was placed
        have hmoved : Word.saturate (DataSection.textStart
            (addEntries share (addText share ts x.2).2 xs).2 (addText share ts x.2).1) =
              (s.1.place share x.2).1 := by
          have hlt := (List.getElem?_eq_some_iff.mp (addText_getElem? share ts x.2)).1
          have hgrows : _ <+: (addEntries share (addText share ts x.2).2 xs).2 :=
            addTexts_grows share _ _
          rw [hplaces.offset, DataSection.textStart_of_prefix hgrows hlt.le]
        rw [hstep] at hoffsets hhits
        rw [List.foldl_cons]
        refine ⟨?_, ?_, ?_⟩
        · rw [hentries]
          exact hadd.stores
        · rw [hstep, hplain, hentries, hoffsets]
          simp only [newOffsets, List.zip_cons_cons, List.map_cons, List.reverse_cons,
            List.append_assoc, List.singleton_append, hmoved]
        · rw [hstep, hplain, hentries, List.length_cons]
          simp only at hhits ⊢
          omega
      · obtain ⟨hstores, hmoves⟩ := addEntry_of_not_plain hs hx
        obtain ⟨hplain, hentries⟩ := addEntries_of_not_plain share ts hx xs
        have hadd := ih hstores
        exact ⟨hentries ▸ hadd.stores, by rw [hplain, hentries, ← hmoves]; exact hadd.offsets,
          by rw [hplain, hentries, ← hmoves]; exact hadd.hits⟩

/-- A new offset is the start of the text that the old one named. -/
theorem Adds.mem_offsets {s r : TextPool × TextMoves} {xs : List (TextEntry × List UInt8)}
    (h : Adds share ts s r xs) (hs : s.2.offsets = []) {old new : UInt32}
    (hmem : (old, new) ∈ r.2.offsets) :
    ∃ x ∈ xs, x.1.offset = old ∧ TextKind.isPlain x.2 = true ∧
      ∃ n, (addEntries share ts xs).2[n]? = some x.2 ∧
        new = Word.saturate (DataSection.textStart (addEntries share ts xs).2 n) := by
  rw [h.offsets, hs, List.append_nil, List.mem_reverse] at hmem
  obtain ⟨⟨x, n⟩, hxn, heq⟩ := List.mem_map.mp hmem
  cases heq
  obtain ⟨k, hk⟩ := List.mem_iff_getElem?.mp hxn
  obtain ⟨hx, hn⟩ := List.getElem?_zip_eq_some.mp hk
  obtain ⟨hmem, hplain⟩ := List.mem_filter.mp (List.mem_of_getElem? hx)
  refine ⟨x, hmem, rfl, hplain, n, addTexts_getElem? (k := k) ?_ hn, rfl⟩
  rw [List.getElem?_map, hx]
  rfl

/-- Every plain text has a new offset. -/
theorem Adds.exists_offset {s r : TextPool × TextMoves} {xs : List (TextEntry × List UInt8)}
    (h : Adds share ts s r xs) {x : TextEntry × List UInt8} (hx : x ∈ xs)
    (hplain : TextKind.isPlain x.2 = true) : ∃ new, (x.1.offset, new) ∈ r.2.offsets := by
  have hmem : x ∈ plainEntries xs := List.mem_filter.mpr ⟨hx, hplain⟩
  obtain ⟨k, hk⟩ := List.mem_iff_getElem?.mp hmem
  have hlength : (addEntries share ts xs).1.length = (plainEntries xs).length := by
    rw [addEntries, addTexts_length, List.length_map]
  have hlt := (List.getElem?_eq_some_iff.mp hk).1
  obtain ⟨n, hn⟩ : ∃ n, (addEntries share ts xs).1[k]? = some n :=
    ⟨_, List.getElem?_eq_getElem (hlength.symm ▸ hlt)⟩
  have hxn : (x, n) ∈ (plainEntries xs).zip (addEntries share ts xs).1 :=
    List.mem_of_getElem? (List.getElem?_zip_eq_some.mpr ⟨hk, hn⟩)
  rw [h.offsets]
  exact ⟨_, List.mem_append_left _ (List.mem_reverse.mpr (List.mem_map.mpr ⟨_, hxn, rfl⟩))⟩

theorem map_plainEntries {es : List TextEntry} {us : List (List UInt8)}
    (h : us.length = es.length) :
    (plainEntries (es.zip us)).map Prod.snd = us.filter TextKind.isPlain := by
  have hsnd : (es.zip us).map Prod.snd = us := List.map_snd_zip h.le
  conv_rhs => rw [← hsnd, List.filter_map]
  rfl

end TextPool

/-! ### The texts of a link -/

/-- The plain texts of modules in order. -/
def plainTexts (modules : List ObjectModule) : Except Fault (List (List UInt8)) :=
  (fun us => us.flatten.filter TextKind.isPlain) <$>
    modules.mapM fun m => m.image.data.texts

theorem isPlain_of_plainTexts {modules : List ObjectModule} {us : List (List UInt8)}
    (h : plainTexts modules = .ok us) {t : List UInt8} (ht : t ∈ us) :
    TextKind.isPlain t = true := by
  obtain ⟨vss, -, rfl⟩ := map_eq_ok.mp h
  exact (List.mem_filter.mp ht).2

theorem plainTexts_nil : plainTexts [] = .ok [] := rfl

theorem plainTexts_cons_eq_ok_iff {m : ObjectModule} {ms : List ObjectModule}
    {us : List (List UInt8)} :
    plainTexts (m :: ms) = .ok us ↔ ∃ vs ws, m.image.data.texts = .ok vs ∧
      plainTexts ms = .ok ws ∧ vs.filter TextKind.isPlain ++ ws = us := by
  unfold plainTexts
  rw [List.mapM_cons]
  simp only [map_eq_ok, bind_eq_ok, pure_eq_ok]
  constructor
  · rintro ⟨_, ⟨vs, hvs, vss, hvss, rfl⟩, rfl⟩
    exact ⟨vs, _, hvs, ⟨vss, hvss, rfl⟩, by rw [List.flatten_cons, List.filter_append]⟩
  · rintro ⟨vs, _, hvs, ⟨vss, hvss, rfl⟩, rfl⟩
    exact ⟨_, ⟨vs, hvs, vss, hvss, rfl⟩, by rw [List.flatten_cons, List.filter_append]⟩

namespace Draft

/-- How many texts were already there when they were merged. -/
def hits (d : Draft) : Nat := (d.inputs.map LinkInput.dedupHits).sum

variable {share : Bool} {total : UInt32} {d d' e b a : Draft} {m : ObjectModule} {p : Prepared}
  {cs : List CopiedScript} {ts : List (List UInt8)}

theorem Prepares.adds (h : Prepares share total d m p) (hd : d.texts.Stores share ts) :
    ∃ us moves, m.image.data.texts = .ok us ∧ us.length = m.image.data.entries.length ∧
      TextPool.Adds share ts (d.texts, {}) (p.draft.texts, moves)
        (m.image.data.entries.zip us) ∧
      p.relocation.texts = moves.offsets ∧ p.hits = moves.hits := by
  obtain ⟨moves, hmerge, htexts, hhits⟩ := h.texts
  obtain ⟨us, hus, hfold⟩ := TextPool.merge_eq_ok_iff.mp hmerge
  exact ⟨us, moves, hus, mapM_length hus, hfold ▸ TextPool.adds_foldl hd, htexts, hhits⟩

/-- A module adds its plain texts. -/
theorem Merges.stores (h : Merges share total d m d' p cs) (hd : d.texts.Stores share ts) :
    ∃ us, m.image.data.texts = .ok us ∧
      d'.texts.Stores share (addTexts share ts (us.filter TextKind.isPlain)).2 ∧
      d'.hits + (addTexts share ts (us.filter TextKind.isPlain)).2.length =
        d.hits + ts.length + (us.filter TextKind.isPlain).length := by
  obtain ⟨us, moves, hus, hlength, hadds, -, hhits⟩ := h.prepares.adds hd
  rw [← h.texts] at hadds
  have hplain := TextPool.map_plainEntries hlength
  have hentries : TextPool.addEntries share ts (m.image.data.entries.zip us) =
      addTexts share ts (us.filter TextKind.isPlain) := by
    rw [TextPool.addEntries, hplain]
  have hcount := hadds.hits
  rw [← List.length_map Prod.snd, hplain, hentries, ← hhits] at hcount
  refine ⟨us, hus, hentries ▸ hadds.stores, ?_⟩
  have hsum : d'.hits = d.hits + p.hits := by
    rw [hits, hits, h.inputs, List.map_append, List.sum_append]
    rfl
  simp only at hcount
  omega

/-- Modules merged in order add their plain texts in order. -/
theorem stores_of_mergeAll {modules : List ObjectModule} (hd : d.texts.Stores share ts)
    (h : mergeAll share total d modules = .ok e) :
    ∃ us, plainTexts modules = .ok us ∧ e.texts.Stores share (addTexts share ts us).2 ∧
      e.hits + (addTexts share ts us).2.length = d.hits + ts.length + us.length := by
  induction modules generalizing d ts with
  | nil =>
      obtain rfl := mergeAll_nil_eq_ok.mp h
      exact ⟨[], plainTexts_nil, hd, rfl⟩
  | cons m ms ih =>
      obtain ⟨d', hmerge, h⟩ := mergeAll_cons_eq_ok.mp h
      obtain ⟨p, cs, hm⟩ := merges_of_merge hmerge
      obtain ⟨us, hus, hstores, hhits⟩ := hm.stores hd
      obtain ⟨vs, hvs, hstores', hhits'⟩ := ih hstores h
      refine ⟨us.filter TextKind.isPlain ++ vs, plainTexts_cons_eq_ok_iff.mpr
        ⟨us, vs, hus, hvs, rfl⟩, ?_, ?_⟩
      · rw [addTexts_append]
        exact hstores'
      · rw [addTexts_append, List.length_append]
        omega

/-- Where the texts of a module have gone when all modules are merged. -/
theorem Step.texts {modules : List ObjectModule} {i : Nat}
    (h : Step share total modules e i m b a p cs) :
    ∃ ts, e.texts.Stores share ts ∧
      ∀ old new, p.relocation.texts.lookup old = some new →
        ∃ entry t n, entry ∈ m.image.data.entries ∧ entry.offset = old ∧
          m.image.data.bytesOf entry = .ok t ∧ TextKind.isPlain t = true ∧ ts[n]? = some t ∧
          new = Word.saturate (DataSection.textStart ts n) := by
  obtain ⟨earlier, -, hbefore, -⟩ :=
    stores_of_mergeAll (TextPool.stores_empty share) h.runBefore
  obtain ⟨us, moves, hus, hlength, hadds, htexts, -⟩ := h.merges.prepares.adds hbefore
  rw [← h.merges.texts] at hadds
  obtain ⟨later, -, hafter, -⟩ := stores_of_mergeAll hadds.stores h.runAfter
  refine ⟨_, hafter, ?_⟩
  intro old new hlookup
  obtain ⟨⟨entry, t⟩, hx, hoffset, hplain, n, hn, hnew⟩ :=
    hadds.mem_offsets rfl (mem_of_lookup (htexts ▸ hlookup))
  obtain ⟨hentry, hbytes⟩ := (DataSection.mem_zip_texts_iff hus).mp hx
  -- later texts are appended, so this one stays where it is
  have hgrows := addTexts_grows share (TextPool.addEntries share (addTexts share [] earlier).2
    (m.image.data.entries.zip us)).2 later
  have hlt := (List.getElem?_eq_some_iff.mp hn).1
  refine ⟨entry, t, n, hentry, hoffset, hbytes, hplain, ?_, ?_⟩
  · obtain ⟨rest, hrest⟩ := hgrows
    rw [← hrest, List.getElem?_append_left hlt]
    exact hn
  · rw [hnew, DataSection.textStart_of_prefix hgrows hlt.le]

/-- The data of the image are the texts of the draft, and behind them those that tell about the
build. -/
theorem finalData_eq (hd : d.texts.Stores share ts) (debug : Bool) :
    d.finalData debug = .ofTexts (ts ++ if debug then d.metadataTexts.map Utf8.encode else []) := by
  unfold finalData
  split
  · rw [DataSection.ofTexts_append, List.foldl_map, hd.data]
    rfl
  · rw [List.append_nil, hd.data]

end Draft

/-- A marked push stands in the copy with the new offset of its text. -/
theorem Relocation.pushedText_of_moveRun {r : Relocation} {m : ObjectModule} {s : Script}
    {newStart : UInt32} {run : List Instruction} {ms : List Moved}
    (h : r.moveRun m.textPushes s newStart run = .ok ms) {k : Nat} {i : Instruction}
    (hi : run[k]? = some i) (htext : m.PushesText s k i) :
    ∃ v new, i.operand = .int v ∧ 0 ≤ v.toInt ∧ r.texts.lookup v.toUInt32 = some new ∧
      (Moved.settle ms)[k]? = some { i with operand := .int (Word.saturateSigned new) } := by
  obtain ⟨hpush, ⟨v, hv⟩, a, hmem, ha⟩ := htext
  have hfeeds := not_feedsReference h hi (by simp [hv])
  obtain ⟨moved, hmoves, hsettle⟩ := settle_of_moveRun h hi hfeeds
  have halt := a.toNat_lt
  have hmarked := (hmoves.isText_iff (by omega)).mpr ⟨hpush, a, hmem, ha⟩
  have hoperand := hmoves.operand
  rw [hmarked, hv] at hoperand
  rw [hsettle, hmoves.after]
  generalize moved.after.operand = o at hoperand
  cases hoperand with
  | int hisText => cases hisText
  | text _ hpos hlookup => exact ⟨v, _, hv, hpos, hlookup, rfl⟩

/-- The build information only adds to the data. -/
theorem Draft.size_le_finalData {share : Bool} {d : Draft} {ts : List (List UInt8)}
    (hd : d.texts.Stores share ts) (debug : Bool) :
    d.texts.data.size ≤ (d.finalData debug).size := by
  rw [finalData_eq hd debug, hd.data, DataSection.size, DataSection.size,
    DataSection.bytes_ofTexts, DataSection.bytes_ofTexts, List.flatMap_append, List.length_append]
  exact Nat.le_add_right _ _

/-- At the new offset of a text the image holds the plain text that the module has at the old
one. -/
theorem Draft.Step.holds {share : Bool} {total : UInt32} {modules : List ObjectModule}
    {e b a : Draft} {i : Nat} {m : ObjectModule} {p : Prepared} {cs : List CopiedScript}
    (h : Step share total modules e i m b a p cs) (hsize : e.texts.data.size < 0x80000000)
    (debug : Bool) {old new : UInt32} (hlookup : p.relocation.texts.lookup old = some new) :
    ∃ entry t, entry ∈ m.image.data.entries ∧ entry.offset = old ∧
      m.image.data.bytesOf entry = .ok t ∧ TextKind.isPlain t = true ∧
      (e.finalData debug).Holds (Word.saturateSigned new) t := by
  obtain ⟨ts, hstores, htexts⟩ := h.texts
  obtain ⟨entry, t, n, hentry, hoffset, hbytes, hplain, hn, hnew⟩ := htexts _ _ hlookup
  refine ⟨entry, t, hentry, hoffset, hbytes, hplain, ?_⟩
  have hlt := (List.getElem?_eq_some_iff.mp hn).1
  have hinside := DataSection.textStart_add_length_lt hn
  rw [hstores.data, DataSection.size] at hsize
  rw [finalData_eq hstores debug, hnew, ← DataSection.textStart_append _ hlt.le]
  refine DataSection.holds_ofTexts (by rw [List.getElem?_append_left hlt, hn]) ?_
  rw [DataSection.textStart_append _ hlt.le]
  omega

/-- A marked push gives in the image the offset of the plain text it gave in its module. -/
theorem Draft.Step.pushedText {share debug : Bool} {total : UInt32} {modules : List ObjectModule}
    {e b a : Draft} {i : Nat} {m : ObjectModule} {p : Prepared} {cs : List CopiedScript}
    (h : Step share total modules e i m b a p cs) (hsize : (e.finalData debug).size < 0x80000000)
    {s : Script} {start : Nat} {run : List Instruction} {c : CopiedScript}
    (hc : Copied p.relocation m s start run c) {k : Nat} {ins : Instruction}
    (hins : run[k]? = some ins) (htext : m.PushesText s k ins) :
    ∃ v w t, ins.operand = .int v ∧ c.code[k]? = some { ins with operand := .int w } ∧
      (0 ≤ v.toInt ∧ ∃ entry ∈ m.image.data.entries, entry.offset = v.toUInt32 ∧
        m.image.data.bytesOf entry = .ok t) ∧
      TextKind.isPlain t = true ∧ (e.finalData debug).Holds w t := by
  obtain ⟨ts, hstores, -⟩ := h.texts
  obtain ⟨v, new, hv, hpos, hlookup, hk⟩ :=
    Relocation.pushedText_of_moveRun hc.moved hins htext
  have hle := size_le_finalData hstores debug
  obtain ⟨entry, t, hentry, hoffset, hbytes, hplain, hholds⟩ :=
    h.holds (by omega) debug hlookup
  exact ⟨v, _, t, hv, hk, ⟨hpos, entry, hentry, hoffset, hbytes⟩, hplain, hholds⟩

/-- Texts are neither lost nor mixed up. A push that is marked as the offset of a text gives in the
image the offset of the same text. Without build information the data hold the plain texts of all
modules in order; with sharing each text is there once, where it first occurs, and those that were
left out are counted. -/
theorem link_texts {options : LinkOptions} {modules : List ObjectModule} {linked : Linked}
    (hconsistent : ∀ m ∈ modules, m.image.data.Consistent)
    (h : link options modules = .ok linked) (hsize : linked.image.data.size < 0x80000000) :
    (∀ (i : Nat) (m : ObjectModule) (j : Nat) (s : Script), modules[i]? = some m →
      m.image.scripts[j]? = some s → ∃ (run : List Instruction) (s' : Script)
        (run' : List Instruction), m.image.scriptCode? s = some run ∧
          linked.image.StandsFor (copyIndex modules i j) s' run' ∧
          ∀ (k : Nat) (ins : Instruction), run[k]? = some ins → m.PushesText s k ins →
            ∃ v w t, ins.operand = .int v ∧ run'[k]? = some { ins with operand := .int w } ∧
              m.image.data.Holds v t ∧ linked.image.data.Holds w t) ∧
    ∃ us, plainTexts modules = .ok us ∧ (options.debugMetadata = false →
      (options.sharedTexts = false → linked.image.data.texts = .ok us) ∧
      (options.sharedTexts = true → linked.image.data.texts = .ok (distinct us) ∧
        (linked.manifest.inputs.map LinkInput.dedupHits).sum +
          linked.image.data.entries.length = us.length)) := by
  obtain ⟨total, e, -, he, rfl⟩ := link_eq_ok_iff.mp h
  change (e.finalData options.debugMetadata).size < _ at hsize
  constructor
  · intro i m j s hm hs
    obtain ⟨b, a, p, cs, hstep⟩ := Draft.exists_step he hm
    obtain ⟨c, run, -, hcopied, hstands⟩ := hstep.copy options.debugMetadata hs
    refine ⟨run, c.script, c.code, hcopied.closed, hstands, ?_⟩
    intro k ins hins htext
    obtain ⟨v, w, t, hv, hk, hsource, -, hholds⟩ := hstep.pushedText hsize hcopied hins htext
    exact ⟨v, w, t, hv, hk, (hconsistent m (List.mem_of_getElem? hm)).holds_iff.mpr hsource, hholds⟩
  · obtain ⟨us, hus, hstores, hhits⟩ := Draft.stores_of_mergeAll (TextPool.stores_empty _) he
    refine ⟨us, hus, ?_⟩
    intro hdebug
    have hfinal := Draft.finalData_eq hstores options.debugMetadata
    change (e.finalData options.debugMetadata).bytes.length < _ at hsize
    rw [hdebug] at hfinal hsize
    simp only [Bool.false_eq_true, if_false, List.append_nil] at hfinal
    have htexts : (e.finalData false).texts =
        .ok (addTexts options.sharedTexts [] us).2 := by
      rw [hfinal] at hsize ⊢
      exact DataSection.texts_ofTexts (by omega)
    change (_ → (e.finalData options.debugMetadata).texts = _) ∧
      (_ → (e.finalData options.debugMetadata).texts = _ ∧
        e.hits + (e.finalData options.debugMetadata).entries.length = _)
    rw [hdebug]
    refine ⟨?_, ?_⟩
    · intro hshare
      rw [htexts, hshare, addTexts_false]
      rfl
    · intro hshare
      have hdistinct : (addTexts options.sharedTexts [] us).2 = distinct us := by
        rw [hshare]
        exact addTexts_true
      refine ⟨hdistinct ▸ htexts, ?_⟩
      rw [← mapM_length htexts]
      have hempty : ({} : Draft).hits = 0 := rfl
      rw [hempty, List.length_nil] at hhits
      omega

namespace Sample

/-- Pushes the second of the texts `hi` and `ho`. -/
def speaker : ObjectModule where
  name := "speaker"
  image := {
    scripts := [{ main with boundary := 0, locals := [] }]
    code := [.pushInt 3, .sys 1, .endRun]
    data := .ofBytes [104, 105, 0, 104, 111, 0] }
  textPushes := [0]

/-- Pushes its only text, which is `ho` again. -/
def echo : ObjectModule where
  name := "echo"
  image := {
    scripts := [{ main with boundary := 0, locals := [] }]
    code := [.pushInt 0, .sys 1, .endRun]
    data := .ofBytes [104, 111, 0] }
  textPushes := [0]

theorem texts_consistent : ∀ m ∈ [speaker, echo], m.image.data.Consistent := by
  simp only [List.forall_mem_cons, List.not_mem_nil, false_implies, implies_true, and_true]
  exact ⟨DataSection.consistent_ofBytes (by decide), DataSection.consistent_ofBytes (by decide)⟩

/-- With sharing both modules push the same copy of `ho`. -/
theorem shared_texts : ∃ linked, link { sharedTexts := true } [speaker, echo] = .ok linked ∧
    linked.image.data.texts = .ok [[104, 105], [104, 111]] ∧
      (linked.manifest.inputs.map LinkInput.dedupHits).sum = 1 ∧
        ∃ s' run' w, linked.image.StandsFor 1 s' run' ∧ run'[0]? = some (.pushInt w) ∧
          linked.image.data.Holds w [104, 111] := by
  obtain ⟨linked, h, hsize⟩ : ∃ linked, link { sharedTexts := true } [speaker, echo] = .ok linked ∧
      linked.image.data.size = 6 := exists_ok (by decide +kernel)
  obtain ⟨hpushes, us, hus, hdata⟩ := link_texts texts_consistent h (by rw [hsize]; decide)
  have hplain : plainTexts [speaker, echo] = .ok [[104, 105], [104, 111], [104, 111]] :=
    toOption_eq_some.mp (by decide +kernel)
  rw [hplain, Except.ok.injEq] at hus
  subst hus
  obtain ⟨htexts, hhits⟩ := (hdata rfl).2 rfl
  have hdistinct : distinct [[104, 105], [104, 111], [(104 : UInt8), 111]] =
      [[104, 105], [104, 111]] := by decide
  rw [hdistinct] at htexts
  have hentries : linked.image.data.entries.length = 2 := (mapM_length htexts).symm
  refine ⟨linked, h, htexts, ?_, ?_⟩
  · rw [hentries] at hhits
    exact Nat.add_right_cancel hhits
  · obtain ⟨run, s', run', hrun, hstands, hall⟩ := hpushes 1 echo 0 _ rfl rfl
    have hclosed : echo.image.scriptCode? { main with boundary := 0, locals := [] } =
        some echo.image.code := rfl
    rw [hclosed, Option.some.injEq] at hrun
    subst hrun
    obtain ⟨v, w, t, hv, hw, ⟨-, entry, hentry, hbytes⟩, hholds⟩ :=
      hall 0 _ rfl ⟨rfl, ⟨0, rfl⟩, 0, List.mem_cons_self, rfl⟩
    cases hv
    have hfirst : echo.image.data.entryAt? (0 : Int32).toUInt32 = some ⟨0, 2⟩ := by
      decide +kernel
    rw [hfirst, Option.some.injEq] at hentry
    subst hentry
    cases hbytes
    exact ⟨s', run', w, hstands, hw, hholds⟩

end Sample

end ScriptImage
