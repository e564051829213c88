import ScriptImage.Proofs.Utf8
import ScriptImage.Proofs.Link.Sharing

/-!
What a link gathers about the build. Properties and source directories of the modules are set
aside, each once, and are written behind the texts of the image. From the texts written there the
same properties and directories are gathered again.
-/

namespace ScriptImage

/-! ### Parts of a text -/

theorem splitParts_eq_splitOn (separator : Char) (cs : List Char) :
    splitParts separator cs = cs.splitOn separator := by
  induction cs with
  | nil => simp [splitParts]
  | cons c cs ih =>
      rw [List.splitOn_cons_eq_if_modifyHead, ← ih, splitParts]
      by_cases hc : c = separator
      · rw [if_pos hc, if_pos (beq_iff_eq.mpr hc)]
      · rw [if_neg hc, if_neg (by simpa using hc)]
        split
        · rename_i p ps hps
          rw [hps]
          rfl
        · rename_i hnil
          rw [ih] at hnil
          exact absurd hnil (List.splitOn_ne_nil separator cs)

theorem separator_not_mem_of_splitOn {separator : Char} {cs part : List Char}
    (h : part ∈ cs.splitOn separator) : separator ∉ part := by
  induction cs generalizing part with
  | nil => simp_all
  | cons c cs ih =>
      rw [List.splitOn_cons_eq_if_modifyHead] at h
      split at h
      · rcases List.mem_cons.mp h with rfl | h
        · exact List.not_mem_nil
        · exact ih h
      · rename_i hc
        rw [beq_iff_eq] at hc
        cases hparts : cs.splitOn separator with
        | nil => exact absurd hparts (List.splitOn_ne_nil separator cs)
        | cons p ps =>
            rw [hparts] at h ih
            rcases List.mem_cons.mp h with rfl | h
            · rw [List.mem_cons, not_or]
              exact ⟨Ne.symm hc, ih List.mem_cons_self⟩
            · exact ih (List.mem_cons_of_mem _ h)

/-- Texts without the separator are found again between separators. -/
theorem splitOn_intercalate_toList {separator : Char} {sep : String} {ss : List String}
    (hsep : sep.toList = [separator]) (hne : ss ≠ []) (h : ∀ s ∈ ss, separator ∉ s.toList) :
    (sep.intercalate ss).toList.splitOn separator = ss.map String.toList := by
  rw [String.toList_intercalate, hsep]
  refine List.splitOn_intercalate separator ?_ (by simpa using hne)
  intro l hl
  obtain ⟨s, hs, rfl⟩ := List.mem_map.mp hl
  exact h s hs

namespace TextKind

theorem ofBytes_eq_property_iff {bs : List UInt8} :
    ofBytes bs = .property ↔ Utf8.encode propertyMarker <+: bs := by
  unfold ofBytes
  split
  · rename_i h
    simpa using List.isPrefixOf_iff_prefix.mp h
  · rename_i h
    rw [List.isPrefixOf_iff_prefix] at h
    simp only [h, iff_false]
    split
    · simp
    · split <;> simp

/-- A text that begins with a marker begins with no other one. -/
theorem not_prefix_append (marker other : List UInt8) (hlength : marker.length ≤ other.length)
    (h : ¬ marker <+: other) (bs : List UInt8) : ¬ marker <+: other ++ bs :=
  fun hprefix => h (List.prefix_of_prefix_length_le hprefix (List.prefix_append _ _) hlength)

theorem ofBytes_sourceDirs (ds : List UInt8) :
    ofBytes (Utf8.encode sourceDirsMarker ++ ds) = .sourceDirs ds := by
  have hproperty := not_prefix_append (Utf8.encode propertyMarker)
    (Utf8.encode sourceDirsMarker) (by decide) (by decide) ds
  rw [ofBytes, if_neg (by rwa [List.isPrefixOf_iff_prefix]),
    if_pos (List.isPrefixOf_iff_prefix.mpr (List.prefix_append _ _)), List.drop_left]

theorem ofBytes_pushList (bs : List UInt8) :
    ofBytes (Utf8.encode pushListMarker ++ bs) = .pushList := by
  have hproperty := not_prefix_append (Utf8.encode propertyMarker)
    (Utf8.encode pushListMarker) (by decide) (by decide) bs
  have hdirs := not_prefix_append (Utf8.encode sourceDirsMarker)
    (Utf8.encode pushListMarker) (by decide) (by decide) bs
  rw [ofBytes, if_neg (by rwa [List.isPrefixOf_iff_prefix]),
    if_neg (by rwa [List.isPrefixOf_iff_prefix]),
    if_pos (List.isPrefixOf_iff_prefix.mpr (List.prefix_append _ _))]

end TextKind

/-! ### Gathering -/

/-- What has been gathered about the build. -/
structure BuildInfo where
  properties : List String := []
  sourceDirs : List String := []

namespace BuildInfo

/-- Adds what a text tells. -/
def gather (b : BuildInfo) (t : List UInt8) : BuildInfo :=
  match TextKind.ofBytes t with
  | .property => { b with properties := (insertNew b.properties (Utf8.decodeLossy t)).2 }
  | .sourceDirs ds =>
    { b with
      sourceDirs :=
        (TextPool.directories ds).foldl (fun acc d => (insertNew acc d).2) b.sourceDirs }
  | _ => b

/-- The texts that tell it again. -/
def texts (b : BuildInfo) : List String :=
  b.properties ++ (if b.sourceDirs = [] then []
    else [TextKind.sourceDirsMarker ++ ";".intercalate b.sourceDirs])

/-- These texts and behind them the list of text pushes. -/
def metadata (b : BuildInfo) (pushes : List UInt32) : List String :=
  b.texts ++ [TextKind.pushListMarker ++ ",".intercalate (pushes.map fun a => toString a)]

/-- Properties carry their marker, directories are parts of a list, and nothing is there twice. -/
structure WellFormed (b : BuildInfo) : Prop where
  properties : b.properties.Nodup
  marked : ∀ s ∈ b.properties, Utf8.encode TextKind.propertyMarker <+: Utf8.encode s
  sourceDirs : b.sourceDirs.Nodup
  parts : ∀ d ∈ b.sourceDirs, d ≠ "" ∧ ';' ∉ d.toList

theorem wellFormed_empty : WellFormed {} := ⟨.nil, by simp, .nil, by simp⟩

variable {b : BuildInfo}

theorem gather_of_isPlain {t : List UInt8} (h : TextKind.isPlain t = true) : b.gather t = b := by
  rw [TextKind.isPlain, beq_iff_eq] at h
  simp only [gather, h]

theorem gather_property {s : String}
    (h : Utf8.encode TextKind.propertyMarker <+: Utf8.encode s) :
    b.gather (Utf8.encode s) = { b with properties := (insertNew b.properties s).2 } := by
  simp only [gather, TextKind.ofBytes_eq_property_iff.mpr h, Utf8.decodeLossy_encode]

/-- A part of a list of directories is not empty and has no separator. -/
theorem part_of_mem_directories {ds : List UInt8} {d : String}
    (h : d ∈ TextPool.directories ds) : d ≠ "" ∧ ';' ∉ d.toList := by
  obtain ⟨part, hpart, rfl⟩ := List.mem_map.mp h
  obtain ⟨hpart, hempty⟩ := List.mem_filter.mp hpart
  rw [splitParts_eq_splitOn] at hpart
  refine ⟨?_, ?_⟩
  · rintro heq
    rw [← String.toList_inj, String.toList_ofList] at heq
    rw [heq] at hempty
    cases hempty
  · rw [String.toList_ofList]
    exact separator_not_mem_of_splitOn hpart

/-- A list of directories is split into the directories it was made of. -/
theorem directories_intercalate {ds : List String} (hne : ds ≠ [])
    (hparts : ∀ d ∈ ds, d ≠ "" ∧ ';' ∉ d.toList) :
    TextPool.directories (Utf8.encode (";".intercalate ds)) = ds := by
  have hsplit : (";".intercalate ds).toList.splitOn ';' = ds.map String.toList :=
    splitOn_intercalate_toList (by decide) hne fun d hd => (hparts d hd).2
  have hfilter : (ds.map String.toList).filter (fun d => !d.isEmpty) = ds.map String.toList := by
    refine List.filter_eq_self.mpr fun l hl => ?_
    obtain ⟨d, hd, rfl⟩ := List.mem_map.mp hl
    simpa using (hparts d hd).1
  rw [TextPool.directories, Utf8.decodeLossy_encode, splitParts_eq_splitOn, hsplit, hfilter,
    List.map_map]
  simp

theorem WellFormed.gather (h : b.WellFormed) (t : List UInt8) : (b.gather t).WellFormed := by
  unfold BuildInfo.gather
  cases hkind : TextKind.ofBytes t with
  | property =>
      refine ⟨nodup_insertNew h.properties _, ?_, h.sourceDirs, h.parts⟩
      intro s hs
      rcases mem_insertNew hs with hs | rfl
      · exact h.marked s hs
      · -- decoding leaves the marker in front as it is
        obtain ⟨rest, rfl⟩ := TextKind.ofBytes_eq_property_iff.mp hkind
        rw [Utf8.decodeLossy_encode_append, Utf8.encode_append]
        exact List.prefix_append _ _
  | sourceDirs ds =>
      refine ⟨h.properties, h.marked, nodup_foldl_insertNew h.sourceDirs _, ?_⟩
      intro d hd
      rcases mem_foldl_insertNew hd with hd | hd
      · exact h.parts d hd
      · exact part_of_mem_directories hd
  | pushList => exact h
  | plain => exact h

theorem WellFormed.foldl_gather (h : b.WellFormed) (ts : List (List UInt8)) :
    (ts.foldl BuildInfo.gather b).WellFormed := by
  induction ts generalizing b with
  | nil => exact h
  | cons t ts ih => exact ih (h.gather t)

theorem foldl_gather_of_isPlain {ts : List (List UInt8)} (h : ∀ t ∈ ts, TextKind.isPlain t = true) :
    ts.foldl BuildInfo.gather b = b := by
  induction ts with
  | nil => rfl
  | cons t ts ih =>
      rw [List.foldl_cons, gather_of_isPlain (h t List.mem_cons_self)]
      exact ih fun u hu => h u (List.mem_cons_of_mem _ hu)

theorem foldl_gather_properties {ss : List String}
    (h : ∀ s ∈ ss, Utf8.encode TextKind.propertyMarker <+: Utf8.encode s) :
    (ss.map Utf8.encode).foldl BuildInfo.gather b =
      { b with properties := ss.foldl (fun acc s => (insertNew acc s).2) b.properties } := by
  induction ss generalizing b with
  | nil => rfl
  | cons s ss ih =>
      rw [List.map_cons, List.foldl_cons, gather_property (h s List.mem_cons_self),
        ih fun u hu => h u (List.mem_cons_of_mem _ hu)]
      rfl

/-- What the texts tell is gathered from them again. -/
theorem WellFormed.foldl_gather_texts (h : b.WellFormed) :
    (b.texts.map Utf8.encode).foldl BuildInfo.gather {} = b := by
  rw [texts, List.map_append, List.foldl_append, foldl_gather_properties h.marked,
    foldl_insertNew_of_nodup (by simpa using h.properties)]
  split
  · rename_i hdirs
    cases b
    simp_all
  · rename_i hdirs
    rw [List.map_singleton, List.foldl_cons, List.foldl_nil, Utf8.encode_append,
      BuildInfo.gather]
    simp only [TextKind.ofBytes_sourceDirs, directories_intercalate hdirs h.parts]
    rw [foldl_insertNew_of_nodup (by simpa using h.sourceDirs)]
    rfl

/-- None of these texts is one that instructions use. -/
theorem WellFormed.not_isPlain (h : b.WellFormed) {s : String} (hs : s ∈ b.texts) :
    TextKind.isPlain (Utf8.encode s) = false := by
  rcases List.mem_append.mp hs with hs | hs
  · rw [TextKind.isPlain, TextKind.ofBytes_eq_property_iff.mpr (h.marked s hs)]
    rfl
  · split at hs
    · cases hs
    · rw [List.mem_singleton] at hs
      subst hs
      rw [Utf8.encode_append, TextKind.isPlain, TextKind.ofBytes_sourceDirs]
      rfl

/-- From the texts behind those of an image all that was gathered is gathered again. -/
theorem WellFormed.foldl_gather_metadata (h : b.WellFormed) (pushes : List UInt32) :
    ((b.metadata pushes).map Utf8.encode).foldl BuildInfo.gather {} = b := by
  rw [metadata, List.map_append, List.foldl_append, h.foldl_gather_texts, List.map_singleton,
    List.foldl_cons, List.foldl_nil, Utf8.encode_append, BuildInfo.gather,
    TextKind.ofBytes_pushList]

theorem WellFormed.metadata_not_isPlain (h : b.WellFormed) {pushes : List UInt32} {t : List UInt8}
    (ht : t ∈ (b.metadata pushes).map Utf8.encode) : TextKind.isPlain t = false := by
  obtain ⟨s, hs, rfl⟩ := List.mem_map.mp ht
  rcases List.mem_append.mp hs with hs | hs
  · exact h.not_isPlain hs
  · rw [List.mem_singleton] at hs
    subst hs
    rw [Utf8.encode_append, TextKind.isPlain, TextKind.ofBytes_pushList]
    rfl

end BuildInfo

/-! ### Pools of texts -/

namespace TextPool

variable {share : Bool} {p : TextPool}

def info (p : TextPool) : BuildInfo := ⟨p.properties, p.sourceDirs⟩

theorem place_info (share : Bool) (p : TextPool) (t : List UInt8) :
    (p.place share t).2.2.info = p.info := by
  unfold place
  split
  · split <;> rfl
  · rfl

theorem addEntry_info (share : Bool) (s : TextPool × TextMoves) (x : TextEntry × List UInt8) :
    (addEntry share s x).1.info = s.1.info.gather x.2 := by
  unfold addEntry BuildInfo.gather
  cases TextKind.ofBytes x.2 with
  | property => rfl
  | sourceDirs ds => rfl
  | pushList => rfl
  | plain => exact place_info share s.1 x.2

theorem foldl_addEntry_info (s : TextPool × TextMoves) (xs : List (TextEntry × List UInt8)) :
    (xs.foldl (addEntry share) s).1.info = (xs.map Prod.snd).foldl BuildInfo.gather s.1.info := by
  induction xs generalizing s with
  | nil => rfl
  | cons x xs ih => rw [List.foldl_cons, ih, addEntry_info, List.map_cons, List.foldl_cons]

/-- Merging data gathers what its texts tell. -/
theorem merge_info {d : DataSection} {r : TextPool × TextMoves} (h : p.merge share d = .ok r) :
    ∃ us, d.texts = .ok us ∧ r.1.info = us.foldl BuildInfo.gather p.info := by
  obtain ⟨us, hus, rfl⟩ := merge_eq_ok_iff.mp h
  refine ⟨us, hus, ?_⟩
  rw [foldl_addEntry_info, List.map_snd_zip (mapM_length hus).le]

end TextPool

namespace Draft

variable {share : Bool} {total : UInt32} {d d' e : Draft} {m : ObjectModule} {p : Prepared}
  {cs : List CopiedScript}

theorem Merges.info (h : Merges share total d m d' p cs) :
    ∃ us, m.image.data.texts = .ok us ∧
      d'.texts.info = us.foldl BuildInfo.gather d.texts.info := by
  obtain ⟨moves, hmerge, -⟩ := h.prepares.texts
  rw [h.texts]
  exact TextPool.merge_info hmerge

/-- What modules merged in order tell is gathered in a form from which it can be read. -/
theorem wellFormed_of_mergeAll {modules : List ObjectModule} (hd : d.texts.info.WellFormed)
    (h : mergeAll share total d modules = .ok e) : e.texts.info.WellFormed := by
  refine mergeAll_invariant (fun d => d.texts.info.WellFormed) ?_ hd h
  intro b m b' p cs _ hm hb
  obtain ⟨us, -, hinfo⟩ := hm.info
  exact hinfo ▸ hb.foldl_gather us

theorem metadataTexts_eq (d : Draft) : d.metadataTexts = d.texts.info.metadata d.textPushes := rfl

end Draft

end ScriptImage
