import ScriptImage.Compare.Comparison
import ScriptImage.Proofs.Compare.Matching

/-!
What the verdict says. Only a missing initial value is found without refuting equality, so two
images are equal exactly when nothing else is found in any part of them, and the report is empty
when nothing is found at all. Either way every script has a partner whose code agrees with its own.
-/

namespace ScriptImage

theorem FindingKind.counts_of_severity {k : FindingKind} (h : k.severity = .mismatch) :
    k.counts = true := by
  rw [counts, h]
  rfl

/-- What is a mismatch refutes. -/
theorem FindingKind.refutes_of_severity {k : FindingKind} (h : k.severity = .mismatch) :
    k.refutes = true := refutes_of_counts (counts_of_severity h)

@[simp] theorem countingEntries_append (es es' : List Entry) :
    countingEntries (es ++ es') = countingEntries es + countingEntries es' := by
  simp only [countingEntries, List.filterMap_append, List.countP_append]

namespace ScriptPair

variable {p : ScriptPair} {mode : CompareMode}

theorem findsNothing_map_finding_iff {ks : List FindingKind} :
    FindsNothing (.ok (ks.map p.finding)) ↔ ks = [] := by
  cases ks <;> simp [finding, Entry.finding?]

theorem findsNothing_compare_iff :
    FindsNothing (p.compare mode) ↔ p.headerFindings mode = [] ∧
      p.Agrees mode (p.imageA.code.drop p.a.address.toNat)
        (p.imageB.code.drop p.b.address.toNat) := by
  unfold compare
  split
  · rename_i hnone
    simp only [hnone, true_and, compareCode, findsNothing_compareTails_iff]
  · rename_i hsome
    rw [findsNothing_map_finding_iff]
    exact iff_of_false hsome fun h => hsome h.1

/-- Nothing is found when all is the same that the mode compares before the code. -/
theorem headerFindings_nil_iff : p.headerFindings mode = [] ↔ p.a.params = p.b.params ∧
    p.a.locals = p.b.locals ∧ (mode = .strict → p.a.id = p.b.id ∧ p.a.boundary = p.b.boundary ∧
      p.a.address = p.b.address) := by
  by_cases hmode : mode = .strict <;> simp [headerFindings, hmode]

/-- By meaning scripts have the same head when parameters and locals are the same. -/
theorem headerFindings_eq_nil_iff (hmode : mode ≠ .strict) :
    p.headerFindings mode = [] ↔ p.a.params = p.b.params ∧ p.a.locals = p.b.locals := by
  simp [headerFindings_nil_iff, hmode]

theorem severity_of_headerFindings {k : FindingKind} (hk : k ∈ p.headerFindings mode) :
    k.severity = .mismatch := by
  simp only [headerFindings, List.mem_append, List.mem_ite_nil_left, List.mem_ite_nil_right,
    List.mem_singleton] at hk
  rcases hk with (⟨-, rfl⟩ | ⟨-, rfl⟩) | ⟨-, (⟨-, rfl⟩ | ⟨-, rfl⟩) | ⟨-, rfl⟩⟩ <;> rfl

theorem allCount_of_compare {es : List Entry} (h : p.compare mode = .ok es) : AllCount es := by
  unfold compare at h
  split at h
  · exact allCount_of_compareTails h
  · cases h
    exact eachFinding_map fun k hk =>
      FindingKind.counts_of_severity (severity_of_headerFindings hk)

end ScriptPair

namespace CompareOptions

variable {o : CompareOptions} {a b : Image}

theorem findsNothing_scriptEntries_iff {s : Script} :
    FindsNothing (o.scriptEntries a b s) ↔ ∃ t, b.scriptByName? s.name = some t ∧
      FindsNothing (ScriptPair.compare ⟨a, b, s, t⟩ o.mode) := by
  unfold scriptEntries
  split
  · rename_i hnone
    simp [hnone, Entry.finding?]
  · rename_i t hsome
    simp [hsome]

theorem allCount_of_scriptEntries {s : Script} {es : List Entry}
    (h : o.scriptEntries a b s = .ok es) : AllCount es := by
  unfold scriptEntries at h
  split at h
  · cases h
    simp [EachFinding, Finding.counts, FindingKind.counts, FindingKind.severity]
  · exact ScriptPair.allCount_of_compare h

theorem countingEntries_eq_zero {es : List Entry} (h : es.filterMap Entry.finding? = []) :
    countingEntries es = 0 := by
  rw [countingEntries, h]
  rfl

/-- Nothing is found in scripts when the limit is not reached yet and nothing is found in any of
those that are compared. -/
theorem findsNothing_scriptsEntries_iff {found : Nat} {ss : List Script} :
    FindsNothing (o.scriptsEntries a b found ss) ↔ ∀ s ∈ ss, o.includes s.name = true →
      found < o.maxMismatches ∧ FindsNothing (o.scriptEntries a b s) := by
  induction ss generalizing found with
  | nil => simp [scriptsEntries]
  | cons s rest ih =>
      rw [List.forall_mem_cons]
      unfold scriptsEntries
      split
      · rename_i hskip
        rw [ih]
        simp [Bool.eq_false_iff.mpr (by simpa using hskip)]
      · rename_i hincluded
        have hincluded : o.includes s.name = true := by simpa using hincluded
        split
        · rename_i hlimit
          refine iff_of_false (by simp [Entry.finding?]) fun h => ?_
          have hlt := (h.1 hincluded).1
          omega
        · rename_i hlimit
          have hlt : found < o.maxMismatches := by omega
          rw [findsNothing_bind_iff]
          simp only [findsNothing_append_iff, ih]
          constructor
          · rintro ⟨es, hes, hnone, hrest⟩
            rw [countingEntries_eq_zero hnone, Nat.add_zero] at hrest
            exact ⟨fun _ => ⟨hlt, es, hes, hnone⟩, hrest⟩
          · rintro ⟨hs, hrest⟩
            obtain ⟨-, es, hes, hnone⟩ := hs hincluded
            refine ⟨es, hes, hnone, ?_⟩
            rwa [countingEntries_eq_zero hnone, Nat.add_zero]

/-- An entry about scripts says that their comparison stopped, or it is about one of them. -/
theorem mem_scriptsEntries {found : Nat} {ss : List Script} {es : List Entry}
    (h : o.scriptsEntries a b found ss = .ok es) {e : Entry} (he : e ∈ es) :
    (∃ n, e = .finding ⟨none, .stopped n⟩) ∨
      ∃ s ∈ ss, ∃ here, o.scriptEntries a b s = .ok here ∧ e ∈ here := by
  induction ss generalizing found es with
  | nil =>
      cases h
      cases he
  | cons s rest ih =>
      unfold scriptsEntries at h
      split at h
      · rcases ih h he with hstopped | ⟨t, ht, hentry⟩
        · exact .inl hstopped
        · exact .inr ⟨t, List.mem_cons_of_mem s ht, hentry⟩
      · split at h
        · cases h
          exact .inl ⟨found, List.mem_singleton.mp he⟩
        · obtain ⟨here, hhere, h⟩ := bind_eq_ok.mp h
          obtain ⟨more, hmore, h⟩ := bind_eq_ok.mp h
          cases h
          rcases List.mem_append.mp he with he | he
          · exact .inr ⟨s, List.mem_cons_self, here, hhere, he⟩
          · rcases ih hmore he with hstopped | ⟨t, ht, hentry⟩
            · exact .inl hstopped
            · exact .inr ⟨t, List.mem_cons_of_mem s ht, hentry⟩

theorem allRefute_of_scriptsEntries {found : Nat} {ss : List Script} {es : List Entry}
    (h : o.scriptsEntries a b found ss = .ok es) : AllRefute es := by
  intro f hf
  rcases mem_scriptsEntries h hf with ⟨n, heq⟩ | ⟨s, -, here, hhere, hmem⟩
  · cases heq
    rfl
  · exact (allCount_of_scriptEntries hhere).allRefute f hmem

/-! ### All parts together -/

theorem severity_of_globalFindings {ks : List FindingKind} (h : o.globalFindings a b = .ok ks)
    {k : FindingKind} (hk : k ∈ ks) : k.severity = .mismatch := by
  unfold globalFindings at h
  split at h
  · simp only at h
    split at h
    · cases h
      rw [List.mem_singleton.mp hk]
      rfl
    · split at h
      · cases h
        rw [List.mem_singleton.mp hk]
        rfl
      · cases h
        cases hk
  · obtain ⟨missing, -, h⟩ := bind_eq_ok.mp h
    cases h
    obtain ⟨name, -, rfl⟩ := List.mem_map.mp hk
    rfl

theorem severity_of_countFindings {k : FindingKind} (hk : k ∈ countFindings a b) :
    k.severity = .mismatch := by
  simp only [countFindings, List.mem_ite_nil_left, List.mem_singleton] at hk
  exact hk.2 ▸ rfl

/-- Names that are not started on both sides are mismatches, unless a script has no name. -/
theorem severity_of_autostartFindings {k : FindingKind} (hk : k ∈ o.autostartFindings a b) :
    k.severity = .mismatch ∨
      k = .autostartUnknown ∧ (autostartNames? a = none ∨ autostartNames? b = none) := by
  unfold autostartFindings at hk
  split at hk
  · simp only [List.mem_ite_nil_left, List.mem_singleton] at hk
    exact .inl (hk.2 ▸ rfl)
  · split at hk
    · rcases List.mem_append.mp hk with hk | hk
      · obtain ⟨name, -, rfl⟩ := List.mem_map.mp hk
        exact .inl rfl
      · obtain ⟨name, -, rfl⟩ := List.mem_map.mp hk
        exact .inl rfl
    · rename_i hnone
      refine .inr ⟨List.mem_singleton.mp hk, ?_⟩
      by_contra hboth
      rw [not_or] at hboth
      obtain ⟨⟨na, hna⟩, ⟨nb, hnb⟩⟩ :=
        hboth.imp Option.ne_none_iff_exists'.mp Option.ne_none_iff_exists'.mp
      exact hnone na nb hna hnb

theorem refutes_of_autostartFindings {k : FindingKind} (hk : k ∈ o.autostartFindings a b) :
    k.refutes = true := by
  rcases severity_of_autostartFindings hk with hmismatch | ⟨rfl, -⟩
  · exact FindingKind.refutes_of_severity hmismatch
  · rfl

theorem severity_of_dataFindings {k : FindingKind} (hk : k ∈ o.dataFindings a b) :
    k.severity = .mismatch := by
  simp only [dataFindings, List.mem_ite_nil_left, List.mem_singleton] at hk
  exact hk.2 ▸ rfl

/-- Initial values that are found different are mismatches, and only those missing are not. -/
theorem severity_of_initFindings {k : FindingKind} (hk : k ∈ o.initFindings a b) :
    k.severity = .mismatch ∨ ∃ name, k = .initMissing name := by
  unfold initFindings at hk
  split at hk
  · split at hk
    · cases List.mem_singleton.mp hk
      exact .inl rfl
    · split at hk
      · cases List.mem_singleton.mp hk
        exact .inl rfl
      · cases hk
  · obtain ⟨x, -, hx⟩ := List.mem_filterMap.mp hk
    split at hx
    · cases hx
      exact .inr ⟨x.name, rfl⟩
    · split at hx <;> cases hx
      exact .inl rfl

/-- What is found before the scripts are all mismatches. -/
theorem severity_of_before {ks : List FindingKind} (h : o.globalFindings a b = .ok ks)
    {k : FindingKind} (hk : k ∈ ks ++ countFindings a b) : k.severity = .mismatch := by
  rcases List.mem_append.mp hk with hk | hk
  · exact severity_of_globalFindings h hk
  · exact severity_of_countFindings hk

/-- What is found after the scripts are mismatches, unless a script has no name or an initial value
is missing. -/
theorem severity_of_after {k : FindingKind}
    (hk : k ∈ o.autostartFindings a b ++ o.dataFindings a b ++ o.initFindings a b) :
    k.severity = .mismatch ∨
      (k = .autostartUnknown ∧ (autostartNames? a = none ∨ autostartNames? b = none)) ∨
      ∃ name, k = .initMissing name := by
  rcases List.mem_append.mp hk with hk | hk
  · rcases List.mem_append.mp hk with hk | hk
    · exact (severity_of_autostartFindings hk).imp_right .inl
    · exact .inl (severity_of_dataFindings hk)
  · exact (severity_of_initFindings hk).imp_right .inr

/-- The entries of images of one version, part by part. -/
theorem entries_eq_ok_iff (hversion : a.version = b.version) {es : List Entry} :
    o.entries a b = .ok es ↔ ∃ globals scripts, o.globalFindings a b = .ok globals ∧
      o.scriptsEntries a b (countingEntries ((globals ++ countFindings a b).map general))
        a.scripts = .ok scripts ∧
      (globals ++ countFindings a b).map general ++ scripts ++
        (o.autostartFindings a b ++ o.dataFindings a b ++ o.initFindings a b).map general = es := by
  unfold entries
  rw [if_neg (not_not.mpr hversion)]
  simp only [bind_eq_ok, pure_eq_ok]
  constructor
  · rintro ⟨globals, hglobals, scripts, hscripts, rfl⟩
    exact ⟨globals, scripts, hglobals, hscripts, rfl⟩
  · rintro ⟨globals, scripts, hglobals, hscripts, rfl⟩
    exact ⟨globals, hglobals, scripts, hscripts, rfl⟩

theorem report_map_general (ks : List FindingKind) :
    (ks.map general).filterMap Entry.finding? = ks.map fun k => ⟨none, k⟩ := by
  rw [List.filterMap_map]
  exact congrFun List.filterMap_eq_map ks

/-- Two images in which a comparison finds nothing but initial values that are missing. -/
structure Accepts (o : CompareOptions) (a b : Image) : Prop where
  version : a.version = b.version
  globals : o.globalFindings a b = .ok []
  count : countFindings a b = []
  scripts : ∀ s ∈ a.scripts, o.includes s.name = true → 0 < o.maxMismatches ∧
    FindsNothing (o.scriptEntries a b s)
  autostart : o.autostartFindings a b = []
  data : o.dataFindings a b = []
  inits : ∀ k ∈ o.initFindings a b, k.refutes = false

/-- Options of one mode differ in what they find in the scripts only. -/
theorem Accepts.of_scripts {o' : CompareOptions} (h : o.Accepts a b) (hmode : o'.mode = o.mode)
    (hscripts : ∀ s ∈ a.scripts, o'.includes s.name = true → 0 < o'.maxMismatches ∧
      FindsNothing (o'.scriptEntries a b s)) : o'.Accepts a b := by
  obtain ⟨mode, scripts, limit, trace⟩ := o'
  cases hmode
  exact ⟨h.version, h.globals, h.count, hscripts, h.autostart, h.data, h.inits⟩

theorem Accepts.exists_report (h : o.Accepts a b) :
    ∃ c, compareImages o a b = .ok c ∧
      c.report = (o.initFindings a b).map fun k => ⟨none, k⟩ := by
  obtain ⟨scripts, hscripts, hnone⟩ : FindsNothing (o.scriptsEntries a b 0 a.scripts) :=
    findsNothing_scriptsEntries_iff.mpr h.scripts
  have hentries := (entries_eq_ok_iff h.version).mpr
    ⟨[], scripts, h.globals, by rw [h.count]; exact hscripts, rfl⟩
  refine ⟨_, by rw [compareImages, hentries]; rfl, ?_⟩
  simp only [Comparison.report, h.count, h.autostart, h.data, List.filterMap_append, hnone,
    report_map_general, List.nil_append, List.map_nil]

/-- Findings that would all refute are none when nothing is refuted. -/
theorem eq_nil_of_not_refutes {ks : List FindingKind} (hall : ∀ k ∈ ks, k.refutes = true)
    (hnone : ∀ k ∈ ks, ¬ k.refutes = true) : ks = [] :=
  List.eq_nil_iff_forall_not_mem.mpr fun k hk => hnone k hk (hall k hk)

theorem eq_nil_of_mismatches {ks : List FindingKind} (hall : ∀ k ∈ ks, k.severity = .mismatch)
    (hnone : ∀ k ∈ ks, ¬ k.refutes = true) : ks = [] :=
  eq_nil_of_not_refutes (fun k hk => FindingKind.refutes_of_severity (hall k hk)) hnone

theorem accepts_of_equal {c : Comparison} (hc : compareImages o a b = .ok c)
    (hequal : c.equal = true) : o.Accepts a b := by
  obtain ⟨es, hes, hc⟩ := bind_eq_ok.mp hc
  cases hc
  simp only [Comparison.equal, Comparison.report, Bool.not_eq_true'] at hequal
  by_cases hversion : a.version = b.version
  · obtain ⟨globals, scripts, hglobals, hscripts, rfl⟩ := (entries_eq_ok_iff hversion).mp hes
    simp only [List.filterMap_append, List.any_append, Bool.or_eq_false_iff, report_map_general,
      List.map_append, List.any_map, List.any_eq_false] at hequal
    obtain ⟨⟨⟨hglobal, hcount⟩, hscript⟩, ⟨hauto, hdata⟩, hinit⟩ := hequal
    obtain rfl := eq_nil_of_mismatches (fun k => severity_of_globalFindings hglobals) hglobal
    have hcount := eq_nil_of_mismatches (fun k => severity_of_countFindings) hcount
    have hnone := (allRefute_of_scriptsEntries hscripts).findings_eq_nil hscript
    rw [hcount] at hscripts
    exact ⟨hversion, hglobals, hcount, findsNothing_scriptsEntries_iff.mp ⟨_, hscripts, hnone⟩,
      eq_nil_of_not_refutes (fun k => refutes_of_autostartFindings) hauto,
      eq_nil_of_mismatches (fun k => severity_of_dataFindings) hdata,
      fun k hk => Bool.eq_false_iff.mpr (hinit k hk)⟩
  · unfold entries at hes
    rw [if_pos hversion] at hes
    cases hes
    cases hequal

theorem countFindings_eq_nil_iff :
    countFindings a b = [] ↔ a.scripts.length = b.scripts.length := by
  simp [countFindings]

theorem includes_of_none (hall : o.scripts = none) (name : String) : o.includes name = true := by
  rw [includes, hall]

/-- Outside loose mode each script that is compared has a partner with the same head and a run that
matches its own, pair by pair. -/
theorem Accepts.exists_matches (h : o.Accepts a b) (hmode : o.mode ≠ .loose) {s : Script}
    (hs : s ∈ a.scripts) (hincluded : o.includes s.name = true) :
    ∃ t run run', b.scriptByName? s.name = some t ∧
      ScriptPair.headerFindings ⟨a, b, s, t⟩ o.mode = [] ∧
        ScriptPair.Matches ⟨a, b, s, t⟩ o.mode (a.code.drop s.address.toNat)
          (b.code.drop t.address.toNat) run run' := by
  obtain ⟨-, hnothing⟩ := h.scripts s hs hincluded
  obtain ⟨t, ht, hcompare⟩ := findsNothing_scriptEntries_iff.mp hnothing
  obtain ⟨hhead, hagrees⟩ := ScriptPair.findsNothing_compare_iff.mp hcompare
  obtain ⟨run, run', hmatches⟩ := hagrees.exists_matches hmode
  exact ⟨t, run, run', ht, hhead, hmatches⟩

/-- Images are equal exactly when a comparison finds nothing that refutes it. -/
theorem exists_equal_iff :
    (∃ c, compareImages o a b = .ok c ∧ c.equal = true) ↔ o.Accepts a b := by
  constructor
  · rintro ⟨c, hc, hequal⟩
    exact accepts_of_equal hc hequal
  · intro h
    obtain ⟨c, hc, hreport⟩ := h.exists_report
    refine ⟨c, hc, ?_⟩
    rw [Comparison.equal, hreport, Bool.not_eq_true', List.any_map, List.any_eq_false]
    exact fun k hk => by simp [Finding.refutes, h.inits k hk]

/-- The verdict of a comparison that ends. -/
theorem equal_iff_accepts {c : Comparison} (hc : compareImages o a b = .ok c) :
    c.equal = true ↔ o.Accepts a b := by
  refine ⟨accepts_of_equal hc, fun h => ?_⟩
  obtain ⟨c', hc', hequal⟩ := exists_equal_iff.mpr h
  cases hc.symm.trans hc'
  exact hequal

end CompareOptions

end ScriptImage
