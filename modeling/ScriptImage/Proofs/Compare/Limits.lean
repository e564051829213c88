import ScriptImage.Proofs.Compare.Ending
import ScriptImage.Proofs.Compare.NormalVerdict
import ScriptImage.Proofs.Compare.Walk

/-!
Comparisons with a limit of mismatches. What is found in a script does not depend on what was found
before it, so a comparison that stops at its limit has found in the scripts before that point what a
comparison without limit finds there, and in all else the same. It stops after a mismatch only, so
the verdict does not depend on a limit of one or more.
-/

namespace ScriptImage

/-- Whether the finding says that the remaining scripts are not compared. -/
def FindingKind.isStopped : FindingKind → Bool
  | .stopped _ => true
  | _ => false

theorem FindingKind.isStopped_of_counts {k : FindingKind} (h : k.counts = true) :
    k.isStopped = false := by
  unfold isStopped
  split
  · cases h
  · rfl

theorem FindingKind.isStopped_of_severity {k : FindingKind} (h : k.severity = .mismatch) :
    k.isStopped = false := isStopped_of_counts (counts_of_severity h)

/-- What refutes counts, but for the note that the comparison stopped. -/
theorem FindingKind.refutes_eq (k : FindingKind) : k.refutes = (k.counts || k.isStopped) := by
  unfold refutes isStopped
  split <;> simp

/-- Entries none of which says that the comparison stopped. -/
abbrev NoneStopped (es : List Entry) : Prop := EachFinding (fun f => f.kind.isStopped = false) es

theorem AllCount.noneStopped {es : List Entry} (h : AllCount es) : NoneStopped es := fun f hf =>
  FindingKind.isStopped_of_counts (h f hf)

theorem countingEntries_pos_iff {es : List Entry} :
    0 < countingEntries es ↔ ∃ f, .finding f ∈ es ∧ f.counts = true := by
  simp only [countingEntries, List.countP_pos_iff, Entry.mem_findings_iff]

theorem FindingKind.counts_eq_false_iff {k : FindingKind} :
    k.counts = false ↔ k.severity = .note := by
  rw [counts, bne_eq_false_iff_eq]

namespace Comparison

variable {c : Comparison}

theorem mismatches_eq (c : Comparison) : c.mismatches = countingEntries c.entries := rfl

/-- Images are equal when all found is a note, unless the comparison stopped without a mismatch. -/
theorem equal_iff_note (h : ∀ f ∈ c.report, f.kind.isStopped = true →
    ∃ g ∈ c.report, g.counts = true) : c.equal = true ↔ ∀ f ∈ c.report, f.severity = .note := by
  rw [equal, Bool.not_eq_true', List.any_eq_false]
  constructor
  · intro hnone f hf
    have hf := Bool.eq_false_iff.mpr (hnone f hf)
    rw [Finding.refutes, FindingKind.refutes_eq, Bool.or_eq_false_iff] at hf
    exact FindingKind.counts_eq_false_iff.mp hf.1
  · intro hnote f hf hrefutes
    have hcounts {g : Finding} (hg : g ∈ c.report) : g.counts = false :=
      FindingKind.counts_eq_false_iff.mpr (hnote g hg)
    rw [Finding.refutes, FindingKind.refutes_eq, ← Finding.counts, hcounts hf,
      Bool.false_or] at hrefutes
    obtain ⟨g, hg, hgcounts⟩ := h f hf hrefutes
    rw [hcounts hg] at hgcounts
    cases hgcounts

theorem mismatches_eq_length (c : Comparison) :
    c.mismatches = (c.report.filter fun f => f.severity ≠ .note).length := by
  rw [mismatches, List.countP_eq_length_filter]
  congr 1
  refine List.filter_congr fun f _ => ?_
  show (f.severity != .note) = _
  rw [Bool.eq_iff_iff]
  simp

theorem summary_of_not_equal (h : c.equal = false) : c.summary =
    s!"files differ ({c.mode.name} mode, {c.mismatches} mismatches)" ++
      c.mode.looser?.elim "" fun next => "; try --mode " ++ next.name := by
  rw [summary, h]
  cases c.mode.looser? <;> rfl

end Comparison

/-! ### Entries cut at a limit -/

/-- Entries up to where as many mismatches are known as the limit allows, `found` of them from
before; all entries when there is no such point. -/
inductive CutAt (limit found : Nat) (full : List Entry) : List Entry → Prop
  | whole : CutAt limit found full full
  | stopped {before after : List Entry} : full = before ++ after →
      limit ≤ found + countingEntries before →
      CutAt limit found full
        (before ++ [.finding ⟨none, .stopped (found + countingEntries before)⟩])

namespace CutAt

variable {limit found : Nat} {full cut : List Entry}

theorem append {es : List Entry} (h : CutAt limit (found + countingEntries es) full cut) :
    CutAt limit found (es ++ full) (es ++ cut) := by
  cases h with
  | whole => exact .whole
  | @stopped before after hfull hlimit =>
      rw [← List.append_assoc, Nat.add_assoc, ← countingEntries_append]
      rw [Nat.add_assoc, ← countingEntries_append] at hlimit
      exact .stopped (by rw [hfull, List.append_assoc]) hlimit

/-- Nothing is cut where the limit is never reached. -/
theorem eq_of_lt (h : CutAt limit found full cut) (hlt : found + countingEntries full < limit) :
    cut = full := by
  cases h with
  | whole => rfl
  | stopped hfull hlimit =>
      rw [hfull, countingEntries_append] at hlt
      omega

/-- But for the note that ends them the entries are some of all. -/
theorem sublist (h : CutAt limit found full cut) :
    ((cut.filterMap Entry.finding?).filter fun f => !f.kind.isStopped).Sublist
      (full.filterMap Entry.finding?) := by
  cases h with
  | whole => exact List.filter_sublist
  | @stopped before after hfull _ =>
      rw [hfull, List.filterMap_append, List.filterMap_append, List.filter_append]
      exact List.filter_sublist.append (List.nil_sublist _)

theorem eq_of_not_stopped (h : CutAt limit found full cut)
    (hnone : ∀ f, .finding f ∈ cut → f.kind.isStopped = false) : cut = full := by
  cases h with
  | whole => rfl
  | stopped => cases hnone _ (List.mem_append_right _ List.mem_cons_self)

/-- Where entries are cut at a limit, mismatches stand before. -/
theorem exists_counts (h : CutAt limit 0 full cut) (hfull : NoneStopped full) (hlimit : 0 < limit)
    {f : Finding} (hf : .finding f ∈ cut) (hstopped : f.kind.isStopped = true) :
    ∃ g, .finding g ∈ cut ∧ g.counts = true := by
  cases h with
  | whole =>
      rw [hfull f hf] at hstopped
      cases hstopped
  | stopped hfull hreached =>
      rw [Nat.zero_add] at hreached
      obtain ⟨g, hg, hcounts⟩ := countingEntries_pos_iff.mp (Nat.lt_of_lt_of_le hlimit hreached)
      exact ⟨g, List.mem_append_left _ hg, hcounts⟩

end CutAt

namespace CompareOptions

variable {o : CompareOptions} {a b : Image}

/-! ### Scripts -/

/-- What is found in the scripts that are compared when there is no limit. -/
def includedEntries (o : CompareOptions) (a b : Image) (ss : List Script) :
    Except Fault (List Entry) := do
  let found ← (ss.filter fun s => o.includes s.name).mapM (o.scriptEntries a b)
  return found.flatten

theorem includedEntries_cons_eq_ok_iff {s : Script} {ss : List Script} {es : List Entry}
    (hs : o.includes s.name = true) : o.includedEntries a b (s :: ss) = .ok es ↔
      ∃ here more, o.scriptEntries a b s = .ok here ∧ o.includedEntries a b ss = .ok more ∧
        here ++ more = es := by
  simp only [includedEntries, List.filter_cons, hs, if_true, List.mapM_cons, bind_eq_ok,
    pure_eq_ok]
  constructor
  · rintro ⟨_, ⟨here, hhere, more, hmore, rfl⟩, rfl⟩
    exact ⟨here, _, hhere, ⟨more, hmore, rfl⟩, rfl⟩
  · rintro ⟨here, _, hhere, ⟨more, hmore, rfl⟩, rfl⟩
    exact ⟨_, ⟨here, hhere, more, hmore, rfl⟩, rfl⟩

theorem includedEntries_cons_of_not {s : Script} {ss : List Script}
    (hs : ¬ o.includes s.name = true) :
    o.includedEntries a b (s :: ss) = o.includedEntries a b ss := by
  simp only [includedEntries, List.filter_cons, hs, Bool.false_eq_true, if_false]

theorem allCount_of_includedEntries {ss : List Script} {full : List Entry}
    (h : o.includedEntries a b ss = .ok full) : AllCount full := by
  obtain ⟨found, hfound, h⟩ := bind_eq_ok.mp h
  cases h
  intro f hf
  obtain ⟨es, hes, hf⟩ := List.mem_flatten.mp hf
  obtain ⟨n, hn⟩ := List.mem_iff_getElem?.mp hes
  obtain ⟨s, -, hs⟩ := mapM_source hfound hn
  exact allCount_of_scriptEntries hs f hf

/-- A comparison of scripts with a limit cuts what one without a limit finds. -/
theorem exists_cut {ss : List Script} {full : List Entry} (h : o.includedEntries a b ss = .ok full)
    (found : Nat) :
    ∃ cut, o.scriptsEntries a b found ss = .ok cut ∧ CutAt o.maxMismatches found full cut := by
  induction ss generalizing found full with
  | nil =>
      cases h
      exact ⟨[], rfl, .whole⟩
  | cons s ss ih =>
      unfold scriptsEntries
      by_cases hs : o.includes s.name = true
      · obtain ⟨here, more, hhere, hmore, rfl⟩ := (includedEntries_cons_eq_ok_iff hs).mp h
        rw [if_neg (by simp [hs])]
        split
        · rename_i hlimit
          exact ⟨_, rfl, .stopped (List.nil_append _).symm hlimit⟩
        · obtain ⟨cut, hcut, hat⟩ := ih hmore (found + countingEntries here)
          refine ⟨here ++ cut, ?_, hat.append⟩
          rw [hhere, ok_bind, hcut]
          rfl
      · rw [includedEntries_cons_of_not hs] at h
        rw [if_pos (by simpa using hs)]
        exact ih h found

theorem exists_includedEntries (h : ∀ s t, ScriptPair.Ends ⟨a, b, s, t⟩ o.mode)
    (ss : List Script) : ∃ full, o.includedEntries a b ss = .ok full :=
  exists_bind_eq_ok (exists_mapM fun s _ => exists_scriptEntries h s) fun _ => ⟨_, rfl⟩

/-! ### All parts together -/

/-- What a comparison finds when the limit is never reached. -/
def Unlimited (o : CompareOptions) (a b : Image) (u : Comparison) : Prop :=
  ∀ limit, u.mismatches < limit → compareImages { o with maxMismatches := limit } a b = .ok u

/-- Only what is found in the scripts is cut. -/
theorem exists_cut_of_ends (hglobals : ∃ ks, o.globalFindings a b = .ok ks)
    (hends : ∀ s t, ScriptPair.Ends ⟨a, b, s, t⟩ o.mode) :
    ∃ full cut rest, compareImages o a b = .ok ⟨o.mode, cut ++ rest⟩ ∧
      o.Unlimited a b ⟨o.mode, full ++ rest⟩ ∧ CutAt o.maxMismatches 0 full cut ∧
      NoneStopped full ∧ NoneStopped rest := by
  by_cases hversion : a.version = b.version
  · obtain ⟨globals, hglobals⟩ := hglobals
    obtain ⟨full, hfull⟩ := exists_includedEntries hends a.scripts
    let start := (globals ++ countFindings a b).map general
    let rest := (o.autostartFindings a b ++ o.dataFindings a b ++ o.initFindings a b).map general
    obtain ⟨cut, hcut, hat⟩ := exists_cut hfull (countingEntries start)
    refine ⟨start ++ full, start ++ cut, rest, ?_, ?_, ?_, ?_, ?_⟩
    · rw [compareImages, (entries_eq_ok_iff hversion).mpr ⟨globals, cut, hglobals, hcut, rfl⟩]
      rfl
    · intro limit hlt
      rw [Comparison.mismatches_eq, countingEntries_append, countingEntries_append] at hlt
      -- what is found in one script does not depend on the limit
      obtain ⟨cut', hcut', hat'⟩ := exists_cut (o := { o with maxMismatches := limit }) hfull
        (countingEntries start)
      obtain rfl := hat'.eq_of_lt (Nat.lt_of_le_of_lt (Nat.le_add_right _ _) hlt)
      rw [compareImages, (entries_eq_ok_iff (o := { o with maxMismatches := limit }) hversion).mpr
        ⟨globals, cut', hglobals, hcut', rfl⟩]
      rfl
    · exact CutAt.append ((Nat.zero_add (countingEntries start)).symm ▸ hat)
    · exact (eachFinding_map fun k hk =>
        FindingKind.isStopped_of_severity (severity_of_before hglobals hk)).append
          (allCount_of_includedEntries hfull).noneStopped
    · refine eachFinding_map fun k hk => ?_
      rcases severity_of_after hk with hmismatch | ⟨rfl, -⟩ | ⟨name, rfl⟩
      · exact FindingKind.isStopped_of_severity hmismatch
      · rfl
      · rfl
  · refine ⟨[general (.version a.version b.version)], _, [], ?_, ?_, .whole, ?_, ?_⟩
    · rw [compareImages, entries, if_pos hversion]
      rfl
    · intro limit _
      rw [compareImages, entries, if_pos hversion]
      rfl
    · simp [EachFinding, general, FindingKind.isStopped]
    · simp [EachFinding]

theorem Accepts.withLimit (h : o.Accepts a b) {limit : Nat} (hlimit : 0 < limit) :
    ({ o with maxMismatches := limit }).Accepts a b :=
  h.of_scripts rfl fun s hs hincluded => ⟨hlimit, (h.scripts s hs hincluded).2⟩

theorem Unlimited.equal_iff {u : Comparison} (h : o.Unlimited a b u) {limit : Nat}
    (hlimit : 0 < limit) : u.equal = true ↔ ({ o with maxMismatches := limit }).Accepts a b := by
  rw [equal_iff_accepts (h (u.mismatches + 1) (Nat.lt_succ_self _))]
  exact ⟨fun h => h.withLimit hlimit, fun h => h.withLimit (Nat.succ_pos _)⟩

/-- With limit zero a script that is to be compared stops the comparison. -/
theorem accepts_iff_of_zero (hzero : o.maxMismatches = 0) : o.Accepts a b ↔
    ({ o with maxMismatches := 1 }).Accepts a b ∧
      ∀ s ∈ a.scripts, o.includes s.name = false := by
  constructor
  · refine fun h => ⟨h.withLimit Nat.one_pos, fun s hs => Bool.eq_false_iff.mpr fun hincluded => ?_⟩
    have hpos := (h.scripts s hs hincluded).1
    omega
  · rintro ⟨h, hnone⟩
    refine h.of_scripts rfl fun s hs hincluded => ?_
    rw [hnone s hs] at hincluded
    cases hincluded

end CompareOptions

/-- The verdict that the walk tells is the one its report bears out. A limit of one or more changes
what is reported, but not the verdict; with limit zero no script may be left to compare. -/
theorem compare_limit {o : CompareOptions} {a b : Image} (ha : a.data.Consistent)
    (hb : b.data.Consistent) (hglobals : b.globals.Declared) :
    ∃ c u, compareImages o a b = .ok c ∧
      o.walk a b = .ok (c.equal, { entries := c.entries, mismatches := c.mismatches }) ∧
      o.Unlimited a b u ∧
      (0 < o.maxMismatches →
        (c.equal = true ↔ ∀ f ∈ c.report, f.severity = .note) ∧ c.equal = u.equal ∧
        (c.equal = false → c.summary =
          s!"files differ ({o.mode.name} mode, {c.mismatches} mismatches)" ++
            o.mode.looser?.elim "" fun next => "; try --mode " ++ next.name) ∧
        c.mismatches = (c.report.filter fun f => f.severity ≠ .note).length ∧
        (c.report.filter fun f => !f.kind.isStopped).Sublist u.report ∧
        ((∀ f ∈ c.report, f.kind.isStopped = false) → c = u)) ∧
      (o.maxMismatches = 0 →
        (c.equal = true ↔ u.equal = true ∧ ∀ s ∈ a.scripts, o.includes s.name = false)) := by
  obtain ⟨full, cut, rest, hc, hu, hat, hfull, hrest⟩ := CompareOptions.exists_cut_of_ends (o := o)
    (CompareOptions.exists_globalFindings hglobals.consistent) fun _ _ =>
      ScriptPair.ends_of_consistent ha hb
  refine ⟨_, _, hc, CompareOptions.walk_of_compareImages hc, hu,
    fun hlimit => ⟨?_, ?_, Comparison.summary_of_not_equal, Comparison.mismatches_eq_length _,
      ?_, ?_⟩, fun hzero => ?_⟩
  · refine Comparison.equal_iff_note fun f hf hstopped => ?_
    rcases List.mem_append.mp (Entry.mem_findings_iff.mp hf) with hf | hf
    · obtain ⟨g, hg, hcounts⟩ := hat.exists_counts hfull hlimit hf hstopped
      exact ⟨g, Entry.mem_findings_iff.mpr (List.mem_append_left _ hg), hcounts⟩
    · rw [hrest f hf] at hstopped
      cases hstopped
  · exact Bool.eq_iff_iff.mpr
      ((CompareOptions.equal_iff_accepts hc).trans (hu.equal_iff hlimit).symm)
  · simp only [Comparison.report, List.filterMap_append, List.filter_append]
    exact hat.sublist.append List.filter_sublist
  · intro hnone
    rw [hat.eq_of_not_stopped fun f hf =>
      hnone f (Entry.mem_findings_iff.mpr (List.mem_append_left _ hf))]
  · rw [CompareOptions.equal_iff_accepts hc, hu.equal_iff Nat.one_pos]
    exact CompareOptions.accepts_iff_of_zero hzero

namespace Sample

/-- Both scripts of the asker with a parameter more. -/
def askedMore : Image :=
  { askerFirst with scripts := askerFirst.scripts.map fun s => { s with params := s.params + 1 } }

/-- With limit one the second of two scripts that differ is not compared. -/
theorem stopped_after_one : ∃ c u,
    compareImages { maxMismatches := 1 } askerFirst askedMore = .ok c ∧
      ({ maxMismatches := 1 } : CompareOptions).walk askerFirst askedMore =
        .ok (false, { entries := c.entries, mismatches := c.mismatches }) ∧
      ({ maxMismatches := 1 } : CompareOptions).Unlimited askerFirst askedMore u ∧
      c.report = [⟨some "asker", .params 0 1⟩, ⟨none, .stopped 1⟩] ∧ u.equal = false ∧
      (c.report.filter fun f => !f.kind.isStopped).Sublist u.report := by
  obtain ⟨c, u, hc, hwalk, hu, hlimit, -⟩ := compare_limit (o := { maxMismatches := 1 })
    (a := askerFirst) (b := askedMore) DataSection.consistent_empty DataSection.consistent_empty
    askerFirst_declared
  obtain ⟨c', hc', hreport, hequal⟩ : ∃ c,
      compareImages { maxMismatches := 1 } askerFirst askedMore = .ok c ∧
        c.report = [⟨some "asker", .params 0 1⟩, ⟨none, .stopped 1⟩] ∧ c.equal = false :=
    exists_ok (by decide +kernel)
  cases hc.symm.trans hc'
  obtain ⟨-, hsame, -, -, hsublist, -⟩ := hlimit (by decide)
  rw [hequal] at hwalk
  exact ⟨c, u, hc, hwalk, hu, hreport, hsame.symm.trans hequal, hsublist⟩

end Sample

end ScriptImage
