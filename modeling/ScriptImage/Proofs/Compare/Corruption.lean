import ScriptImage.Proofs.Compare.Symmetry

/-!
Signs of corruption. The check of an image walks each run from its start to END, and looks up what
an operand names when it meets it. A comparison walks two runs at once, in loose mode at different
speeds, and looks up what two operands name at the same time. Where both images pass the check, none
of its lookups fails, and neither walk leaves its run.
-/

namespace ScriptImage

/-- Entries of which no finding is a sign of corruption. -/
abbrev NoneCorrupt (es : List Entry) : Prop := EachFinding (fun f => f.severity ≠ .corrupt) es

theorem FindingKind.ne_corrupt_of_severity {k : FindingKind} (h : k.severity = .mismatch) :
    k.severity ≠ .corrupt := by
  rw [h]
  decide

/-! ### Conversions inside a run -/

/-- What is passed over on the first side is a conversion, so not END. -/
theorem exists_cast_of_conversion? {ia : Instruction} {ra tb : List Instruction}
    (h : conversion? (ia :: ra) tb = some .first) :
    ∃ c rest, ra = c :: rest ∧ c.opcode = .cast := by
  have hcast {type : DataType} (hc : convertsTo type (ia :: ra) = true) :
      ∃ c rest, ra = c :: rest ∧ c.opcode = .cast := by
    cases ra with
    | nil => cases hc
    | cons c rest =>
        simp only [convertsTo, List.getElem?_cons_succ, List.getElem?_cons_zero, Option.any_some,
          Bool.and_eq_true, beq_iff_eq] at hc
        exact ⟨c, rest, rfl, hc.1⟩
  unfold conversion? at h
  split at h
  · split at h
    · split at h
      · split at h
        · rename_i hc
          exact hcast (Bool.and_eq_true _ _ ▸ hc).1
        · split at h <;> cases h
      · split at h
        · cases h
        · split at h
          · rename_i hc
            exact hcast (Bool.and_eq_true _ _ ▸ hc).1
          · cases h
      · cases h
    · cases h
  · cases h

namespace Image

/-- The run goes on behind a conversion that is passed over. -/
theorem ResolvesRun.drop_conversion {m : Image} {s : Script} {ia : Instruction}
    {ra tb : List Instruction} {skipped : Prop} [Decidable skipped] (h : m.ResolvesRun s ra)
    (hskipped : skipped → conversion? (ia :: ra) tb = some .first) :
    m.ResolvesRun s (ra.drop (if skipped then 1 else 0)) := by
  split
  · obtain ⟨cast, rest, rfl, hop⟩ := exists_cast_of_conversion? (hskipped ‹_›)
    exact h.tail (by simp [hop])
  · exact h

end Image

namespace ScriptPair

variable {p : ScriptPair} {mode : CompareMode} {ta tb : List Instruction} {ia ib : Instruction}

/-! ### Two scripts -/

/-- Operands that resolve are found the same or different. -/
theorem ne_unresolved_of_resolves {kind : ResolvedKind} (ha : p.imageA.Resolves p.a ia.operand)
    (hb : p.imageB.Resolves p.b ib.operand) :
    p.matchOperands ta tb ia ib ≠ .ok (.unresolved kind) := by
  have hbool (c : Bool) : OperandMatch.ofBool c ≠ .unresolved kind := by
    cases c <;> simp [OperandMatch.ofBool]
  have hnames {α : Type} [DecidableEq α] {k : ResolvedKind} {x y : Option α}
      (hx : ∃ m, x = some m) (hy : ∃ m, y = some m) :
      OperandMatch.ofMeanings k x y ≠ .unresolved kind := by
    obtain ⟨m, rfl⟩ := hx
    obtain ⟨n, rfl⟩ := hy
    exact hbool _
  intro h
  unfold matchOperands at h
  split at h
  · exact hbool _ (pure_eq_ok.mp h)
  · rename_i r r' hr hr'
    rw [hr] at ha
    rw [hr'] at hb
    exact hnames ha hb (pure_eq_ok.mp h)
  · rename_i r r' hr hr'
    rw [hr] at ha
    rw [hr'] at hb
    exact hnames ha hb (pure_eq_ok.mp h)
  · split at h
    · cases h
    · obtain ⟨same, -, hsame⟩ := map_eq_ok.mp h
      exact hbool _ hsame
  · split at h
    · split at h <;> exact hbool _ (pure_eq_ok.mp h)
    · exact hbool _ (pure_eq_ok.mp h)
  · exact hbool _ (pure_eq_ok.mp h)

theorem severity_of_step {s : Step} (h : p.step mode ta tb ia ib = .ok s)
    (ha : p.imageA.Resolves p.a ia.operand) (hb : p.imageB.Resolves p.b ib.operand)
    {k : FindingKind} (hk : s.found = some k) : k.severity ≠ .corrupt := by
  rcases found_of_step h hk with rfl | ⟨kind, hkind, rfl⟩
  · intro hsame
    cases hsame
  · exact absurd hkind (ne_unresolved_of_resolves ha hb)

/-- Neither walk leaves its run, and each operand on the way resolves. -/
theorem noneCorrupt_of_compareTails {pa pb : Nat} {es : List Entry}
    (h : p.compareTails mode pa pb ta tb = .ok es) (ha : p.imageA.ResolvesRun p.a ta)
    (hb : p.imageB.ResolvesRun p.b tb) : NoneCorrupt es := by
  revert es
  fun_induction compareTails p mode pa pb ta tb with
  | case1 pa pb ia ra ib rb visited =>
      rintro es ⟨⟩
      simp [EachFinding, visited]
  | case2 pa pb ia ra ib rb visited =>
      rintro es ⟨⟩
      simp [EachFinding, visited, finding, Finding.severity, FindingKind.severity]
  | case3 pa pb ia ra ib rb visited hboth hone ih =>
      intro es h
      rw [not_or] at hone
      obtain ⟨s, hs, h⟩ := bind_eq_ok.mp h
      have hhere : NoneCorrupt (visited :: (s.found.map p.finding).toList) := by
        intro f hf
        cases hfound : s.found with
        | none => simp [hfound, visited] at hf
        | some k =>
            have hf : f = ⟨some p.a.name, k⟩ := by simpa [hfound, visited, finding] using hf
            exact hf ▸ severity_of_step hs (ha.head hone.1) (hb.head hone.2) hfound
      split at h
      · cases h
        exact hhere
      · obtain ⟨rest, hrest, h⟩ := bind_eq_ok.mp h
        cases h
        simp only [dite_eq_ite] at ih
        -- seen from the second side, what is passed over there is on the first
        have hsecond : s.conversion = some .second →
            conversion? (ib :: rb) (ia :: ra) = some .first := by
          intro hc
          rw [conversion?_swap, conversion?_eq_of_step hs hc]
          rfl
        exact hhere.append (ih s ((ha.tail hone.1).drop_conversion (conversion?_eq_of_step hs))
          ((hb.tail hone.2).drop_conversion hsecond) hrest)
  | case4 pa pb ta tb hcons =>
      obtain ⟨ia, ra, rfl⟩ := List.exists_cons_of_ne_nil ha.ne_nil
      obtain ⟨ib, rb, rfl⟩ := List.exists_cons_of_ne_nil hb.ne_nil
      exact (hcons ia ra ib rb rfl rfl).elim

theorem noneCorrupt_of_compare {es : List Entry} (h : p.compare mode = .ok es)
    (ha : p.imageA.ResolvesRun p.a (p.imageA.code.drop p.a.address.toNat))
    (hb : p.imageB.ResolvesRun p.b (p.imageB.code.drop p.b.address.toNat)) : NoneCorrupt es := by
  unfold compare at h
  split at h
  · exact noneCorrupt_of_compareTails h ha hb
  · cases h
    exact eachFinding_map fun k hk =>
      FindingKind.ne_corrupt_of_severity (severity_of_headerFindings hk)

end ScriptPair

namespace CompareOptions

variable {o : CompareOptions} {a b : Image}

/-! ### Two images -/

theorem noneCorrupt_of_scriptEntries (ha : a.Valid) (hb : b.Valid) {s : Script}
    (hs : s ∈ a.scripts) {es : List Entry} (h : o.scriptEntries a b s = .ok es) :
    NoneCorrupt es := by
  unfold scriptEntries at h
  split at h
  · cases h
    simp [EachFinding, Finding.severity, FindingKind.severity]
  · rename_i t ht
    exact ScriptPair.noneCorrupt_of_compare h (ha.resolvesRun hs)
      (hb.resolvesRun (Image.of_scriptByName? ht).1)

theorem noneCorrupt_of_scriptsEntries (ha : a.Valid) (hb : b.Valid) {found : Nat}
    {es : List Entry} (h : o.scriptsEntries a b found a.scripts = .ok es) : NoneCorrupt es := by
  intro f hf
  rcases mem_scriptsEntries h hf with ⟨n, heq⟩ | ⟨s, hs, here, hhere, hmem⟩
  · cases heq
    intro hcorrupt
    cases hcorrupt
  · exact noneCorrupt_of_scriptEntries ha hb hs hhere f hmem

theorem autostartNames?_ne_none {m : Image} (hm : m.Valid) : autostartNames? m ≠ none := by
  rw [Option.ne_none_iff_exists']
  exact exists_autostartNames?_iff.mpr fun r hr =>
    (hm.autostart r hr).exists_scriptName? hm.numbered

theorem noneCorrupt_of_entries (ha : a.Valid) (hb : b.Valid) {es : List Entry}
    (h : o.entries a b = .ok es) : NoneCorrupt es := by
  by_cases hversion : a.version = b.version
  · obtain ⟨globals, scripts, hglobals, hscripts, rfl⟩ := (entries_eq_ok_iff hversion).mp h
    refine (EachFinding.append ?_ (noneCorrupt_of_scriptsEntries ha hb hscripts)).append ?_
    · exact eachFinding_map fun k hk =>
        FindingKind.ne_corrupt_of_severity (severity_of_before hglobals hk)
    · refine eachFinding_map fun k hk => ?_
      rcases severity_of_after hk with hk | ⟨-, hnone | hnone⟩ | ⟨name, rfl⟩
      · exact FindingKind.ne_corrupt_of_severity hk
      · exact absurd hnone (autostartNames?_ne_none ha)
      · exact absurd hnone (autostartNames?_ne_none hb)
      · rintro ⟨⟩
  · unfold entries at h
    rw [if_pos hversion] at h
    cases h
    simp [EachFinding, general, Finding.severity, FindingKind.severity]

end CompareOptions

/-- Between valid images a comparison finds no sign of corruption, whatever its options. It ends
unless a table of the images contradicts itself, which the check of an image does not look for. -/
theorem compare_not_corrupt {o : CompareOptions} {a b : Image} (ha : a.isValid = true)
    (hb : b.isValid = true) :
    (∀ c, compareImages o a b = .ok c → ∀ f ∈ c.report, f.severity ≠ .corrupt) ∧
      (a.data.Consistent → b.data.Consistent → b.globals.Declared →
        ∃ c, compareImages o a b = .ok c) := by
  constructor
  · intro c hc f hf
    obtain ⟨es, hes, hc⟩ := bind_eq_ok.mp hc
    cases hc
    obtain ⟨e, he, hfound⟩ := List.mem_filterMap.mp hf
    cases e with
    | visited => cases hfound
    | finding g =>
        cases hfound
        exact CompareOptions.noneCorrupt_of_entries (Image.isValid_iff.mp ha)
          (Image.isValid_iff.mp hb) hes f he
  · intro hdataA hdataB hglobals
    exact CompareOptions.exists_compareImages hdataA hdataB hglobals.consistent

namespace Sample

/-- In normal mode the conversion is found different, but nothing is corrupt. -/
theorem converted_not_corrupt : ∃ c, compareImages {} setsFloat setsConverted = .ok c ∧
    c.mismatches = 1 ∧ ∀ f ∈ c.report, f.severity ≠ .corrupt := by
  obtain ⟨hnone, -⟩ := compare_not_corrupt (o := {}) (a := setsFloat) (b := setsConverted)
    (by decide +kernel) (by decide +kernel)
  obtain ⟨c, hc, hone⟩ : ∃ c, compareImages {} setsFloat setsConverted = .ok c ∧
      c.mismatches = 1 := exists_ok (by decide +kernel)
  exact ⟨c, hc, hone, hnone c hc⟩

end Sample

end ScriptImage
