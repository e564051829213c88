import ScriptImage.Compare.Comparison
import ScriptImage.Proofs.Compare.Matching
import ScriptImage.Proofs.Sources

/-!
Comparisons do not depend on sources. Two bare images are compared as the images are, and what is
found is the same without the places it was found at. So images that differ in source lines and
files only have the same verdict, and findings of the same severity in the same scripts.
-/

namespace ScriptImage

/-! ### Findings without sources -/

/-- No place in any file. -/
def Location.bare : Location := ⟨"", 0, "", 0⟩

namespace FindingKind

/-- What was found, without the place. -/
def bare : FindingKind → FindingKind
  | .codeEnds _ => .codeEnds .bare
  | .endsOnOneSide _ a b => .endsOnOneSide .bare a.bare b.bare
  | .instruction _ a b => .instruction .bare a.bare b.bare
  | .unresolved _ kind a b => .unresolved .bare kind a.bare b.bare
  | k => k

@[simp] theorem severity_bare (k : FindingKind) : k.bare.severity = k.severity := by
  cases k <;> rfl

@[simp] theorem counts_bare (k : FindingKind) : k.bare.counts = k.counts := by
  cases k <;> rfl

@[simp] theorem refutes_bare (k : FindingKind) : k.bare.refutes = k.refutes := by
  cases k <;> rfl

end FindingKind

def Finding.bare (f : Finding) : Finding := { f with kind := f.kind.bare }

namespace Entry

def bare : Entry → Entry
  | .finding f => .finding f.bare
  | .visited pa a pb b => .visited pa a.bare pb b.bare

theorem map_bare_append (es more : List Entry) :
    (es ++ more).map bare = es.map bare ++ more.map bare := List.map_append

theorem findings_map_bare (es : List Entry) :
    (es.map bare).filterMap finding? = (es.filterMap finding?).map Finding.bare := by
  rw [List.filterMap_map, List.map_filterMap]
  refine List.filterMap_congr fun e _ => ?_
  cases e <;> rfl

end Entry

theorem countingEntries_map_bare (es : List Entry) :
    countingEntries (es.map Entry.bare) = countingEntries es := by
  rw [countingEntries, Entry.findings_map_bare, List.countP_map, countingEntries]
  exact List.countP_congr fun f _ => by simp [Finding.counts, Finding.bare]

namespace Comparison

def bare (c : Comparison) : Comparison := { c with entries := c.entries.map Entry.bare }

variable (c : Comparison)

theorem report_bare : c.bare.report = c.report.map Finding.bare := Entry.findings_map_bare c.entries

theorem equal_bare : c.bare.equal = c.equal := by
  rw [equal, report_bare, List.any_map, equal]
  congr 2
  exact funext fun f => f.kind.refutes_bare

theorem mismatches_bare : c.bare.mismatches = c.mismatches := countingEntries_map_bare c.entries

theorem summary_bare : c.bare.summary = c.summary := by
  rw [summary, equal_bare, mismatches_bare]
  rfl

end Comparison

/-! ### Code -/

theorem feedsReference_map_bare (tail : List Instruction) :
    feedsReference (tail.map Instruction.bare) = feedsReference tail := by
  rw [feedsReference, List.getElem?_map, Option.any_map]
  rfl

theorem convertsTo_map_bare (type : DataType) (tail : List Instruction) :
    convertsTo type (tail.map Instruction.bare) = convertsTo type tail := by
  rw [convertsTo, List.getElem?_map, Option.any_map]
  rfl

theorem conversion?_map_bare (ta tb : List Instruction) :
    conversion? (ta.map Instruction.bare) (tb.map Instruction.bare) = conversion? ta tb := by
  unfold conversion?
  simp only [convertsTo_map_bare, List.head?_map]
  cases ta.head? <;> cases tb.head? <;> rfl

namespace ScriptPair

/-- The pair without sources, of the scripts and of their images. -/
def bare (p : ScriptPair) : ScriptPair := ⟨p.imageA.bare, p.imageB.bare, p.a.bare, p.b.bare⟩

/-- What a step finds, without the place. -/
def Step.bare (s : Step) : Step := { s with found := s.found.map FindingKind.bare }

variable (p : ScriptPair) (mode : CompareMode)

theorem location_bare (ia ib : Option Instruction) :
    p.bare.location (ia.map Instruction.bare) (ib.map Instruction.bare) = .bare := by
  cases ia <;> cases ib <;> rfl

theorem matchOperands_bare (ta tb : List Instruction) (ia ib : Instruction) :
    p.bare.matchOperands (ta.map Instruction.bare) (tb.map Instruction.bare) ia.bare ib.bare =
      p.matchOperands ta tb ia ib := by
  unfold matchOperands
  simp only [feedsReference_map_bare, bare, Image.scriptName?_bare, Image.refName?_bare,
    Image.floatVarName?_bare]
  rfl

theorem step_bare (ta tb : List Instruction) (ia ib : Instruction) :
    p.bare.step mode (ta.map Instruction.bare) (tb.map Instruction.bare) ia.bare ib.bare =
      Step.bare <$> p.step mode ta tb ia ib := by
  have hlocation := p.location_bare (some ia) (some ib)
  unfold step
  simp only [Option.map_some] at hlocation
  simp only [conversion?_map_bare, matchOperands_bare, hlocation, Instruction.opcode_bare,
    Instruction.mode_bare, Instruction.type_bare, Instruction.operand_bare]
  split
  · rfl
  · split
    · rfl
    · split
      · split <;> rfl
      · exact bind_same_comm fun m _ => by cases m <;> rfl

theorem map_finding_bare (fs : List FindingKind) :
    (fs.map FindingKind.bare).map p.bare.finding = (fs.map p.finding).map Entry.bare := by
  rw [List.map_map, List.map_map]
  rfl

/-- Comparing code without sources visits the same pairs and finds the same. -/
theorem compareTails_bare (pa pb : Nat) (ta tb : List Instruction) :
    p.bare.compareTails mode pa pb (ta.map Instruction.bare) (tb.map Instruction.bare) =
      List.map Entry.bare <$> p.compareTails mode pa pb ta tb := by
  fun_induction compareTails p mode pa pb ta tb with
  | case1 pa pb ia ra ib rb visited hboth =>
      rw [List.map_cons, List.map_cons, compareTails, Instruction.opcode_bare,
        Instruction.opcode_bare, if_pos hboth]
      rfl
  | case2 pa pb ia ra ib rb visited hboth hone =>
      have hlocation := p.location_bare (some ia) (some ib)
      rw [Option.map_some, Option.map_some] at hlocation
      rw [List.map_cons, List.map_cons, compareTails, Instruction.opcode_bare,
        Instruction.opcode_bare, if_neg hboth, if_pos hone, hlocation]
      rfl
  | case3 pa pb ia ra ib rb visited hboth hone ih =>
      have hstep := p.step_bare mode (ia :: ra) (ib :: rb) ia ib
      rw [List.map_cons, List.map_cons] at hstep
      rw [List.map_cons, List.map_cons, compareTails, Instruction.opcode_bare,
        Instruction.opcode_bare, if_neg hboth, if_neg hone]
      refine bind_map_comm hstep fun s => ?_
      have hfound : ((Step.bare s).found.map p.bare.finding).toList =
          (s.found.map p.finding).toList.map Entry.bare := by
        obtain ⟨found, stop, conversion⟩ := s
        cases found <;> rfl
      rw [hfound]
      change (if s.stop = true then _ else _) =
        List.map Entry.bare <$> if s.stop = true then _ else _
      split
      · rfl
      · have hrest := ih s
        simp only [dite_eq_ite, List.map_drop] at hrest
        exact bind_map_comm hrest fun rest => by simp [visited, Entry.bare]
  | case4 pa pb ta tb hends =>
      rw [compareTails]
      · rw [List.head?_map, List.head?_map, location_bare]
        rfl
      · intro ia ra ib rb hta htb
        obtain ⟨i, r, rfl, -, -⟩ := List.map_eq_cons_iff.mp hta
        obtain ⟨j, t, rfl, -, -⟩ := List.map_eq_cons_iff.mp htb
        exact hends i r j t rfl rfl

theorem headerFindings_bare : p.bare.headerFindings mode = p.headerFindings mode := rfl

/-- What is found in front of the code has no place. -/
theorem headerFindings_map_bare :
    (p.headerFindings mode).map FindingKind.bare = p.headerFindings mode := by
  unfold headerFindings
  simp only [List.map_append, apply_ite (List.map FindingKind.bare), List.map_cons, List.map_nil,
    FindingKind.bare]

theorem compare_bare : p.bare.compare mode = List.map Entry.bare <$> p.compare mode := by
  have hfindings := p.map_finding_bare (p.headerFindings mode)
  rw [headerFindings_map_bare] at hfindings
  unfold compare
  rw [headerFindings_bare]
  split
  · have htails := p.compareTails_bare mode p.a.address.toNat p.b.address.toNat
      (p.imageA.code.drop p.a.address.toNat) (p.imageB.code.drop p.b.address.toNat)
    rw [List.map_drop, List.map_drop] at htails
    exact htails
  · exact congrArg Except.ok hfindings

end ScriptPair

/-! ### Whole images -/

namespace CompareOptions

variable (o : CompareOptions) (a b : Image)

theorem scriptEntries_bare (s : Script) :
    o.scriptEntries a.bare b.bare s.bare = List.map Entry.bare <$> o.scriptEntries a b s := by
  unfold scriptEntries
  rw [Script.name_bare, Image.scriptByName?_bare]
  cases b.scriptByName? s.name with
  | none => rfl
  | some t => exact ScriptPair.compare_bare ⟨a, b, s, t⟩ o.mode

/-- The limit is reached at the same script, since as many findings count. -/
theorem scriptsEntries_bare (found : Nat) (scripts : List Script) :
    o.scriptsEntries a.bare b.bare found (scripts.map Script.bare) =
      List.map Entry.bare <$> o.scriptsEntries a b found scripts := by
  induction scripts generalizing found with
  | nil => rfl
  | cons s rest ih =>
      rw [List.map_cons, scriptsEntries, scriptsEntries, Script.name_bare]
      split
      · exact ih found
      · split
        · rfl
        · refine bind_map_comm (o.scriptEntries_bare a b s) fun es => ?_
          rw [countingEntries_map_bare]
          exact bind_map_comm (ih _) fun more => congrArg Except.ok List.map_append.symm

theorem globalFindings_bare : o.globalFindings a.bare b.bare = o.globalFindings a b := rfl

theorem countFindings_bare : countFindings a.bare b.bare = countFindings a b := by
  simp [countFindings]

theorem autostartNames?_bare (m : Image) : autostartNames? m.bare = autostartNames? m := by
  unfold autostartNames?
  rw [Image.autostart_bare, funext m.scriptName?_bare]

theorem autostartFindings_bare : o.autostartFindings a.bare b.bare = o.autostartFindings a b := by
  unfold autostartFindings
  rw [autostartNames?_bare, autostartNames?_bare]
  rfl

theorem dataFindings_bare : o.dataFindings a.bare b.bare = o.dataFindings a b := rfl

theorem initFindings_bare : o.initFindings a.bare b.bare = o.initFindings a b := rfl

/-! What is found outside the scripts has no place. -/

theorem globalFindings_map_bare :
    List.map FindingKind.bare <$> o.globalFindings a b = o.globalFindings a b := by
  unfold globalFindings
  split
  · dsimp only
    split
    · rfl
    · split <;> rfl
  · cases a.globals.names.filterM fun n => return (← b.globals.find? n).isNone with
    | error e => rfl
    | ok missing => exact congrArg Except.ok List.map_map

theorem countFindings_map_bare :
    (countFindings a b).map FindingKind.bare = countFindings a b := by
  unfold countFindings
  split <;> rfl

theorem autostartFindings_map_bare :
    (o.autostartFindings a b).map FindingKind.bare = o.autostartFindings a b := by
  unfold autostartFindings
  split
  · split <;> rfl
  · split
    · rw [List.map_append, List.map_map, List.map_map]
      rfl
    · rfl

theorem dataFindings_map_bare :
    (o.dataFindings a b).map FindingKind.bare = o.dataFindings a b := by
  unfold dataFindings
  dsimp only
  split <;> rfl

theorem initFindings_map_bare :
    (o.initFindings a b).map FindingKind.bare = o.initFindings a b := by
  unfold initFindings
  split
  · split
    · rfl
    · split <;> rfl
  · rw [List.map_filterMap]
    refine List.filterMap_congr fun x _ => ?_
    split
    · rfl
    · split <;> rfl

theorem map_general_bare {ks : List FindingKind} (hks : ks.map FindingKind.bare = ks) :
    (ks.map general).map Entry.bare = ks.map general := by
  conv => rhs; rw [← hks]
  rw [List.map_map, List.map_map]
  rfl

theorem entries_bare : o.entries a.bare b.bare = List.map Entry.bare <$> o.entries a b := by
  unfold entries
  rw [Image.version_bare, Image.version_bare]
  split
  · rfl
  · rw [globalFindings_bare, countFindings_bare, autostartFindings_bare, dataFindings_bare,
      initFindings_bare, Image.scripts_bare]
    refine bind_same_comm fun globals hok => ?_
    have hglobals : globals.map FindingKind.bare = globals := by
      have h := o.globalFindings_map_bare a b
      rw [hok] at h
      exact Except.ok.inj h
    have hstart : (globals ++ countFindings a b).map FindingKind.bare =
        globals ++ countFindings a b := by
      rw [List.map_append, hglobals, countFindings_map_bare]
    have hrest : (o.autostartFindings a b ++ o.dataFindings a b ++ o.initFindings a b).map
          FindingKind.bare =
        o.autostartFindings a b ++ o.dataFindings a b ++ o.initFindings a b := by
      rw [List.map_append, List.map_append, autostartFindings_map_bare, dataFindings_map_bare,
        initFindings_map_bare]
    refine bind_map_comm (o.scriptsEntries_bare a b _ a.scripts) fun scripts => ?_
    refine congrArg Except.ok ?_
    rw [Entry.map_bare_append, Entry.map_bare_append, map_general_bare hstart,
      map_general_bare hrest]

end CompareOptions

theorem compareImages_bare (o : CompareOptions) (a b : Image) :
    compareImages o a.bare b.bare = Comparison.bare <$> compareImages o a b :=
  bind_map_comm (o.entries_bare a b) fun _ => rfl

end ScriptImage
