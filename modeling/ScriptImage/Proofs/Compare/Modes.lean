import ScriptImage.Proofs.Compare.StrictVerdict
import ScriptImage.Proofs.Link.Resolution

/-!
Looser modes accept what stricter ones accept. Loose mode differs from normal mode only where a
pushed number meets one of another kind, which normal mode never passes. Normal mode resolves what
strict mode compares as it is stored, so there the images must be valid, and what is known under a
name must be what is stored under it.
-/

namespace ScriptImage

/-! ### From normal to loose mode -/

namespace ScriptPair

variable {p : ScriptPair} {ta tb run run' : List Instruction} {ia ib : Instruction}

/-- Operands that agree by meaning are of one kind, so no conversion is passed over instead. -/
theorem Agrees.loose (h : p.Agrees .normal ta tb) : p.Agrees .loose ta tb := by
  induction h with
  | ended ha hb => exact .ended ha hb
  | step ha hb hstep _ ih =>
      -- normal mode passes nothing over, so neither may loose mode
      obtain rfl := conversion_of_step hstep (by decide)
      rw [step_meaning_iff (by decide) rfl rfl] at hstep
      exact .step ha hb ((step_meaning_iff (by decide) rfl rfl).mpr hstep) ih

end ScriptPair

namespace CompareOptions

variable {o : CompareOptions} {a b : Image}

theorem Accepts.loose (h : o.Accepts a b) (hmode : o.mode = .normal) :
    ({ o with mode := .loose }).Accepts a b := by
  have hstrict : o.mode ≠ .strict := by simp [hmode]
  refine ⟨h.version, (globalFindings_iff (by simp)).mpr ((globalFindings_iff hstrict).mp h.globals),
    h.count, fun s hs hincluded => ?_,
    (autostartFindings_iff (by simp)).mpr ((autostartFindings_iff hstrict).mp h.autostart),
    dataFindings_eq_nil (by simp),
    (initFindings_iff (by simp)).mpr ((initFindings_iff hstrict).mp h.inits)⟩
  obtain ⟨hlimit, hnothing⟩ := h.scripts s hs hincluded
  refine ⟨hlimit, ?_⟩
  rw [findsNothing_scriptEntries_iff] at hnothing ⊢
  obtain ⟨t, ht, hcompare⟩ := hnothing
  rw [hmode, ScriptPair.findsNothing_compare_iff] at hcompare
  refine ⟨t, ht, ScriptPair.findsNothing_compare_iff.mpr ⟨?_, hcompare.2.loose⟩⟩
  rw [ScriptPair.headerFindings_eq_nil_iff (by simp)]
  exact (ScriptPair.headerFindings_eq_nil_iff (by decide)).mp hcompare.1

/-- Below strict mode the initial values are compared in the same way. -/
theorem initFindings_loose (hmode : o.mode = .normal) :
    ({ o with mode := .loose }).initFindings a b = o.initFindings a b := by
  rw [initFindings, initFindings, if_neg (by simp), if_neg (by simp [hmode])]

/-- An equal verdict leaves only initial values that are missing in the report. -/
theorem Accepts.report_eq (h : o.Accepts a b) {c : Comparison} (hc : compareImages o a b = .ok c) :
    c.report = (o.initFindings a b).map fun k => ⟨none, k⟩ := by
  obtain ⟨c', hc', hreport⟩ := h.exists_report
  cases hc.symm.trans hc'
  exact hreport

end CompareOptions

/-! ### From strict to normal mode -/

namespace Script

variable {s t : Script} {ss ts : List Script}

/-- Scripts in which an id names the same local. -/
def SameVariables (s t : Script) : Prop := s.boundary = t.boundary ∧ s.locals = t.locals

theorem SameFields.sameVariables (h : s.SameFields t) : s.SameVariables t := by
  obtain ⟨-, -, -, hboundary, hlocals, -⟩ := sameFields_iff.mp h
  exact ⟨hboundary, hlocals⟩

theorem map_name_eq (h : List.Forall₂ SameFields ss ts) : ss.map name = ts.map name := by
  rw [← List.forall₂_eq_eq_eq, List.forall₂_map_left_iff, List.forall₂_map_right_iff]
  exact h.imp fun s t hst => (sameFields_iff.mp hst).2.1

end Script

namespace Image

variable {a b : Image} {s t : Script} {r : SymbolRef} {id : UInt32}

/-- Where scripts have the same names in the same order, a reference to one leads to one name. -/
theorem NamesScript.scriptName?_eq (hr : a.NamesScript r) (ha : a.Valid) (hb : b.Valid)
    (hnames : a.scripts.map Script.name = b.scripts.map Script.name) :
    b.scriptName? r = a.scriptName? r := by
  obtain ⟨id, rfl, hpos, -⟩ := hr
  have hid : id.toNat = id.toNat - 1 + 1 := (Nat.sub_add_cancel hpos).symm
  rw [scriptName?_of_numbered ha.numbered hid, scriptName?_of_numbered hb.numbered hid,
    ← List.getElem?_map, ← List.getElem?_map, hnames]

theorem NamesScript.exists_name (hr : a.NamesScript r) (ha : a.Valid) (hb : b.Valid)
    (hnames : a.scripts.map Script.name = b.scripts.map Script.name) :
    ∃ name, a.scriptName? r = some name ∧ b.scriptName? r = some name := by
  obtain ⟨name, hname⟩ := hr.exists_scriptName? ha.numbered
  exact ⟨name, hname, (hr.scriptName?_eq ha hb hnames).trans hname⟩

/-- An id means the same in scripts with the same variables, next to the same global ones. -/
theorem varName?_eq (hglobals : a.globals = b.globals) (hst : s.SameVariables t) :
    a.varName? s id = b.varName? t id := by
  rw [varName?, varName?, hglobals, hst.1, hst.2]

theorem refName?_eq (hglobals : a.globals = b.globals) (hst : s.SameVariables t) :
    a.refName? s r = b.refName? t r := by
  cases r with
  | internal id => exact varName?_eq hglobals hst
  | external position => rfl

/-- The variable that a float names is told by its operation and operand. -/
theorem floatVarName?_eq {i j : Instruction} (hglobals : a.globals = b.globals)
    (hst : s.SameVariables t) (hop : i.opcode = j.opcode) (hoperand : i.operand = j.operand) :
    a.floatVarName? s i = b.floatVarName? t j := by
  have hfloat : i.floatVariable? = j.floatVariable? := by
    rw [Instruction.floatVariable?, Instruction.floatVariable?, hop, hoperand]
  rw [floatVarName?, floatVarName?, hfloat]
  exact congrArg _ (funext fun r => refName?_eq hglobals hst)

/-- Scripts started at load time keep their names with their ids. -/
theorem starts_iff (ha : a.Valid) (hb : b.Valid)
    (hnames : a.scripts.map Script.name = b.scripts.map Script.name)
    (hautostart : a.autostart = b.autostart) (name : String) : a.Starts name ↔ b.Starts name := by
  rw [Starts, Starts, ← hautostart]
  refine exists_congr fun r => and_congr_right fun hr => ?_
  obtain ⟨found, hfound, hfound'⟩ := (ha.autostart r hr).exists_name ha hb hnames
  rw [hfound, hfound']

end Image

theorem InitialValue.valueEq_comm (v w : InitialValue) : v.valueEq w = w.valueEq v := by
  cases v <;> cases w <;> simp [valueEq, Binary32.numericEq_comm, eq_comm]

theorem Initializer.valueEq_comm (x y : Initializer) : x.valueEq y = y.valueEq x := by
  rw [valueEq, valueEq, BEq.comm, InitialValue.valueEq_comm]

/-- Where names are distinct, what is found under a name is what stands at the same position. -/
theorem Initializer.valueEq_of_find? {xs ys : List Initializer}
    (hnames : (xs.map Initializer.name).Nodup)
    (h : List.Forall₂ (fun x y => x.valueEq y = true) xs ys) {x y : Initializer} (hx : x ∈ xs)
    (hy : ys.find? (fun y => y.name == x.name) = some y) : y.value.valueEq x.value = true := by
  have hsame : xs.map Initializer.name = ys.map Initializer.name := by
    rw [← List.forall₂_eq_eq_eq, List.forall₂_map_left_iff, List.forall₂_map_right_iff]
    exact h.imp fun _ _ heq => (SameFields.of_valueEq heq).1
  obtain ⟨n, hn⟩ := List.mem_iff_getElem?.mp hx
  obtain ⟨z, hz, heq⟩ := (forall₂_iff_getElem?.mp h).2 n x hn
  rw [Initializer.valueEq, Bool.and_eq_true, beq_iff_eq] at heq
  have hfirst := find?_of_nodup (hsame ▸ hnames) (List.mem_of_getElem? hz)
  rw [← heq.1, hy, Option.some.injEq] at hfirst
  rw [hfirst, InitialValue.valueEq_comm]
  exact heq.2

namespace ScriptPair

variable {p : ScriptPair} {ta tb run run' : List Instruction} {ia ib : Instruction}

/-- An operand agrees with itself when all that it names is known on both sides. -/
theorem OperandsAgree.of_eq (hglobals : p.imageA.globals = p.imageB.globals)
    (hst : p.a.SameVariables p.b) (hop : ia.opcode = ib.opcode) (heq : ib.operand = ia.operand)
    (haddress : ∀ x, ia.operand = .address x → p.a.address = p.b.address)
    (hscript : ∀ r, ia.operand = .script r →
      ∃ name, p.imageA.scriptName? r = some name ∧ p.imageB.scriptName? r = some name)
    (hvariable : ∀ r, ia.operand = .variable r → ∃ name, p.imageA.refName? p.a r = some name) :
    p.OperandsAgree ta tb ia ib := by
  cases hx : ia.operand with
  | none => exact .none hx (heq.trans hx)
  | bool => exact .bool hx (heq.trans hx)
  | int => exact .int hx (heq.trans hx)
  | address x => exact .jump hx (heq.trans hx) (by rw [haddress x hx])
  | script r =>
      obtain ⟨name, hname, hname'⟩ := hscript r hx
      exact .script hx (heq.trans hx) hname hname'
  | «variable» r =>
      obtain ⟨name, hname⟩ := hvariable r hx
      exact .variable hx (heq.trans hx) hname (Image.refName?_eq hglobals hst ▸ hname)
  | float x =>
      by_cases hfed : feedsReference ta = true ∧ feedsReference tb = true
      · have hsame := Image.floatVarName?_eq hglobals hst hop heq.symm
        cases hname : p.imageA.floatVarName? p.a ia with
        | none => exact .unnamed hfed.1 hfed.2 hx (heq.trans hx) (Or.inl hname)
        | some name => exact .carried hfed.1 hfed.2 hx (heq.trans hx) hname (hsame ▸ hname)
      · exact .float hfed hx (heq.trans hx) x.numericEq_or_isNaN

/-- Strict mode passes equal instructions; normal mode passes them when it knows what they name. -/
theorem Matches.normal (h : p.Matches .strict ta tb run run')
    (hglobals : p.imageA.globals = p.imageB.globals) (hst : p.a.SameFields p.b)
    (hscript : ∀ i ∈ run, ∀ r, i.operand = .script r →
      ∃ name, p.imageA.scriptName? r = some name ∧ p.imageB.scriptName? r = some name)
    (hvariable : ∀ i ∈ run, ∀ r, i.operand = .variable r →
      ∃ name, p.imageA.refName? p.a r = some name) : p.Matches .normal ta tb run run' := by
  refine ⟨h.closedA, h.closedB, h.length, ?_⟩
  intro k ia ib hia hib hne hne'
  obtain ⟨hop, hmode, htype, hoperand⟩ :=
    Instruction.sameEncoding_iff.mp (step_strict_iff.mp (h.step k ia ib hia hib hne hne'))
  have hmem := List.mem_of_getElem? hia
  obtain ⟨-, -, -, -, -, haddress⟩ := Script.sameFields_iff.mp hst
  rw [step_meaning_iff (by decide) (head?_drop_of_closedRun? h.closedA hia)
    (head?_drop_of_closedRun? h.closedB hib)]
  exact ⟨hop, hmode, htype, .of_eq hglobals hst.sameVariables hop hoperand.symm
    (fun _ _ => haddress) (hscript ia hmem) (hvariable ia hmem)⟩

end ScriptPair

namespace CompareOptions

variable {o : CompareOptions} {a b : Image}

/-- Ids that lead to the same scripts start the same names. -/
theorem autostartFindings_of_valid (hmode : o.mode ≠ .strict) (ha : a.Valid) (hb : b.Valid)
    (hnames : a.scripts.map Script.name = b.scripts.map Script.name)
    (hautostart : a.autostart = b.autostart) : o.autostartFindings a b = [] := by
  have hnamed : ∀ r ∈ a.autostart, ∃ name, a.scriptName? r = some name ∧
      b.scriptName? r = some name := fun r hr => (ha.autostart r hr).exists_name ha hb hnames
  refine (autostartFindings_iff hmode).mpr ⟨?_, ?_, Image.starts_iff ha hb hnames hautostart⟩
  · intro r hr
    obtain ⟨name, hname, -⟩ := hnamed r hr
    exact ⟨name, hname⟩
  · intro r hr
    obtain ⟨name, -, hname⟩ := hnamed r (hautostart ▸ hr)
    exact ⟨name, hname⟩

/-- Where strict mode accepts two valid images with the same variables, normal mode finds nothing in
a script: its partner is the one found before, and each of their names resolves. -/
theorem Accepts.findsNothing_normal (h : o.Accepts a b) (hmode : o.mode = .strict)
    (hall : o.scripts = none) (ha : a.Valid) (hb : b.Valid) (hglobals : a.globals = b.globals)
    {s : Script} (hs : s ∈ a.scripts) :
    FindsNothing (({ o with mode := .normal }).scriptEntries a b s) := by
  obtain ⟨n, hn⟩ := List.mem_iff_getElem?.mp hs
  obtain ⟨t, ht, -, hsame, run, run', hmatches⟩ := h.exists_partner hmode hall ha hb hn
  obtain ⟨-, -, hparams, -, hlocals, -⟩ := Script.sameFields_iff.mp hsame
  refine findsNothing_scriptEntries_iff.mpr ⟨t, ht, ScriptPair.findsNothing_compare_iff.mpr
    ⟨(ScriptPair.headerFindings_eq_nil_iff (by simp)).mpr ⟨hparams, hlocals⟩, ?_⟩⟩
  refine (hmatches.normal hglobals hsame ?_ ?_).agrees
  · intro i hi r hr
    have hmem := Image.mem_code_of_scriptCode? hmatches.closedA hi
    exact (ha.namesScript hmem hr).exists_name ha hb
      (Script.map_name_eq (h.sameScripts hmode hall ha hb))
  · intro i hi r hr
    exact ha.exists_refName? hs hmatches.closedA hi hr

theorem Accepts.normal (h : o.Accepts a b) (hmode : o.mode = .strict) (hall : o.scripts = none)
    (ha : a.Valid) (hb : b.Valid) (hdeclaredA : a.globals.Declared)
    (hdeclaredB : b.globals.Declared) (hinits : (a.inits.map Initializer.name).Nodup) :
    ({ o with mode := .normal }).Accepts a b := by
  have hvars := (globalFindings_strict_iff hmode).mp h.globals
  -- tables that only declarations have built are the same when their variables are
  have hglobals := hdeclaredA.consistent.ext hdeclaredB.consistent hvars
  refine ⟨h.version, ?_, h.count, ?_, ?_, dataFindings_eq_nil (by simp), ?_⟩
  · exact globalFindings_eq_nil (by simp) hdeclaredA.consistent hdeclaredB.consistent
      (hvars ▸ List.Subset.refl _)
  · intro s hs hincluded
    exact ⟨(h.scripts s hs hincluded).1, h.findsNothing_normal hmode hall ha hb hglobals hs⟩
  · exact autostartFindings_of_valid (by simp) ha hb
      (Script.map_name_eq (h.sameScripts hmode hall ha hb))
      ((autostartFindings_strict_iff hmode).mp h.autostart)
  · refine (initFindings_iff (by simp)).mpr fun x hx y hy => ?_
    exact Initializer.valueEq_of_find? hinits ((initFindings_strict_iff hmode).mp h.inits) hx hy

end CompareOptions

/-- What strict mode finds equal is equal in normal mode when the images are valid and their tables
of variables were built by declarations, and what normal mode finds equal is equal in loose mode,
with the same report, whatever the images are. -/
theorem compare_looser {o : CompareOptions} {a b : Image} :
    (o.scripts = none → a.isValid = true → b.isValid = true → a.globals.Declared →
      b.globals.Declared → (a.inits.map Initializer.name).Nodup →
      ∀ c, compareImages { o with mode := .strict } a b = .ok c → c.equal = true →
        ∃ c', compareImages { o with mode := .normal } a b = .ok c' ∧ c'.equal = true) ∧
    ∀ c, compareImages { o with mode := .normal } a b = .ok c → c.equal = true →
      ∃ c', compareImages { o with mode := .loose } a b = .ok c' ∧ c'.equal = true ∧
        c'.report = c.report := by
  constructor
  · intro hall ha hb hdeclaredA hdeclaredB hinits c hc hequal
    have haccepts := CompareOptions.accepts_of_equal hc hequal
    exact CompareOptions.exists_equal_iff.mpr <| haccepts.normal rfl hall
      (Image.isValid_iff.mp ha) (Image.isValid_iff.mp hb) hdeclaredA hdeclaredB hinits
  · intro c hc hequal
    have haccepts := CompareOptions.accepts_of_equal hc hequal
    obtain ⟨c', hc', hequal'⟩ := CompareOptions.exists_equal_iff.mpr (haccepts.loose rfl)
    refine ⟨c', hc', hequal', ?_⟩
    rw [(haccepts.loose rfl).report_eq hc', haccepts.report_eq hc]
    exact congrArg _ (CompareOptions.initFindings_loose (o := { o with mode := .normal }) rfl)

namespace Sample

theorem declared_asker : askerSet.globals.Declared ∧ askerMoved.globals.Declared :=
  ⟨askerFirst_declared, askerFirst_declared⟩

/-- Images that strict mode finds equal are equal in loose mode. -/
theorem moved_looser : ∃ c c', compareImages {} askerSet askerMoved = .ok c ∧ c.equal = true ∧
    compareImages { mode := .loose } askerSet askerMoved = .ok c' ∧ c'.equal = true ∧
      c'.report = c.report := by
  obtain ⟨hnormal, hloose⟩ := compare_looser (o := {}) (a := askerSet) (b := askerMoved)
  obtain ⟨s, hs, hstrict⟩ : ∃ c, compareImages { mode := .strict } askerSet askerMoved = .ok c ∧
      c.equal = true := exists_ok (by decide +kernel)
  obtain ⟨c, hc, hequal⟩ := hnormal rfl (by decide +kernel) (by decide +kernel) declared_asker.1
    declared_asker.2 (by decide) s hs hstrict
  obtain ⟨c', hc', hequal', hreport⟩ := hloose c hc hequal
  exact ⟨c, c', hc, hequal, hc', hequal', hreport⟩

/-- One variable, stored under a name that need not be its own. -/
def storedUnder (key : String) : Image where
  globals := { entries := [(key, ⟨"g", 1⟩)], starts := [1], slots := 1 }

/-- Strict mode compares the variables, and normal mode looks for the names they are stored
under. -/
theorem strict_not_normal : (storedUnder "g").isValid = true ∧ (storedUnder "h").isValid = true ∧
    ((storedUnder "g").inits.map Initializer.name).Nodup ∧
      (∃ c, compareImages { mode := .strict } (storedUnder "g") (storedUnder "h") = .ok c ∧
        c.equal = true) ∧
      ∃ c, compareImages {} (storedUnder "g") (storedUnder "h") = .ok c ∧ c.equal = false :=
  ⟨by decide +kernel, by decide +kernel, by decide, exists_ok (by decide +kernel),
    exists_ok (by decide +kernel)⟩

end Sample

end ScriptImage
