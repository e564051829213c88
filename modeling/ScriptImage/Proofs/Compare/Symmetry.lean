import ScriptImage.Proofs.Compare.Modes

/-!
Comparing the other way round. The walk over two scripts is mirrored step by step, so scripts agree
in either order; in loose mode the side on which a conversion is passed over changes with the order.
The rest of a comparison is driven by the first image alone. It is symmetric where each script and
each initial value has a name of its own, and both images have the same global variables.
-/

namespace ScriptImage

namespace Conversion

/-- The other side. -/
def swap : Conversion → Conversion
  | .first => .second
  | .second => .first

theorem map_swap_eq_first_iff {c : Option Conversion} :
    c.map swap = some .first ↔ c = some .second := by
  rcases c with _ | ⟨⟨⟩⟩ <;> simp [swap]

theorem map_swap_eq_second_iff {c : Option Conversion} :
    c.map swap = some .second ↔ c = some .first := by
  rcases c with _ | ⟨⟨⟩⟩ <;> simp [swap]

end Conversion

/-- Of the four cases of a conversion, those of an integer and a float mirror each other. -/
theorem conversion?_swap (ta tb : List Instruction) :
    conversion? tb ta = (conversion? ta tb).map Conversion.swap := by
  unfold conversion?
  cases ta.head? with
  | none => cases tb.head? <;> rfl
  | some ia =>
      cases tb.head? with
      | none => rfl
      | some ib =>
          simp only
          by_cases hpush : ia.opcode = .push ∧ ib.opcode = .push
          · rw [if_pos hpush, if_pos hpush.symm]
            cases ia.operand <;> cases ib.operand <;> try rfl
            all_goals
              simp only
              split
              · rfl
              · split <;> rfl
          · rw [if_neg hpush, if_neg fun h => hpush h.symm]
            rfl

namespace Image

theorem SameText.symm {a b : Image} {x y : Int32} (h : a.SameText b x y) : b.SameText a y x := by
  obtain ⟨hx, hy, text, ha, hb⟩ := h
  exact ⟨hy, hx, text, hb, ha⟩

end Image

namespace ScriptPair

variable {p : ScriptPair} {mode : CompareMode} {ta tb : List Instruction} {ia ib : Instruction}

/-- The same scripts in the other order. -/
def swap (p : ScriptPair) : ScriptPair := ⟨p.imageB, p.imageA, p.b, p.a⟩

/-! ### One pair of instructions -/

theorem OperandsAgree.swap (h : p.OperandsAgree ta tb ia ib) :
    p.swap.OperandsAgree tb ta ib ia := by
  cases h with
  | none ha hb => exact .none hb ha
  | bool ha hb => exact .bool hb ha
  | int ha hb => exact .int hb ha
  | text ha hb htext => exact .text hb ha htext.symm
  | jump ha hb hdistance => exact .jump hb ha hdistance.symm
  | script ha hb hname hname' => exact .script hb ha hname' hname
  | «variable» ha hb hname hname' => exact .variable hb ha hname' hname
  | carried hfa hfb ha hb hname hname' => exact .carried hfb hfa hb ha hname' hname
  | unnamed hfa hfb ha hb hnone => exact .unnamed hfb hfa hb ha hnone.symm
  | float hfed ha hb hsame =>
      refine .float (fun h => hfed h.symm) hb ha ?_
      rwa [Binary32.numericEq_comm, and_comm]

/-- A pair is passed as a conversion exactly when loose mode finds one. -/
theorem step_conversion_iff {c : Conversion} :
    p.step mode ta tb ia ib = .ok { conversion := some c } ↔
      mode = .loose ∧ conversion? ta tb = some c := by
  constructor
  · intro h
    have hconversion := conversion_eq_of_step h
    split at hconversion
    · exact ⟨‹_›, hconversion.symm⟩
    · cases hconversion
  · rintro ⟨hmode, hc⟩
    unfold step
    simp only [if_pos hmode, hc]
    rfl

/-- A pair that is passed is passed in either order. -/
theorem step_swap {conversion : Option Conversion} (ha : ta.head? = some ia)
    (hb : tb.head? = some ib) (h : p.step mode ta tb ia ib = .ok { conversion }) :
    p.swap.step mode tb ta ib ia = .ok { conversion := conversion.map Conversion.swap } := by
  cases conversion with
  | some c =>
      rw [step_conversion_iff] at h
      rw [Option.map_some, step_conversion_iff, conversion?_swap, h.2]
      exact ⟨h.1, rfl⟩
  | none =>
      rw [Option.map_none]
      by_cases hmode : mode = .strict
      · subst hmode
        rw [step_strict_iff, Instruction.sameEncoding_iff] at h ⊢
        exact ⟨h.1.symm, h.2.1.symm, h.2.2.1.symm, h.2.2.2.symm⟩
      · rw [step_meaning_iff hmode hb ha]
        obtain ⟨hop, hm, ht, hagree⟩ := (step_meaning_iff hmode ha hb).mp h
        exact ⟨hop.symm, hm.symm, ht.symm, hagree.swap⟩

/-! ### Two scripts -/

/-- Where instructions are passed over, the walk in the other order passes over the same. -/
theorem Agrees.swap (h : p.Agrees mode ta tb) : p.swap.Agrees mode tb ta := by
  induction h with
  | ended ha hb => exact .ended hb ha
  | step ha hb hstep _ ih =>
      refine .step hb ha (step_swap rfl rfl hstep) ?_
      simp only [Conversion.map_swap_eq_first_iff, Conversion.map_swap_eq_second_iff]
      exact ih

theorem agrees_swap_iff : p.swap.Agrees mode tb ta ↔ p.Agrees mode ta tb :=
  ⟨Agrees.swap, Agrees.swap⟩

theorem headerFindings_swap (h : p.headerFindings mode = []) : p.swap.headerFindings mode = [] := by
  rw [headerFindings_nil_iff] at h ⊢
  obtain ⟨hparams, hlocals, hstrict⟩ := h
  refine ⟨hparams.symm, hlocals.symm, fun hmode => ?_⟩
  obtain ⟨hid, hboundary, haddress⟩ := hstrict hmode
  exact ⟨hid.symm, hboundary.symm, haddress.symm⟩

theorem findsNothing_compare_swap (h : FindsNothing (p.compare mode)) :
    FindsNothing (p.swap.compare mode) := by
  rw [findsNothing_compare_iff] at h ⊢
  exact ⟨headerFindings_swap h.1, h.2.swap⟩

end ScriptPair

/-! ### Two images -/

namespace Image

/-- No two scripts and no two initial values have the same name. -/
structure OwnNames (m : Image) : Prop where
  scripts : (m.scripts.map Script.name).Nodup
  inits : (m.inits.map Initializer.name).Nodup

end Image

namespace CompareOptions

variable {o : CompareOptions} {a b : Image}

/-- As many scripts as the first image has, each with a name of its own, are all found from the
second image when they are all found from the first. -/
theorem Accepts.exists_origin (h : o.Accepts a b) (hall : o.scripts = none)
    (ha : (a.scripts.map Script.name).Nodup) (hb : (b.scripts.map Script.name).Nodup) {t : Script}
    (ht : t ∈ b.scripts) : ∃ s ∈ a.scripts, s.name = t.name ∧
      FindsNothing (ScriptPair.compare ⟨a, b, s, t⟩ o.mode) := by
  have hpartner : ∀ s ∈ a.scripts, ∃ t, b.scriptByName? s.name = some t ∧
      FindsNothing (ScriptPair.compare ⟨a, b, s, t⟩ o.mode) := fun s hs =>
    findsNothing_scriptEntries_iff.mp (h.scripts s hs (includes_of_none hall s.name)).2
  have hsub : a.scripts.map Script.name ⊆ b.scripts.map Script.name := by
    intro name hname
    obtain ⟨s, hs, rfl⟩ := List.mem_map.mp hname
    obtain ⟨t, ht, -⟩ := hpartner s hs
    obtain ⟨hmem, heq⟩ := Image.of_scriptByName? ht
    exact List.mem_map.mpr ⟨t, hmem, heq⟩
  -- the names of the first are some of those of the second, and there are as many
  have hperm : (a.scripts.map Script.name).Perm (b.scripts.map Script.name) := by
    apply (List.subperm_of_subset ha hsub).perm_of_length_le
    rw [List.length_map, List.length_map, countFindings_eq_nil_iff.mp h.count]
  obtain ⟨s, hs, hname⟩ := List.mem_map.mp (hperm.mem_iff.mpr (List.mem_map_of_mem ht))
  obtain ⟨t', ht', hnothing⟩ := hpartner s hs
  have hself : b.scriptByName? s.name = some t := by
    rw [hname]
    exact find?_of_nodup hb ht
  cases ht'.symm.trans hself
  exact ⟨s, hs, hname, hnothing⟩

theorem globalFindings_swap (h : o.globalFindings a b = .ok []) (ha : a.globals.Consistent)
    (hsub : o.mode ≠ .strict → b.globals.names ⊆ a.globals.names) :
    o.globalFindings b a = .ok [] := by
  by_cases hmode : o.mode = .strict
  · rw [globalFindings_strict_iff hmode] at h ⊢
    exact h.symm
  · rw [globalFindings_iff hmode]
    exact fun name hname => ha.exists_of_mem_names (hsub hmode hname)

theorem autostartFindings_swap (h : o.autostartFindings a b = []) :
    o.autostartFindings b a = [] := by
  by_cases hmode : o.mode = .strict
  · rw [autostartFindings_strict_iff hmode] at h ⊢
    exact h.symm
  · rw [autostartFindings_iff hmode] at h ⊢
    exact ⟨h.2.1, h.1, fun name => (h.2.2 name).symm⟩

theorem dataFindings_swap (h : o.dataFindings a b = []) : o.dataFindings b a = [] := by
  by_cases hmode : o.mode = .strict
  · rw [dataFindings_strict_iff hmode] at h ⊢
    exact h.symm
  · exact dataFindings_eq_nil hmode

/-- What is found under a name is found in either order; a name of only one image is no matter. -/
theorem initFindings_swap (h : ∀ k ∈ o.initFindings a b, k.refutes = false)
    (hb : o.mode ≠ .strict → (b.inits.map Initializer.name).Nodup) :
    ∀ k ∈ o.initFindings b a, k.refutes = false := by
  by_cases hmode : o.mode = .strict
  · rw [initFindings_strict_iff hmode] at h ⊢
    refine List.Forall₂.flip (h.imp fun x y hxy => ?_)
    show y.valueEq x = true
    rwa [Initializer.valueEq_comm]
  · rw [initFindings_iff hmode] at h ⊢
    intro y hy x hx
    obtain ⟨hmem, hname⟩ := of_find?_key hx
    have hself := find?_of_nodup (hb hmode) hy
    rw [← hname] at hself
    rw [InitialValue.valueEq_comm]
    exact h x hmem y hself

/-- What is found equal is equal in the other order, where names are own ones and the first image
has all variables of the second. -/
theorem Accepts.swap (h : o.Accepts a b) (hall : o.scripts = none)
    (hglobals : a.globals.Consistent)
    (hsub : o.mode ≠ .strict → b.globals.names ⊆ a.globals.names) (ha : a.OwnNames)
    (hb : b.OwnNames) : o.Accepts b a := by
  refine ⟨h.version.symm, globalFindings_swap h.globals hglobals hsub,
    countFindings_eq_nil_iff.mpr (countFindings_eq_nil_iff.mp h.count).symm, fun t ht _ => ?_,
    autostartFindings_swap h.autostart, dataFindings_swap h.data,
    initFindings_swap h.inits fun _ => hb.inits⟩
  obtain ⟨s, hs, hname, hnothing⟩ := h.exists_origin hall ha.scripts hb.scripts ht
  refine ⟨(h.scripts s hs (includes_of_none hall s.name)).1, ?_⟩
  refine findsNothing_scriptEntries_iff.mpr ⟨s, ?_, ScriptPair.findsNothing_compare_swap hnothing⟩
  rw [← hname]
  exact find?_of_nodup ha.scripts hs

end CompareOptions

/-- The verdict does not depend on the order of the images when each script and each initial value
has a name of its own and both have the same global variables. So where images are equal in one
order only, there is a variable that the second alone has, or a name that is taken twice. -/
theorem compare_symmetric {o : CompareOptions} {a b : Image} (hall : o.scripts = none)
    (ha : a.globals.Declared) (hb : b.globals.Declared) (hdataA : a.data.Consistent)
    (hdataB : b.data.Consistent) :
    ∃ c c', compareImages o a b = .ok c ∧ compareImages o b a = .ok c' ∧
      (a.OwnNames → b.OwnNames → (∀ name, name ∈ a.globals.names ↔ name ∈ b.globals.names) →
        c.equal = c'.equal) ∧
      (c.equal = true → c'.equal = false →
        (∃ name ∈ b.globals.names, name ∉ a.globals.names) ∨ ¬ a.OwnNames ∨ ¬ b.OwnNames) := by
  obtain ⟨c, hc⟩ := CompareOptions.exists_compareImages (o := o) hdataA hdataB hb.consistent
  obtain ⟨c', hc'⟩ := CompareOptions.exists_compareImages (o := o) hdataB hdataA ha.consistent
  have hequal := CompareOptions.equal_iff_accepts hc
  have hequal' := CompareOptions.equal_iff_accepts hc'
  refine ⟨c, c', hc, hc', ?_, ?_⟩
  · intro hnamesA hnamesB hglobals
    rw [Bool.eq_iff_iff, hequal, hequal']
    constructor
    · intro h
      exact h.swap hall ha.consistent (fun _ name => (hglobals name).mpr) hnamesA hnamesB
    · intro h
      exact h.swap hall hb.consistent (fun _ name => (hglobals name).mp) hnamesB hnamesA
  · intro hyes hno
    by_contra hnone
    push Not at hnone
    obtain ⟨hsub, hnamesA, hnamesB⟩ := hnone
    have h := (hequal.mp hyes).swap hall ha.consistent (fun _ => hsub) hnamesA hnamesB
    rw [hequal'.mpr h] at hno
    cases hno

namespace Sample

/-- One script that works on one variable. -/
def setter (code : List Instruction) : Image where
  globals := { entries := [("x", ⟨"x", 1⟩)], starts := [1], slots := 1 }
  scripts := [{
    id := 1
    name := "setter"
    params := 0
    boundary := 1
    locals := []
    address := 0
    source := "setter.txt" }]
  code

def setsFloat : Image := setter [.pushFloat (.ofInt 5), .store (.internal 1), .endRun]

def setsConverted : Image :=
  setter [.pushInt 5, .cast .float, .store (.internal 1), .endRun]

theorem setter_declared (code : List Instruction) : (setter code).globals.Declared :=
  .declare .empty (v := ⟨"x", 1⟩) rfl

theorem setter_ownNames (code : List Instruction) : (setter code).OwnNames :=
  ⟨List.nodup_singleton _, List.nodup_singleton _⟩

/-- A conversion is accepted on either side. -/
theorem converted_symmetric : ∃ c c',
    compareImages { mode := .loose } setsFloat setsConverted = .ok c ∧ c.equal = true ∧
      compareImages { mode := .loose } setsConverted setsFloat = .ok c' ∧ c'.equal = true := by
  obtain ⟨c, c', hc, hc', hequal, -⟩ := compare_symmetric (o := { mode := .loose }) rfl
    (setter_declared _) (setter_declared _) DataSection.consistent_empty
    DataSection.consistent_empty (a := setsFloat) (b := setsConverted)
  obtain ⟨found, hfound, hyes⟩ : ∃ c,
      compareImages { mode := .loose } setsFloat setsConverted = .ok c ∧ c.equal = true :=
    exists_ok (by decide +kernel)
  cases hc.symm.trans hfound
  refine ⟨c, c', hc, hyes, hc', ?_⟩
  rw [← hequal (setter_ownNames _) (setter_ownNames _) fun _ => Iff.rfl]
  exact hyes

end Sample

end ScriptImage
