import ScriptImage.Proofs.Checks
import ScriptImage.Proofs.Compare.Ending
import ScriptImage.Proofs.Compare.NormalVerdict
import ScriptImage.Proofs.Link.Placement

/-!
What strict mode decides. It still finds the partner of a script by its name and walks code run by
run, so it says nothing about code in no run, nor about the order of scripts. Where script ids count
the scripts and the runs tile the code, this comes to equality of all that is stored, position by
position, up to source lines and files, what follows the operation of END, and the sign of zero.
-/

namespace ScriptImage

/-! ### Equality of what is stored -/

/-- Scripts that differ at most in the file they come from. -/
def Script.SameFields (s t : Script) : Prop := { s with source := t.source } = t

/-- Instructions that differ at most in the line they come from; ENDs, in all but the operation. -/
def Instruction.SameFields (i j : Instruction) : Prop :=
  i.opcode = j.opcode ∧ (i.opcode ≠ .endRun → { i with line := j.line } = j)

namespace InitialValue

/-- Values that differ at most in the sign of zero. -/
inductive SameNumber : InitialValue → InitialValue → Prop
  | same (v : InitialValue) : SameNumber v v
  | zeros {x y : Binary32} : x.magnitude = 0 → y.magnitude = 0 →
      SameNumber (.number x) (.number y)

def IsNaN : InitialValue → Prop
  | .number x => x.isNaN = true
  | .expression _ => False

end InitialValue

def Initializer.SameFields (x y : Initializer) : Prop :=
  x.name = y.name ∧ x.value.SameNumber y.value

/-- Images whose parts are the same, position by position. -/
structure Image.SameFields (a b : Image) : Prop where
  version : a.version = b.version
  globals : a.globals.vars = b.globals.vars
  data : a.data.bytes = b.data.bytes
  autostart : a.autostart = b.autostart
  scripts : List.Forall₂ Script.SameFields a.scripts b.scripts
  code : List.Forall₂ Instruction.SameFields a.code b.code
  inits : List.Forall₂ Initializer.SameFields a.inits b.inits

theorem Script.sameFields_iff {s t : Script} : s.SameFields t ↔ s.id = t.id ∧ s.name = t.name ∧
    s.params = t.params ∧ s.boundary = t.boundary ∧ s.locals = t.locals ∧
      s.address = t.address := by
  obtain ⟨id, name, params, boundary, locals, address, source⟩ := s
  obtain ⟨id', name', params', boundary', locals', address', source'⟩ := t
  simp [SameFields]

theorem Instruction.sameFields_iff {i j : Instruction} : i.SameFields j ↔
    i.opcode = j.opcode ∧ (i.opcode ≠ .endRun → i.sameEncoding j = true) := by
  refine and_congr_right fun hop => imp_congr_right fun _ => ?_
  rw [sameEncoding_iff]
  obtain ⟨op, mode, type, operand, line⟩ := i
  obtain ⟨op', mode', type', operand', line'⟩ := j
  simp

/-! ### Initial values -/

theorem Binary32.not_isNaN_of_magnitude_eq_zero {x : Binary32} (h : x.magnitude = 0) :
    x.isNaN = false := by
  simp [isNaN, exponentField, h]

namespace InitialValue

variable {v w : InitialValue}

theorem SameNumber.of_valueEq (h : v.valueEq w = true) : v.SameNumber w := by
  unfold valueEq at h
  split at h
  · rename_i x y
    simp only [Binary32.numericEq, Bool.and_eq_true, Bool.or_eq_true, beq_iff_eq] at h
    rcases h.2 with hbits | ⟨hx, hy⟩
    · obtain ⟨bits⟩ := x
      obtain ⟨bits'⟩ := y
      cases hbits
      exact .same _
    · exact .zeros hx hy
  · rw [beq_iff_eq.mp h]
    exact .same _

theorem SameNumber.valueEq (h : v.SameNumber w) (hv : ¬ v.IsNaN) : v.valueEq w = true := by
  cases h with
  | same =>
      cases v with
      | number x => exact Binary32.numericEq_self_iff.mpr (Bool.eq_false_iff.mpr hv)
      | expression e => exact beq_self_eq_true _
  | zeros hx hy =>
      simp [InitialValue.valueEq, Binary32.numericEq, hx, hy,
        Binary32.not_isNaN_of_magnitude_eq_zero]

/-- Equal values are the same up to the sign of zero, and numbers at that. -/
theorem valueEq_iff : v.valueEq w = true ↔ v.SameNumber w ∧ ¬ v.IsNaN := by
  constructor
  · intro h
    refine ⟨.of_valueEq h, fun hnan => ?_⟩
    cases v with
    | number x =>
        cases w with
        | number y =>
            have hx : x.isNaN = true := hnan
            simp [valueEq, Binary32.numericEq, hx] at h
        | expression e => cases h
    | expression e => exact hnan
  · rintro ⟨hsame, hnumber⟩
    exact hsame.valueEq hnumber

end InitialValue

namespace Initializer

variable {x y : Initializer}

theorem SameFields.of_valueEq (h : x.valueEq y = true) : x.SameFields y := by
  rw [Initializer.valueEq, Bool.and_eq_true, beq_iff_eq] at h
  exact ⟨h.1, .of_valueEq h.2⟩

theorem SameFields.valueEq (h : x.SameFields y) (hx : ¬ x.value.IsNaN) : x.valueEq y = true := by
  rw [Initializer.valueEq, Bool.and_eq_true, beq_iff_eq]
  exact ⟨h.1, h.2.valueEq hx⟩

end Initializer

/-! ### Runs in strict mode -/

namespace ScriptPair

variable {p : ScriptPair} {ta tb run : List Instruction}

/-- In strict mode scripts of one name have the same head when they are stored the same. -/
theorem headerFindings_strict_iff (hname : p.a.name = p.b.name) :
    p.headerFindings .strict = [] ↔ p.a.SameFields p.b := by
  rw [headerFindings_nil_iff, Script.sameFields_iff]
  tauto

theorem Agrees.sameFields (h : p.Agrees .strict ta tb) : ∃ run run', closedRun? ta = some run ∧
    closedRun? tb = some run' ∧ List.Forall₂ Instruction.SameFields run run' := by
  induction h with
  | @ended ia ib ra rb ha hb =>
      refine ⟨[ia], [ib], closedRun?_cons_of_eq ha ra, closedRun?_cons_of_eq hb rb, ?_⟩
      exact .cons ⟨ha.trans hb.symm, fun hne => absurd ha hne⟩ .nil
  | @step ia ib ra rb conversion ha hb hstep _ ih =>
      obtain ⟨run, run', hrun, hrun', hsame⟩ := ih
      obtain rfl := conversion_of_step hstep (by decide)
      have hencoding := step_strict_iff.mp hstep
      refine ⟨ia :: run, ib :: run', (closedRun?_cons_of_ne ha).mpr ⟨run, hrun, rfl⟩,
        (closedRun?_cons_of_ne hb).mpr ⟨run', hrun', rfl⟩, .cons ?_ hsame⟩
      exact Instruction.sameFields_iff.mpr
        ⟨(Instruction.sameEncoding_iff.mp hencoding).1, fun _ => hencoding⟩

theorem agrees_of_sameFields (h : List.Forall₂ Instruction.SameFields ta tb)
    (hrun : closedRun? ta = some run) : p.Agrees .strict ta tb := by
  induction h generalizing run with
  | nil => simp [closedRun?] at hrun
  | @cons ia ib ra rb hsame _ ih =>
      obtain ⟨hop, hencoding⟩ := Instruction.sameFields_iff.mp hsame
      by_cases ha : ia.opcode = .endRun
      · exact .ended ha (hop ▸ ha)
      · obtain ⟨rest, hrest, -⟩ := (closedRun?_cons_of_ne ha).mp hrun
        exact .step ha (hop ▸ ha) (step_strict_iff.mpr (hencoding ha)) (ih hrest)

end ScriptPair

/-! ### Code that scripts tile -/

namespace Image

variable {a b : Image} {start : Nat} {ss ts : List Script}

/-- Codes tiled by runs that are the same one by one are the same as a whole. -/
theorem sameFields_of_tiled (ha : a.TiledFrom start ss) (hb : b.TiledFrom start ts)
    (h : List.Forall₂ (fun s t => ∃ run run', a.scriptCode? s = some run ∧
      b.scriptCode? t = some run' ∧ List.Forall₂ Instruction.SameFields run run') ss ts) :
    List.Forall₂ Instruction.SameFields (a.code.drop start) (b.code.drop start) := by
  induction h generalizing start with
  | nil =>
      rw [tiledFrom_nil_iff] at ha hb
      rw [List.drop_of_length_le ha.ge, List.drop_of_length_le hb.ge]
      exact .nil
  | cons hst _ ih =>
      obtain ⟨run, run', hrun, hrun', hsame⟩ := hst
      obtain ⟨_, hcode, -, hrunA, hrestA⟩ := tiledFrom_cons_iff.mp ha
      obtain ⟨_, hcode', -, hrunB, hrestB⟩ := tiledFrom_cons_iff.mp hb
      cases hrun.symm.trans hrunA
      cases hrun'.symm.trans hrunB
      rw [hcode, hcode']
      refine List.rel_append hsame ?_
      -- runs of one length leave both codes at the same position
      rw [← hsame.length_eq] at hrestB ⊢
      exact ih hrestA hrestB

end Image

/-! ### The verdict -/

theorem Image.of_scriptByName? {m : Image} {name : String} {s : Script}
    (h : m.scriptByName? name = some s) : s ∈ m.scripts ∧ s.name = name :=
  of_find?_key h

namespace CompareOptions

variable {o : CompareOptions} {a b : Image}

/-- The partner of a script stands at the position of that script, to which both ids lead. -/
theorem Accepts.exists_partner (h : o.Accepts a b) (hmode : o.mode = .strict)
    (hall : o.scripts = none) (ha : a.Valid) (hb : b.Valid) {n : Nat} {s : Script}
    (hs : a.scripts[n]? = some s) : ∃ t, b.scriptByName? s.name = some t ∧
      b.scripts[n]? = some t ∧ s.SameFields t ∧ ∃ run run',
        ScriptPair.Matches ⟨a, b, s, t⟩ .strict (a.code.drop s.address.toNat)
          (b.code.drop t.address.toNat) run run' := by
  obtain ⟨t, run, run', ht, hhead, hmatches⟩ := h.exists_matches (by simp [hmode])
    (List.mem_of_getElem? hs) (includes_of_none hall s.name)
  rw [hmode] at hhead hmatches
  obtain ⟨hmem, hname⟩ := Image.of_scriptByName? ht
  have hsame := (ScriptPair.headerFindings_strict_iff hname.symm).mp hhead
  obtain ⟨k, hk⟩ := List.mem_iff_getElem?.mp hmem
  have hid : s.id = t.id := (Script.sameFields_iff.mp hsame).1
  -- names may be taken twice, so it is the id that tells where the partner stands
  have hkn : k = n := by
    have hnumber := hb.numbered k t hk
    rw [← hid, ha.numbered n s hs] at hnumber
    omega
  exact ⟨t, ht, hkn ▸ hk, hsame, run, run', hmatches⟩

theorem Accepts.sameScripts (h : o.Accepts a b) (hmode : o.mode = .strict)
    (hall : o.scripts = none) (ha : a.Valid) (hb : b.Valid) :
    List.Forall₂ Script.SameFields a.scripts b.scripts := by
  refine forall₂_iff_getElem?.mpr ⟨countFindings_eq_nil_iff.mp h.count, fun n s hs => ?_⟩
  obtain ⟨t, -, ht, hsame, -⟩ := h.exists_partner hmode hall ha hb hs
  exact ⟨t, ht, hsame⟩

theorem Accepts.sameFields (h : o.Accepts a b) (hmode : o.mode = .strict)
    (hall : o.scripts = none) (ha : a.Valid) (hb : b.Valid) (htiledA : a.TiledFrom 0 a.scripts)
    (htiledB : b.TiledFrom 0 b.scripts) : a.SameFields b := by
  have hcode := Image.sameFields_of_tiled htiledA htiledB <| by
    refine forall₂_iff_getElem?.mpr ⟨countFindings_eq_nil_iff.mp h.count, fun n s hs => ?_⟩
    obtain ⟨t, -, ht, -, run, run', hmatches⟩ := h.exists_partner hmode hall ha hb hs
    exact ⟨t, ht, hmatches.agrees.sameFields⟩
  exact ⟨h.version, (globalFindings_strict_iff hmode).mp h.globals,
    (dataFindings_strict_iff hmode).mp h.data, (autostartFindings_strict_iff hmode).mp h.autostart,
    h.sameScripts hmode hall ha hb, hcode,
    ((initFindings_strict_iff hmode).mp h.inits).imp fun _ _ => .of_valueEq⟩

theorem accepts_of_sameFields (h : a.SameFields b) (hmode : o.mode = .strict)
    (hlimit : 0 < o.maxMismatches) (ha : a.Valid) (hnames : (b.scripts.map Script.name).Nodup)
    (hnumbers : ∀ x ∈ a.inits, ¬ x.value.IsNaN) : o.Accepts a b := by
  obtain ⟨hcount, hscripts⟩ := forall₂_iff_getElem?.mp h.scripts
  refine ⟨h.version, (globalFindings_strict_iff hmode).mpr h.globals,
    countFindings_eq_nil_iff.mpr hcount, fun s hs _ => ⟨hlimit, ?_⟩,
    (autostartFindings_strict_iff hmode).mpr h.autostart,
    (dataFindings_strict_iff hmode).mpr h.data, (initFindings_strict_iff hmode).mpr ?_⟩
  · obtain ⟨n, hn⟩ := List.mem_iff_getElem?.mp hs
    obtain ⟨t, ht, hsame⟩ := hscripts n s hn
    obtain ⟨-, hname, -, -, -, haddress⟩ := Script.sameFields_iff.mp hsame
    obtain ⟨run, hrun, -⟩ := ha.runs s hs
    refine findsNothing_scriptEntries_iff.mpr ⟨t, ?_, ?_⟩
    · rw [hname]
      exact find?_of_nodup hnames (List.mem_of_getElem? ht)
    · rw [hmode, ScriptPair.findsNothing_compare_iff]
      refine ⟨(ScriptPair.headerFindings_strict_iff hname).mpr hsame, ?_⟩
      simp only
      rw [← haddress]
      exact ScriptPair.agrees_of_sameFields (List.forall₂_drop _ h.code) hrun
  · exact ((List.forall₂_and_left _ _).mpr ⟨hnumbers, h.inits⟩).imp fun _ _ hsame =>
      hsame.2.valueEq hsame.1

end CompareOptions

/-- Strict mode decides whether valid images are stored the same. -/
theorem compare_strict_decides {o : CompareOptions} {a b : Image} (hmode : o.mode = .strict)
    (hall : o.scripts = none) (hlimit : 0 < o.maxMismatches) (ha : a.isValid = true)
    (hb : b.isValid = true) (htiledA : a.TiledFrom 0 a.scripts)
    (htiledB : b.TiledFrom 0 b.scripts) (hnames : (b.scripts.map Script.name).Nodup)
    (hnumbers : ∀ x ∈ a.inits, ¬ x.value.IsNaN) :
    ∃ c, compareImages o a b = .ok c ∧ (c.equal = true ↔ a.SameFields b) := by
  obtain ⟨c, hc⟩ := CompareOptions.exists_compareImages_strict (a := a) (b := b) hmode
  rw [Image.isValid_iff] at ha hb
  refine ⟨c, hc, (CompareOptions.equal_iff_accepts hc).trans ⟨?_, ?_⟩⟩
  · intro h
    exact h.sameFields hmode hall ha hb htiledA htiledB
  · intro h
    exact CompareOptions.accepts_of_sameFields h hmode hlimit ha hnames hnumbers

namespace Sample

/-- The asker with an initial value. -/
def askerSet : Image :=
  { askerFirst with inits := [.null, ⟨"x", .number ⟨0x80000000⟩⟩] }

/-- The asker from another file, with the other zero and with a data type at its ENDs. -/
def askerMoved : Image :=
  { askerFirst with
    scripts := askerFirst.scripts.map fun s => { s with source := "moved.txt" }
    code := askerFirst.code.map fun i =>
      if i.opcode = .endRun then { i with type := .int } else i.atLine 9
    inits := [.null, ⟨"x", .number ⟨0⟩⟩] }

theorem moved_sameFields : ∃ c, compareImages { mode := .strict } askerSet askerMoved = .ok c ∧
    c.equal = true ∧ askerSet.SameFields askerMoved := by
  have htiled : askerSet.TiledFrom 0 askerSet.scripts := .next rfl rfl (.next rfl rfl .done)
  have htiled' : askerMoved.TiledFrom 0 askerMoved.scripts := .next rfl rfl (.next rfl rfl .done)
  have hnumbers : ∀ x ∈ askerSet.inits, ¬ x.value.IsNaN := by
    intro x hx
    simp only [askerSet, List.mem_cons, List.not_mem_nil, or_false] at hx
    rcases hx with rfl | rfl <;> exact Bool.false_ne_true
  obtain ⟨c, hc, hequal⟩ := compare_strict_decides (o := { mode := .strict }) rfl rfl (by decide)
    (by decide +kernel) (by decide +kernel) htiled htiled' (by decide) hnumbers
  obtain ⟨c', hc', hequal'⟩ : ∃ c, compareImages { mode := .strict } askerSet askerMoved = .ok c ∧
      c.equal = true := exists_ok (by decide +kernel)
  cases hc.symm.trans hc'
  exact ⟨c, hc, hequal', hequal.mp hequal'⟩

end Sample

end ScriptImage
