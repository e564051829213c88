import ScriptImage.Proofs.Link.Copies

/-!
Variables keep their meaning. A variable is named by the module's own tables, or it is imported
and named by the table of imports. In the image its new id, read inside the copy of its script,
names the same.
-/

namespace ScriptImage

/-- What a reference to a variable means in a script of a module. -/
def ObjectModule.meaning? (m : ObjectModule) (s : Script) : SymbolRef → Option VarName
  | .internal v => m.image.varName? s v
  | .external p => m.importedVars[p.toNat]?.map fun v => .global v.name v.index

namespace Image

/-- What a variable id means inside a script, case by case. -/
inductive Names (m : Image) (s : Script) : UInt32 → VarName → Prop
  | null : Names m s 0 .null
  | global {id element : UInt32} {v : GlobalVar} : id ≠ 0 → id ≤ s.boundary →
      m.globals.bySlot? id = some (v, element) → Names m s id (.global v.name element)
  | local {id : UInt32} {l : String} : s.boundary < id →
      s.locals[id.toNat - s.boundary.toNat - 1]? = some l → Names m s id (.local l)

theorem varName?_eq_some_iff {m : Image} {s : Script} {id : UInt32} {name : VarName} :
    m.varName? s id = some name ↔ m.Names s id name := by
  unfold varName?
  constructor
  · intro h
    split at h
    · rename_i h0
      cases h
      exact h0 ▸ .null
    · rename_i h0
      split at h
      · rename_i hle
        obtain ⟨⟨v, element⟩, hv, rfl⟩ := Option.map_eq_some_iff.mp h
        exact .global h0 hle hv
      · rename_i hle
        obtain ⟨l, hl, rfl⟩ := Option.map_eq_some_iff.mp h
        exact .«local» (UInt32.not_le.mp hle) hl
  · intro h
    cases h with
    | null => rfl
    | global h0 hle hv => rw [if_neg h0, if_pos hle, hv, Option.map_some]
    | «local» hlt hl =>
        rw [if_neg (Word.ne_zero_of_lt hlt), if_neg (UInt32.not_le.mpr hlt), hl, Option.map_some]

end Image

variable {modules : List ObjectModule} {image : Image} {i j : Nat} {m : ObjectModule} {s : Script}
  {r : Relocation} {run : List Instruction} {c : CopiedScript}

namespace LinkedCopy

/-- Globals of the image that precede the module's locals lie below the boundary of a copy. -/
theorem le_boundary (h : LinkedCopy modules image i m j s r run c) {id : UInt32}
    (hid : id.toNat ≤ s.boundary.toNat + r.localShift.toNat) : id ≤ c.script.boundary := by
  have hlt := id.toNat_lt
  rw [UInt32.le_iff_toNat_le, h.boundary, Word.toNat_saturate_eq]
  omega

/-- A relocated id means in the copy what it meant in the module. -/
theorem varName?_eq (h : LinkedCopy modules image i m j s r run c)
    (hm : m.image.globals.Declared) {v : SymbolRef} {id : UInt32}
    (hid : r.NewId s.scope v id) :
    ∃ name, m.meaning? s v = some name ∧ image.varName? c.script id = some name := by
  have hfits := h.fits
  have hoffset := hfits.globalOffset_le
  simp only [Image.varName?_eq_some_iff]
  cases hid with
  | null => exact ⟨.null, Image.varName?_eq_some_iff.mpr .null, .null⟩
  | «local» hv hle hid =>
      rename_i v
      have hvnat : s.boundary.toNat < v.toNat := UInt32.lt_iff_toNat_lt.mp hv
      have hlocals : v.toNat - s.boundary.toNat - 1 < s.locals.length := by
        have hsat := Word.toNat_saturate_le s.locals.length
        change v.toNat ≤ s.boundary.toNat + (Word.saturate s.locals.length).toNat at hle
        omega
      -- the shifted boundary is still below the id, so it was not cut off
      have hidlt := id.toNat_lt
      have hboundary : c.script.boundary.toNat = s.boundary.toNat + r.localShift.toNat := by
        rw [h.boundary, Word.toNat_saturate (by omega)]
      have hposition : id.toNat - c.script.boundary.toNat - 1 =
          v.toNat - s.boundary.toNat - 1 := by omega
      have hl := List.getElem?_eq_getElem hlocals
      refine ⟨.local s.locals[v.toNat - s.boundary.toNat - 1], ?_, ?_⟩
      · exact Image.varName?_eq_some_iff.mpr (.«local» hv hl)
      · refine .«local» (UInt32.lt_iff_toNat_lt.mpr (by omega)) ?_
        rw [h.locals, hposition]
        exact hl
  | global h0 hv hslots hid =>
      rename_i v
      have hvnat : v.toNat ≤ s.boundary.toNat := UInt32.le_iff_toNat_le.mp hv
      have hpos := Word.toNat_pos.mpr h0
      rw [hfits.slots] at hslots
      obtain ⟨w, element, hw⟩ := GlobalTable.bySlot?_isSome hm.consistent h0 hslots
      refine ⟨.global w.name element, ?_, ?_⟩
      · exact Image.varName?_eq_some_iff.mpr (.global h0 hv hw)
      · refine .global (Word.toNat_pos.mp (by omega)) (h.le_boundary (by omega)) ?_
        rw [hfits.globals v id h0 hslots hid, hw]
  | imported hp =>
      obtain ⟨v, w, hv, -, hname, hle, hslot⟩ := hfits.imported _ id hp
      have h0 : id ≠ 0 := by
        rintro rfl
        simp [GlobalTable.bySlot?_zero] at hslot
      have hle := UInt32.le_iff_toNat_le.mp hle
      refine ⟨.global v.name v.index, ?_, ?_⟩
      · simp [ObjectModule.meaning?, hv]
      · rw [← hname]
        exact .global h0 (h.le_boundary (by omega)) hslot

/-- An operand that names a variable is still one in the copy, and has its new id. -/
theorem variable_operand (h : LinkedCopy modules image i m j s r run c) {k : Nat}
    {ins : Instruction} {v : SymbolRef} (hk : run[k]? = some ins)
    (hv : ins.operand = .variable v) :
    ∃ ins' id, c.code[k]? = some ins' ∧ ins'.operand = .variable (.internal id) ∧
      r.NewId s.scope v id := by
  obtain ⟨ins', hk', hbecomes⟩ := h.becomes hk
  obtain ⟨isText, hoperand⟩ := hbecomes.newOperand (by simp [hv])
  rw [hv] at hoperand
  generalize hnew : ins'.operand = o at hoperand
  cases hoperand with
  | «variable» hid => exact ⟨_, _, hk', hnew, hid⟩

/-- The module that defines an imported variable comes before. -/
theorem imported_earlier (h : LinkedCopy modules image i m j s r run c) {p id : UInt32}
    (hp : r.importedVars[p.toNat]? = some id) :
    ∃ v i' m', m.importedVars[p.toNat]? = some v ∧ i' < i ∧ modules[i']? = some m' ∧
      v.name ∈ m'.image.globals.vars.map GlobalVar.name := by
  obtain ⟨v, w, hv, hw, hname, -⟩ := h.fits.imported _ id hp
  obtain ⟨m', hm', hw⟩ := List.mem_flatMap.mp hw
  obtain ⟨i', hi'⟩ := List.mem_iff_getElem?.mp hm'
  rw [List.getElem?_take] at hi'
  split at hi'
  · rename_i hlt
    exact ⟨v, i', m', hv, hlt, hi', List.mem_map.mpr ⟨w, hw, hname⟩⟩
  · cases hi'

end LinkedCopy

/-- Relocation keeps the meaning of variables. The run of a script is copied to the position that
counts the scripts before it; an operand that names a variable is there again, and its id means in
the image what it meant in the module. An imported variable is one of an earlier module. -/
theorem link_variable_meaning {options : LinkOptions} {linked : Linked}
    (hdeclared : ∀ m ∈ modules, m.image.globals.Declared)
    (h : link options modules = .ok linked)
    (hm : modules[i]? = some m) (hs : m.image.scripts[j]? = some s) :
    ∃ (run : List Instruction) (s' : Script) (run' : List Instruction),
      m.image.scriptCode? s = some run ∧ s'.name = s.name ∧
      linked.image.StandsFor (copyIndex modules i j) s' run' ∧
      ∀ (k : Nat) (ins : Instruction) (v : SymbolRef), run[k]? = some ins →
        ins.operand = .variable v → ∃ (ins' : Instruction) (id : UInt32) (name : VarName),
          run'[k]? = some ins' ∧ ins'.operand = .variable (.internal id) ∧
          m.meaning? s v = some name ∧ linked.image.varName? s' id = some name ∧
          ∀ p, v = .external p → ∃ w i' m', m.importedVars[p.toNat]? = some w ∧ i' < i ∧
            modules[i']? = some m' ∧ w.name ∈ m'.image.globals.vars.map GlobalVar.name := by
  obtain ⟨r, run, c, hcopy⟩ := linkedCopy hdeclared h hm hs
  refine ⟨run, c.script, c.code, hcopy.closed, hcopy.name, hcopy.standsFor, ?_⟩
  intro k ins v hk hv
  obtain ⟨ins', id, hins', hoperand, hid⟩ := hcopy.variable_operand hk hv
  obtain ⟨name, hmeaning, hname⟩ := hcopy.varName?_eq (hdeclared m (List.mem_of_getElem? hm)) hid
  refine ⟨ins', id, name, hins', hoperand, hmeaning, hname, ?_⟩
  rintro p rfl
  cases hid with
  | imported hp => exact hcopy.imported_earlier hp

theorem Sample.variable_meanings :
    ∃ (linked : Linked) (s' : Script) (run' : List Instruction),
      link {} Sample.modules = .ok linked ∧ linked.image.StandsFor 0 s' run' ∧
        (∃ ins id, run'[3]? = some ins ∧ ins.operand = .variable (.internal id) ∧
          linked.image.varName? s' id = some (.global "cells" 2)) ∧
        ∃ ins id, run'[4]? = some ins ∧ ins.operand = .variable (.internal id) ∧
          linked.image.varName? s' id = some (.local "copy") := by
  obtain ⟨linked, h, -⟩ := Sample.exists_linked
  have hm : Sample.modules[1]? = some Sample.reader := rfl
  have hs : Sample.reader.image.scripts[0]? = some Sample.main := rfl
  obtain ⟨run, s', run', hrun, -, hstands, hall⟩ := link_variable_meaning Sample.declared h hm hs
  rw [Sample.scriptCode?_main, Option.some.injEq] at hrun
  subst hrun
  refine ⟨linked, s', run', h, hstands, ?_, ?_⟩
  · obtain ⟨ins, id, name, hins, hoperand, hmeaning, hname, -⟩ :=
      hall 3 (.load (.external 0)) (.external 0) rfl rfl
    have himported : Sample.reader.meaning? Sample.main (.external 0) =
        some (.global "cells" 2) := by decide +kernel
    rw [himported] at hmeaning
    exact ⟨ins, id, hins, hoperand, hmeaning ▸ hname⟩
  · obtain ⟨ins, id, name, hins, hoperand, hmeaning, hname, -⟩ :=
      hall 4 (.store (.internal 2)) (.internal 2) rfl rfl
    have hlocal : Sample.reader.meaning? Sample.main (.internal 2) =
        some (.local "copy") := by decide +kernel
    rw [hlocal] at hmeaning
    exact ⟨ins, id, hins, hoperand, hmeaning ▸ hname⟩

end ScriptImage
