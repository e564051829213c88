import ScriptImage.Proofs.Checks
import ScriptImage.Proofs.Singles
import ScriptImage.Proofs.Link.Variables

/-!
Linked images are valid. Each instruction of the image stands in the copy of a script, so that no
defect is found in it follows from what relocation did to it; script ids, jumps and what starts at
load time are sound in every draft.
-/

namespace ScriptImage

namespace LinkedCopy

variable {modules : List ObjectModule} {image : Image} {i j : Nat} {m : ObjectModule} {s : Script}
  {r : Relocation} {run : List Instruction} {c : CopiedScript}

theorem exists_varName? (h : LinkedCopy modules image i m j s r run c)
    (hm : m.image.globals.Declared) {ins : Instruction} (hins : ins ∈ c.code) {id : UInt32}
    (hid : ins.operand = .variable (.internal id)) :
    ∃ name, image.varName? c.script id = some name := by
  obtain ⟨k, hk⟩ := List.mem_iff_getElem?.mp hins
  obtain ⟨source, -, hbecomes⟩ := h.origin hk
  cases hbecomes with
  | carries => cases hid
  | own hoperand =>
      generalize source.operand = o at hoperand
      cases hoperand with
      | «variable» hnew =>
          obtain ⟨name, -, hname⟩ := h.varName?_eq hm hnew
          cases hid
          exact ⟨name, hname⟩
      | _ => cases hid

theorem reaches (h : LinkedCopy modules image i m j s r run c) {k : Nat} {ins : Instruction}
    (hk : c.code[k]? = some ins)
    (hjump : ∀ a, ins.operand = .address a → a.toNat < image.code.length) :
    image.Reaches ins.operand := by
  obtain ⟨source, -, hbecomes⟩ := h.origin hk
  cases hbecomes with
  | carries => trivial
  | own hoperand =>
      generalize source.operand = o at hoperand
      cases hoperand with
      | address => exact hjump _ rfl
      | script hid => exact ⟨_, rfl, h.fits.scripts _ _ hid⟩
      | «variable» => exact ⟨_, rfl⟩
      | _ => trivial

/-- The float two positions before a reference names a variable. -/
theorem paired (h : LinkedCopy modules image i m j s r run c) {k : Nat} {ins : Instruction}
    (hk : c.code[k]? = some ins) (href : ins.isReference = true) :
    ∃ p v, 2 ≤ k ∧ c.code[k - 2]? = some p ∧ p.floatVariable? = some v := by
  obtain ⟨source, hsource, hbecomes⟩ := h.origin hk
  have href' : source.isReference = true := by
    rw [hbecomes.eq] at href
    exact href
  obtain ⟨hk2, p, v, id, q, -, hv, -, hq, hop, hoperand⟩ :=
    Relocation.paired_of_moveRun h.moved hsource href'
  obtain ⟨hpush, -⟩ := Instruction.opcode_of_floatVariable? hv
  exact ⟨q, _, hk2, hq, Instruction.floatVariable?_of_operand (hop.trans hpush) hoperand⟩

end LinkedCopy

section

variable {options : LinkOptions} {modules : List ObjectModule} {linked : Linked}

theorem scriptDefect?_eq_none (hdeclared : ∀ m ∈ modules, m.image.globals.Declared)
    (h : link options modules = .ok linked) (hsmall : linked.image.code.length < 0x100000000)
    {n : Nat} {s' : Script} (hs : linked.image.scripts[n]? = some s') :
    linked.image.scriptDefect? s' n = none := by
  obtain ⟨i, m, j, s, r, run, c, hcopy, hn, rfl⟩ := exists_linkedCopy hdeclared h hs
  refine Image.scriptDefect?_eq_none_iff.mpr ⟨(sound_of_link h).numbered n c.script hs, c.code,
    hcopy.standsFor.scriptCode hsmall, fun ins hins id hid => ?_⟩
  exact hcopy.exists_varName? (hdeclared m hcopy.module_mem) hins hid

theorem codeDefect?_eq_none (hdeclared : ∀ m ∈ modules, m.image.globals.Declared)
    (h : link options modules = .ok linked) {pc : Nat} {ins : Instruction}
    (hpc : linked.image.code[pc]? = some ins) : linked.image.codeDefect? ins pc = none := by
  obtain ⟨i, m, j, s, r, run, c, k, start, hcopy, hk, hstart, hcode⟩ :=
    exists_copied_instruction hdeclared h hpc
  have hjump := (sound_of_link h).jumps ins (List.mem_of_getElem? hpc)
  rw [Image.codeDefect?, Option.orElse_eq_none, Image.operandDefect?_eq_none_iff,
    Image.referenceDefect?_eq_none_iff]
  refine ⟨hcopy.reaches hk hjump, fun href => ?_⟩
  obtain ⟨p, v, hk2, hp, hv⟩ := hcopy.paired hk href
  have hlt := (List.getElem?_eq_some_iff.mp hp).1
  refine ⟨p, v, by omega, ?_, hv⟩
  rw [show pc - 2 = start + (k - 2) by omega, hcode _ hlt, hp]

theorem autostartDefect?_eq_none (h : link options modules = .ok linked) {r : SymbolRef}
    (hr : r ∈ linked.image.autostart) : linked.image.autostartDefect? r = none :=
  Image.autostartDefect?_eq_none_iff.mpr ((sound_of_link h).autostart r hr)

/-- A link gives a valid image, whatever the scripts and instructions of its modules are. -/
theorem link_defect?_eq_none (hdeclared : ∀ m ∈ modules, m.image.globals.Declared)
    (h : link options modules = .ok linked) (hsmall : linked.image.code.length < 0x100000000) :
    linked.image.defect? = none := by
  rw [Image.defect?, Option.orElse_eq_none, Option.orElse_eq_none, List.findSome?_eq_none_iff,
    List.findSome?_eq_none_iff, List.findSome?_eq_none_iff]
  refine ⟨?_, ?_, ?_⟩
  · rintro ⟨s, n⟩ hmem
    exact scriptDefect?_eq_none hdeclared h hsmall (List.mem_zipIdx_iff_getElem?.mp hmem)
  · rintro ⟨ins, pc⟩ hmem
    exact codeDefect?_eq_none hdeclared h (List.mem_zipIdx_iff_getElem?.mp hmem)
  · exact fun r => autostartDefect?_eq_none h

theorem Sample.defect?_eq_none :
    ∃ linked, link {} Sample.modules = .ok linked ∧ linked.image.defect? = none := by
  obtain ⟨linked, h, hcode, -⟩ := Sample.exists_linked
  refine ⟨linked, h, link_defect?_eq_none Sample.declared h ?_⟩
  rw [hcode]
  decide

end

end ScriptImage
