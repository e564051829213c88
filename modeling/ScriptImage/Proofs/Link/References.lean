import ScriptImage.Proofs.Link.Validity

/-!
References and the floats before them. A reference takes its variable from a float that was pushed
two instructions earlier, and relocation writes the new id into that float. The float keeps 24
significant bits and is read back as a signed word, so it names the variable only when its id is
one of those that survive both.
-/

namespace ScriptImage

/-- Two ids of locals that have one name. -/
def Script.SameLocal (s : Script) (a b : UInt32) : Prop :=
  s.boundary < a ∧ s.boundary < b ∧
    s.locals[a.toNat - s.boundary.toNat - 1]? = s.locals[b.toNat - s.boundary.toNat - 1]?

/-- Ids that mean the same are the same, unless locals share a name. -/
theorem Image.same_name_iff {image : Image} (hg : image.globals.Declared) {s : Script}
    {a b : UInt32} {name : VarName} (ha : image.varName? s a = some name) :
    image.varName? s b = some name ↔ b = a ∨ s.SameLocal b a := by
  rw [varName?_eq_some_iff] at ha ⊢
  constructor
  · intro hb
    cases ha with
    | null =>
        cases hb with
        | null => exact Or.inl rfl
    | global h0 hle hv =>
        generalize hname : VarName.global _ _ = name at hb
        cases hb with
        | null => cases hname
        | «local» => cases hname
        | global h0' hle' hv' =>
            simp only [VarName.global.injEq] at hname
            obtain ⟨hname, rfl⟩ := hname
            exact Or.inl (GlobalTable.bySlot?_inj hg.consistent hv' hv hname.symm)
    | «local» hlt hl =>
        cases hb with
        | «local» hlt' hl' => exact Or.inr ⟨hlt', hlt, hl'.trans hl.symm⟩
  · rintro (rfl | ⟨hlt, hlt', hl⟩)
    · exact ha
    · cases ha with
      | null => exact absurd rfl (Word.ne_zero_of_lt hlt')
      | global _ hle _ => exact absurd hlt' (UInt32.not_lt.mpr hle)
      | «local» _ hl' => exact .«local» hlt (hl.trans hl')

/-- The id in the image of a variable of a script of module `i`. -/
inductive ImageId (modules : List ObjectModule) (image : Image) (i : Nat) (m : ObjectModule)
    (s : Script) : SymbolRef → UInt32 → Prop
  | null : ImageId modules image i m s (.internal 0) 0
  | local {v id : UInt32} : s.boundary < v →
      id.toNat + m.image.globals.slots.toNat = v.toNat + slotsOf (allVars modules) →
        ImageId modules image i m s (.internal v) id
  | global {v id : UInt32} : v ≠ 0 → v ≤ s.boundary →
      id.toNat = v.toNat + slotsOf (allVars (modules.take i)) →
        ImageId modules image i m s (.internal v) id
  | imported {p id : UInt32} {v : ImportedVar} {w : GlobalVar} :
      m.importedVars[p.toNat]? = some v → w.name = v.name →
        image.globals.bySlot? id = some (w, v.index) →
          ImageId modules image i m s (.external p) id

section

variable {modules : List ObjectModule} {image : Image} {i j : Nat} {m : ObjectModule} {s : Script}
  {r : Relocation} {run : List Instruction} {c : CopiedScript}

theorem LinkedCopy.imageId (h : LinkedCopy modules image i m j s r run c) {v : SymbolRef}
    {id : UInt32} (hid : r.NewId s.scope v id) : ImageId modules image i m s v id := by
  have hfits := h.fits
  cases hid with
  | null => exact .null
  | «local» hv _ hid =>
      have hshift := hfits.localShift
      exact .«local» hv (by omega)
  | global h0 hv _ hid =>
      rw [hfits.globalOffset] at hid
      exact .global h0 hv hid
  | imported hp =>
      obtain ⟨v, w, hv, -, hname, -, hslot⟩ := hfits.imported _ id hp
      exact .imported hv hname hslot

/-- The float before a reference carries the id of its variable, and what is read from it means the
variable exactly when the id survives: it is a multiple of the unit that a float of its size can
tell apart and a signed word, or it is the last signed word. Otherwise another id is read, which
means the variable only if it is a local of the same name. -/
theorem link_reference_variable {options : LinkOptions} {linked : Linked}
    (hdeclared : ∀ m ∈ modules, m.image.globals.Declared)
    (h : link options modules = .ok linked)
    (hm : modules[i]? = some m) (hs : m.image.scripts[j]? = some s) :
    ∃ (run : List Instruction) (s' : Script) (run' : List Instruction),
      m.image.scriptCode? s = some run ∧ s'.name = s.name ∧
      linked.image.StandsFor (copyIndex modules i j) s' run' ∧
      ∀ (k : Nat) (ins : Instruction), run[k]? = some ins → ins.isReference = true →
        ∃ (p : Instruction) (v : SymbolRef) (name : VarName) (id : UInt32) (p' : Instruction),
          2 ≤ k ∧ run[k - 2]? = some p ∧ p.floatVariable? = some v ∧
          m.meaning? s v = some name ∧ ImageId modules linked.image i m s v id ∧
          linked.image.varName? s' id = some name ∧
          run'[k - 2]? = some p' ∧ p'.opcode = .push ∧ p'.operand = .float (.ofInt id.toNat) ∧
          p'.floatVariable? = some (.internal (carriedId id)) ∧
          (linked.image.varName? s' (carriedId id) = some name ↔
            (id = 0x7FFFFFFF ∨ id < 0x80000000 ∧ singleUnit id.toNat ∣ id.toNat) ∨
              s'.SameLocal (carriedId id) id) := by
  obtain ⟨r, run, c, hcopy⟩ := linkedCopy hdeclared h hm hs
  refine ⟨run, c.script, c.code, hcopy.closed, hcopy.name, hcopy.standsFor, ?_⟩
  intro k ins hk href
  obtain ⟨hk2, p, v, id, p', hp, hv, hid, hp', hop, hoperand⟩ :=
    Relocation.paired_of_moveRun hcopy.moved hk href
  obtain ⟨name, hmeaning, hname⟩ := hcopy.varName?_eq (hdeclared m (List.mem_of_getElem? hm)) hid
  have hpush : p'.opcode = .push := hop.trans (Instruction.opcode_of_floatVariable? hv).1
  refine ⟨p, v, name, id, p', hk2, hp, hv, hmeaning, hcopy.imageId hid, hname, hp', hpush,
    hoperand, Instruction.floatVariable?_of_operand hpush hoperand, ?_⟩
  rw [← carriedId_eq_iff]
  exact Image.same_name_iff hcopy.declared hname

end

namespace Sample

theorem reference_variable :
    ∃ (linked : Linked) (s' : Script) (run' : List Instruction) (p : Instruction) (id : UInt32),
      link {} modules = .ok linked ∧ linked.image.StandsFor 0 s' run' ∧ run'[0]? = some p ∧
        p.floatVariable? = some (.internal id) ∧
        linked.image.varName? s' id = some (.global "own" 0) := by
  obtain ⟨linked, h, -⟩ := exists_linked
  have hm : modules[1]? = some reader := rfl
  have hs : reader.image.scripts[0]? = some main := rfl
  obtain ⟨run, s', run', hrun, -, hstands, hall⟩ := link_reference_variable declared h hm hs
  rw [scriptCode?_main, Option.some.injEq] at hrun
  subst hrun
  obtain ⟨p, v, name, id, p', -, hp, hv, hmeaning, hid, -, hp', -, -, hfloat, hiff⟩ :=
    hall 2 (.byReference .store) rfl rfl
  cases hp
  have hsource : (Instruction.pushVarId (.internal 1)).floatVariable? = some (.internal 1) := by
    decide +kernel
  rw [hsource, Option.some.injEq] at hv
  subst hv
  have hown : reader.meaning? main (.internal 1) = some (.global "own" 0) := by
    decide +kernel
  rw [hown, Option.some.injEq] at hmeaning
  subst hmeaning
  have hid : id = 4 := by
    cases hid with
    | «local» hlt _ => exact absurd hlt (by decide)
    | global _ _ hid => exact UInt32.toNat_inj.mp hid
  subst hid
  have hsurvives : (4 : UInt32) < 0x80000000 ∧
      singleUnit (4 : UInt32).toNat ∣ (4 : UInt32).toNat := by
    decide +kernel
  exact ⟨linked, s', run', p', _, h, hstands, hp', hfloat, hiff.mpr (Or.inl (Or.inr hsurvives))⟩

/-- An array that ends at the last id below which a float tells all ids apart. -/
def big : ObjectModule where
  name := "big"
  image := {
    globals := { entries := [("big", ⟨"big", 0x1000000⟩)], starts := [1], slots := 0x1000000 } }

/-- Writes a global of its own through a reference. -/
def writer : ObjectModule where
  name := "writer"
  image := {
    globals := { entries := [("x", ⟨"x", 1⟩)], starts := [1], slots := 1 }
    scripts := [main]
    code := [.pushVarId (.internal 1), .pushInt 7, .byReference .store, .endRun] }

theorem big_declared : big.image.globals.Declared := by
  have h : GlobalTable.empty.declare ⟨"big", 0x1000000⟩ = .ok (1, big.image.globals) := by decide
  exact .declare .empty h

theorem writer_declared : writer.image.globals.Declared := by
  have h : GlobalTable.empty.declare ⟨"x", 1⟩ = .ok (1, writer.image.globals) := by decide
  exact .declare .empty h

/-- Behind that array the float before the reference to `x` is read back as the id of the last
element of the array. -/
theorem reference_rounded :
    (∀ m ∈ [big, writer], m.image.globals.Declared) ∧
      writer.image.scriptCode? main = some writer.image.code ∧
      (∃ ins ∈ writer.image.code[2]?, ins.isReference = true) ∧
      (∃ p ∈ writer.image.code[0]?, p.floatVariable? = some (.internal 1)) ∧
      writer.meaning? main (.internal 1) = some (.global "x" 0) ∧
      ∃ linked, link {} [big, writer] = .ok linked ∧
        ∃ s' ∈ linked.image.scripts[0]?, ∃ run' ∈ linked.image.scriptCode? s', ∃ p' ∈ run'[0]?,
          p'.floatVariable? = some (.internal 0x1000000) ∧
          linked.image.varName? s' 0x1000000 = some (.global "big" 0xFFFFFF) := by
  refine ⟨?_, rfl, by decide, by decide +kernel, by decide +kernel, exists_ok ?_⟩
  · simp [big_declared, writer_declared]
  · decide +kernel

end Sample

end ScriptImage
