import ScriptImage.Proofs.Checks
import ScriptImage.Proofs.Link.References
import ScriptImage.Proofs.Link.Settled

/-!
References of valid images. The check of an image looks for the float of a reference by its position
in the whole code, and asks no more of it than to be a whole number. A link looks for the float
inside the run, and asks for the id of a variable of the script. So an image may be valid with
references that no link accepts: their float stands before the script, or is the id of no variable.
-/

namespace ScriptImage

theorem SymbolRef.decode_eq_internal_iff {w : Int32} {id : UInt32} :
    decode w = .internal id ↔ (id.toNat : Int) = w.toInt := by
  have hid := id.toNat_lt
  have hw := w.toInt_lt
  unfold decode
  split
  · rw [internal.injEq, ← UInt32.toNat_inj, Word.toNat_ofNat (by omega)]
    omega
  · rw [iff_false_left (by simp)]
    omega

theorem Instruction.floatVariable?_eq_some_iff {i : Instruction} {r : SymbolRef} :
    i.floatVariable? = some r ↔ i.opcode = .push ∧
      ∃ x, i.operand = .float x ∧ x.isIntegral = true ∧ r = .decode x.toInt32 := by
  constructor
  · intro h
    unfold floatVariable? at h
    split at h
    · rename_i x hop hx
      obtain ⟨hwhole, hr⟩ := Option.ite_none_right_eq_some.mp h
      exact ⟨hop, x, hx, hwhole, (Option.some.inj hr).symm⟩
    · cases h
  · rintro ⟨hop, x, hx, hwhole, rfl⟩
    rw [floatVariable?, hop, hx]
    simp only [hwhole, if_true]

namespace Image

variable {m : Image} {s : Script} {run : List Instruction} {k : Nat}

/-- Two positions before position `k` the run pushes a float that names a variable known in its
script. -/
def Paired (m : Image) (s : Script) (run : List Instruction) (k : Nat) : Prop :=
  2 ≤ k ∧ ∃ p id name, run[k - 2]? = some p ∧ p.floatVariable? = some (.internal id) ∧
    m.varName? s id = some name

/-- A number that is the id of a variable in a script: of the null variable, of a slot up to the
boundary, or of a local behind it. -/
def IsVariableId (m : Image) (s : Script) (n : Int) : Prop :=
  n = 0 ∨
    (0 < n ∧ n ≤ s.boundary.toNat ∧ (m.globals.bySlot? (UInt32.ofNat n.toNat)).isSome = true) ∨
      (s.boundary.toNat < n ∧ n ≤ s.boundary.toNat + s.locals.length)

theorem exists_varName?_iff {id : UInt32} :
    (∃ name, m.varName? s id = some name) ↔ m.IsVariableId s id.toNat := by
  have hid : UInt32.ofNat (id.toNat : Int).toNat = id := by simp
  simp only [varName?_eq_some_iff, IsVariableId, hid]
  constructor
  · rintro ⟨name, hname⟩
    cases hname with
    | null => exact .inl rfl
    | global h0 hle hslot =>
        have hpos := Word.toNat_pos.mpr h0
        have hle := UInt32.le_iff_toNat_le.mp hle
        exact .inr (.inl ⟨by omega, by omega, by rw [hslot]; rfl⟩)
    | «local» hlt hl =>
        have hlt := UInt32.lt_iff_toNat_lt.mp hlt
        have hposition := (List.getElem?_eq_some_iff.mp hl).1
        exact .inr (.inr ⟨by omega, by omega⟩)
  · rintro (h0 | ⟨hpos, hle, hslot⟩ | ⟨hlt, hle⟩)
    · obtain rfl : id = 0 := UInt32.toNat_inj.mp (by simpa using h0)
      exact ⟨_, .null⟩
    · obtain ⟨⟨v, element⟩, hv⟩ := Option.isSome_iff_exists.mp hslot
      exact ⟨_, .global (Word.toNat_pos.mp (by omega)) (UInt32.le_iff_toNat_le.mpr (by omega)) hv⟩
    · have hposition : id.toNat - s.boundary.toNat - 1 < s.locals.length := by omega
      exact ⟨_, .«local» (UInt32.lt_iff_toNat_lt.mpr (by omega))
        (List.getElem?_eq_getElem hposition)⟩

/-- A float that is a whole number names a variable when it is the id of one. -/
theorem exists_floatVariable?_iff {p : Instruction} {x : Binary32} (hop : p.opcode = .push)
    (hx : p.operand = .float x) (hwhole : x.isIntegral = true) :
    (∃ id name, p.floatVariable? = some (.internal id) ∧ m.varName? s id = some name) ↔
      m.IsVariableId s x.toInt32.toInt := by
  have hfloat : p.floatVariable? = some (.decode x.toInt32) :=
    Instruction.floatVariable?_eq_some_iff.mpr ⟨hop, x, hx, hwhole, rfl⟩
  simp only [hfloat, Option.some.injEq, SymbolRef.decode_eq_internal_iff, exists_and_left,
    exists_varName?_iff]
  constructor
  · rintro ⟨id, hid, hvariable⟩
    rwa [hid] at hvariable
  · intro hvariable
    -- none of the three kinds of ids is negative
    have hpos : 0 ≤ x.toInt32.toInt := by
      rcases hvariable with h0 | ⟨hpos, -⟩ | ⟨hlt, -⟩ <;> omega
    have hnat := Word.toNat_toUInt32 hpos
    exact ⟨_, hnat, by rwa [hnat]⟩

/-- An instruction of a run stands in the code as far behind the start of its script. -/
theorem getElem?_code (hrun : m.scriptCode? s = some run) {i : Instruction}
    (hk : run[k]? = some i) : m.code[s.address.toNat + k]? = some i := by
  have hhead := head?_drop_of_closedRun? hrun hk
  rwa [List.drop_drop, List.head?_drop] at hhead

/-- A relocation with all symbols of an image accepts a reference exactly when it is paired. -/
theorem exists_pairedVariable_iff {name : String} {pushes : List UInt32} {r : Relocation}
    (hglobals : m.globals.Declared)
    (hcovers : r.Covers m.globals.slots.toNat (m.asModule name pushes)) {address : UInt32}
    (haddress : address.toNat = s.address.toNat + k) :
    (∃ id, r.pairedVariable (if 2 ≤ k then run[k - 2]? else none) s.scope address = .ok id) ↔
      m.Paired s run k := by
  have hresolves : ∀ v, (∃ id, r.NewId s.scope v id) ↔
      ∃ id var, v = .internal id ∧ m.varName? s id = some var := by
    intro v
    rw [hcovers.exists_newId_iff hglobals]
    constructor
    · rintro ⟨⟨var, hvar⟩, -⟩
      cases v with
      | internal id => exact ⟨id, var, rfl, hvar⟩
      | external p => simp [ObjectModule.meaning?, asModule] at hvar
    · rintro ⟨id, var, rfl, hvar⟩
      exact Settled.resolves hvar
  simp only [Relocation.pairedVariable_eq_ok_iff, Paired]
  constructor
  · rintro ⟨id, -, p, v, hp, hv, hid⟩
    split at hp
    · rename_i hk
      obtain ⟨w, var, rfl, hvar⟩ := (hresolves v).mp ⟨id, hid⟩
      exact ⟨hk, p, w, var, hp, hv, hvar⟩
    · cases hp
  · rintro ⟨hk, p, w, var, hp, hw, hvar⟩
    obtain ⟨id, hid⟩ := (hresolves _).mpr ⟨w, var, rfl, hvar⟩
    exact ⟨id, by omega, p, _, by rw [if_pos hk, hp], hw, hid⟩

end Image

/-- A reference of a valid image has the push of a whole number two positions before it in the code.
It is paired exactly when this is also two positions before it in the run and the number is the id
of a variable of the script; and when the image is linked as a module, exactly the paired
references are accepted. -/
theorem valid_reference_iff {m : Image} {s : Script} {run : List Instruction} {k : Nat}
    {i : Instruction} (hvalid : m.isValid = true) (hrun : m.scriptCode? s = some run)
    (hk : run[k]? = some i) (href : i.isReference = true) :
    (∃ p x, 2 ≤ s.address.toNat + k ∧ m.code[s.address.toNat + k - 2]? = some p ∧
      p.opcode = .push ∧ p.operand = .float x ∧ x.isIntegral = true ∧
        (m.Paired s run k ↔ 2 ≤ k ∧ m.IsVariableId s x.toInt32.toInt)) ∧
      ∀ (name : String) (pushes : List UInt32) (r : Relocation) (address : UInt32),
        m.globals.Declared →
        r.Covers m.globals.slots.toNat (m.asModule name pushes) →
          address.toNat = s.address.toNat + k →
            ((∃ id, r.pairedVariable (if 2 ≤ k then run[k - 2]? else none) s.scope address =
              .ok id) ↔ m.Paired s run k) := by
  have hcode := Image.getElem?_code hrun hk
  obtain ⟨p, r, hposition, hp, hr⟩ := (Image.isValid_iff.mp hvalid).references _ i hcode href
  obtain ⟨hop, x, hx, hwhole, -⟩ := Instruction.floatVariable?_eq_some_iff.mp hr
  refine ⟨⟨p, x, hposition, hp, hop, hx, hwhole, ?_⟩,
    fun _ _ _ _ hglobals hcovers => Image.exists_pairedVariable_iff hglobals hcovers⟩
  rw [Image.Paired, and_congr_right_iff]
  intro h2
  -- the float is then an instruction of the run itself
  have hlt := (List.getElem?_eq_some_iff.mp hk).1
  have hown : run[k - 2]? = some p := by
    have hget : run[k - 2]? = some _ := List.getElem?_eq_getElem (by omega)
    have hsame := Image.getElem?_code hrun hget
    rw [← Nat.add_sub_assoc h2, hp] at hsame
    rw [hget, hsame]
  rw [← Image.exists_floatVariable?_iff hop hx hwhole, hown]
  simp only [Option.some.injEq, exists_eq_left', exists_and_left]

namespace Sample

/-- The reference of the writer is paired, and a link accepts it. -/
theorem reference_paired : writer.image.Paired main writer.image.code 2 ∧
    ∃ p, Draft.prepare false 1 {} writer = .ok p ∧
      ∃ id, p.relocation.pairedVariable writer.image.code[0]? main.scope 2 = .ok id := by
  obtain ⟨⟨push, x, -, hpush, -, hx, -, hiff⟩, hlink⟩ :=
    valid_reference_iff (m := writer.image) (s := main) (k := 2) (i := .byReference .store)
      (by decide +kernel) rfl rfl rfl
  cases hpush
  cases hx
  have hpaired : writer.image.Paired main writer.image.code 2 := by
    refine hiff.mpr ⟨Nat.le_refl 2, .inr (.inl ⟨?_, ?_, ?_⟩)⟩ <;> decide +kernel
  obtain ⟨p, hp, -⟩ : ∃ p, Draft.prepare false 1 {} writer = .ok p ∧ True :=
    exists_ok (by decide +kernel)
  have hcovers := (Draft.prepares_of_prepare hp).covers .empty writer_declared
    (TextPool.stores_empty false)
  exact ⟨hpaired, p, hp, (hlink "writer" [] p.relocation 2 writer_declared hcovers rfl).mpr hpaired⟩

def tail : Script := { main with id := 2, name := "tail", address := 2 }

def unknown : Script := { main with id := 3, name := "unknown", address := 4 }

def placeholder : Script := { main with id := 4, name := "placeholder", address := 8 }

/-- Three references to no variable of their script: the float of the first stands before it, that
of the second is an id past its variables, and that of the third a position in a table of
imports. -/
def stray : Image where
  globals := writer.image.globals
  scripts := [main, tail, unknown, placeholder]
  code := writer.image.code
    ++ [.pushVarId (.internal 5), .pushInt 7, .byReference .store, .endRun]
    ++ [.pushVarId (.external 0), .pushInt 7, .byReference .store, .endRun]

/-- The check accepts all three. -/
theorem stray_references : stray.isValid = true ∧ stray.globals.Declared ∧
    ∀ sk ∈ [(tail, 0), (unknown, 2), (placeholder, 2)], sk.1 ∈ stray.scripts ∧
      ∃ run i, stray.scriptCode? sk.1 = some run ∧ run[sk.2]? = some i ∧ i.isReference = true ∧
        ¬ stray.Paired sk.1 run sk.2 := by
  refine ⟨by decide +kernel, writer_declared, ?_⟩
  simp only [List.forall_mem_cons, List.not_mem_nil, false_implies, implies_true, and_true]
  refine ⟨⟨by decide, _, _, rfl, rfl, rfl, ?_⟩, ⟨by decide, _, _, rfl, rfl, rfl, ?_⟩,
    ⟨by decide, _, _, rfl, rfl, rfl, ?_⟩⟩
  · exact fun h => absurd h.1 (by decide)
  · rintro ⟨-, p, id, name, hp, hfloat, hname⟩
    cases hp
    have hid : (Instruction.pushVarId (.internal 5)).floatVariable? = some (.internal 5) := by
      decide +kernel
    cases hid.symm.trans hfloat
    have hnone : stray.varName? unknown 5 = none := by decide +kernel
    cases hnone.symm.trans hname
  · rintro ⟨-, p, id, name, hp, hfloat, -⟩
    cases hp
    have hid : (Instruction.pushVarId (.external 0)).floatVariable? = some (.external 0) := by
      decide +kernel
    cases hid.symm.trans hfloat

end Sample

end ScriptImage
