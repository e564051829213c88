import ScriptImage.Link.Relocation
import ScriptImage.Proofs.Runs

/-!
What relocation does to one instruction and to a run of them. The new id of a variable is told by
a relation with one case for each kind of variable. Moving a run keeps its length and operations,
and an instruction keeps its own relocated operand unless a reference two positions later asks it
to carry the id of a variable.
-/

namespace ScriptImage

@[simp] theorem liftM_eq_ok {α : Type} {x : Except Fault α} {a : α} :
    (liftM x : Except Stop α) = .ok a ↔ x = .ok a := by
  change x.mapError Stop.fault = .ok a ↔ _
  exact mapError_eq_ok

@[simp] theorem Stop.refuse_ne_ok {α : Type} {cause : LinkCause} {a : α} :
    (Stop.refuse cause : Except Stop α) = .ok a ↔ False := by
  simp [Stop.refuse]

theorem Instruction.opcode_of_floatVariable? {i : Instruction} {v : SymbolRef}
    (h : i.floatVariable? = some v) : i.opcode = .push ∧ ∃ x, i.operand = .float x := by
  unfold floatVariable? at h
  split at h
  · rename_i x hop hoperand
    exact ⟨hop, x, hoperand⟩
  · cases h

/-- A push at position `k` of a script that is listed among those of text offsets. -/
def ObjectModule.PushesText (m : ObjectModule) (s : Script) (k : Nat) (i : Instruction) : Prop :=
  i.opcode = .push ∧ (∃ v, i.operand = .int v) ∧
    ∃ a ∈ m.textPushes, a.toNat = s.address.toNat + k

/-- A reference two positions after this one takes its variable from what stands here. -/
def FeedsReference (run : List Instruction) (k : Nat) : Prop :=
  ∃ later, run[k + 2]? = some later ∧ later.isReference = true

namespace Relocation

variable {r : Relocation} {scope : Scope}

/-- The new id of a variable, case by case. -/
inductive NewId (r : Relocation) (scope : Scope) : SymbolRef → UInt32 → Prop
  | null : NewId r scope (.internal 0) 0
  | local {v id : UInt32} : scope.boundary < v →
      v.toNat ≤ scope.boundary.toNat + scope.locals.toNat →
      id.toNat = v.toNat + r.localShift.toNat → NewId r scope (.internal v) id
  | global {v id : UInt32} : v ≠ 0 → v ≤ scope.boundary → v ≤ r.slots →
      id.toNat = v.toNat + r.globalOffset.toNat → NewId r scope (.internal v) id
  | imported {p id : UInt32} : r.importedVars[p.toNat]? = some id →
      NewId r scope (.external p) id

theorem localVariable_eq_ok_iff {v address id : UInt32} (hv : scope.boundary < v) :
    r.localVariable v scope address = .ok id ↔
      v.toNat ≤ scope.boundary.toNat + scope.locals.toNat ∧
        id.toNat = v.toNat + r.localShift.toNat := by
  rw [UInt32.lt_iff_toNat_lt] at hv
  simp only [localVariable, bind_eq_ok, liftM_eq_ok, Word.sub_eq_ok_iff]
  constructor
  · rintro ⟨past, hpast, i, hi, h⟩
    rw [UInt32.toNat_one] at hi
    split at h
    · simp at h
    · rename_i hlocals
      have hlocals : ¬ scope.locals.toNat ≤ i.toNat :=
        fun hle => hlocals (UInt32.le_iff_toNat_le.mpr hle)
      split at h
      · rename_i hadd
        cases h
        exact ⟨by omega, (Word.add_eq_ok_iff.mp hadd).symm⟩
      · simp at h
  · rintro ⟨hle, hid⟩
    have hpast : (v - scope.boundary).toNat = v.toNat - scope.boundary.toNat :=
      Word.toNat_sub (by omega)
    have hi : (v - scope.boundary - 1).toNat = (v - scope.boundary).toNat - 1 :=
      Word.toNat_sub (by rw [UInt32.toNat_one]; omega)
    refine ⟨v - scope.boundary, by omega, v - scope.boundary - 1, ?_, ?_⟩
    · rw [UInt32.toNat_one]
      omega
    · rw [if_neg (by rw [UInt32.le_iff_toNat_le]; omega), Word.add_eq_ok_iff.mpr hid.symm]
      rfl

theorem varRef_eq_ok_iff {v : SymbolRef} {address id : UInt32} :
    r.varRef v scope address = .ok id ↔ r.NewId scope v id := by
  unfold varRef
  constructor
  · intro h
    split at h
    · rename_i v
      split at h
      · rename_i hv
        subst hv
        cases h
        exact .null
      · rename_i h0
        split at h
        · rename_i hv
          obtain ⟨hle, hid⟩ := (localVariable_eq_ok_iff hv).mp h
          exact .local hv hle hid
        · rename_i hv
          split at h
          · simp at h
          · rename_i hslots
            rw [liftM_eq_ok, Word.add_eq_ok_iff] at h
            exact .global h0 (UInt32.not_lt.mp hv) (UInt32.not_lt.mp hslots) h.symm
    · rename_i p
      split at h
      · rename_i new hp
        cases h
        exact .imported hp
      · simp at h
  · intro h
    cases h with
    | null => simp
    | «local» hv hle hid =>
        simp only [if_neg (Word.ne_zero_of_lt hv), if_pos hv]
        exact (localVariable_eq_ok_iff hv).mpr ⟨hle, hid⟩
    | global h0 hv hslots hid =>
        simp only [if_neg h0, if_neg (UInt32.not_lt.mpr hv), if_neg (UInt32.not_lt.mpr hslots)]
        rw [liftM_eq_ok, Word.add_eq_ok_iff]
        exact hid.symm
    | imported hp => simp only [hp]

/-! ### One operand -/

theorem target_eq_ok_iff {a start newStart address b : UInt32} :
    target a start newStart address = .ok b ↔
      (b.toNat : Int) = a.toNat - start.toNat + newStart.toNat := by
  have hb := b.toNat_lt
  simp only [target]
  split
  · rename_i ht
    rw [Except.ok.injEq, ← UInt32.toNat_inj, Word.toNat_ofNat (by omega)]
    omega
  · simp only [Stop.refuse_ne_ok, false_iff]
    omega

theorem textOffset_eq_ok_iff {offset : Int32} {address new : UInt32} :
    r.textOffset offset address = .ok new ↔
      0 ≤ offset.toInt ∧ r.texts.lookup offset.toUInt32 = some new := by
  unfold textOffset
  split
  · rename_i h
    simp only [h, true_and]
    split
    · rename_i new' hn
      simp [hn]
    · rename_i hn
      simp [hn]
  · rename_i h
    simp [h]

theorem scriptRef_eq_ok_iff {s : SymbolRef} {address id : UInt32} :
    r.scriptRef s address = .ok id ↔ r.scriptId s = .ok id := by
  unfold scriptRef
  split
  · rename_i id' h
    rw [h]
    simp
  · rename_i h
    rw [h]
    simp

theorem scriptId_internal_eq_ok_iff {id new : UInt32} :
    r.scriptId (.internal id) = .ok new ↔ r.scripts.lookup id = some new := by
  simp only [scriptId]
  cases r.scripts.lookup id with
  | none => simp
  | some new' => simp

theorem scriptId_external_eq_ok_iff {p new : UInt32} :
    r.scriptId (.external p) = .ok new ↔ r.importedScripts[p.toNat]? = some new := by
  simp only [scriptId]
  cases r.importedScripts[p.toNat]? with
  | none => simp
  | some new' => simp

/-- The new operand of an instruction, case by case; `isText` says that an integer is the offset
of a text. -/
inductive NewOperand (r : Relocation) (isText : Bool) (scope : Scope) (start newStart : UInt32) :
    Operand → Operand → Prop
  | none : NewOperand r isText scope start newStart .none .none
  | int {v : Int32} : isText = false → NewOperand r isText scope start newStart (.int v) (.int v)
  | text {v : Int32} {new : UInt32} : isText = true → 0 ≤ v.toInt →
      r.texts.lookup v.toUInt32 = some new →
      NewOperand r isText scope start newStart (.int v) (.int (Word.saturateSigned new))
  | float {v : Binary32} : NewOperand r isText scope start newStart (.float v) (.float v)
  | bool {v : Bool} : NewOperand r isText scope start newStart (.bool v) (.bool v)
  | address {a b : UInt32} : (b.toNat : Int) = a.toNat - start.toNat + newStart.toNat →
      NewOperand r isText scope start newStart (.address a) (.address b)
  | script {s : SymbolRef} {id : UInt32} : r.scriptId s = .ok id →
      NewOperand r isText scope start newStart (.script s) (.script (.internal id))
  | variable {v : SymbolRef} {id : UInt32} : r.NewId scope v id →
      NewOperand r isText scope start newStart (.variable v) (.variable (.internal id))

theorem operand_eq_ok_iff {i : Instruction} {isText : Bool} {start newStart address : UInt32}
    {o : Operand} :
    r.operand i isText scope start newStart address = .ok o ↔
      r.NewOperand isText scope start newStart i.operand o := by
  unfold operand
  cases hi : i.operand with
  | none =>
      constructor
      · rintro ⟨⟩
        exact .none
      · rintro ⟨⟩
        rfl
  | int v =>
      cases isText with
      | false =>
          constructor
          · rintro ⟨⟩
            exact .int rfl
          · rintro (_ | _ | h)
            · rfl
            · cases h
      | true =>
          simp only [if_true, map_eq_ok, textOffset_eq_ok_iff]
          constructor
          · rintro ⟨new, ⟨h0, hl⟩, rfl⟩
            exact .text rfl h0 hl
          · intro h
            cases h with
            | int h => cases h
            | text _ h0 hl => exact ⟨_, ⟨h0, hl⟩, rfl⟩
  | float v =>
      constructor
      · rintro ⟨⟩
        exact .float
      · rintro ⟨⟩
        rfl
  | bool v =>
      constructor
      · rintro ⟨⟩
        exact .bool
      · rintro ⟨⟩
        rfl
  | address a =>
      simp only [map_eq_ok, target_eq_ok_iff]
      constructor
      · rintro ⟨b, hb, rfl⟩
        exact .address hb
      · intro h
        cases h with
        | address hb => exact ⟨_, hb, rfl⟩
  | script s =>
      simp only [map_eq_ok, scriptRef_eq_ok_iff]
      constructor
      · rintro ⟨id, hid, rfl⟩
        exact .script hid
      · intro h
        cases h with
        | script hid => exact ⟨_, hid, rfl⟩
  | «variable» v =>
      simp only [map_eq_ok, varRef_eq_ok_iff]
      constructor
      · rintro ⟨id, hid, rfl⟩
        exact .«variable» hid
      · intro h
        cases h with
        | «variable» hid => exact ⟨_, hid, rfl⟩

/-! ### One instruction -/

theorem pairedVariable_eq_ok_iff {paired : Option Instruction} {address id : UInt32} :
    r.pairedVariable paired scope address = .ok id ↔
      2 ≤ address.toNat ∧
        ∃ p v, paired = some p ∧ p.floatVariable? = some v ∧ r.NewId scope v id := by
  unfold pairedVariable
  split
  · rename_i h
    rw [Option.bind_eq_none_iff] at h
    simp only [Stop.refuse_ne_ok, false_iff, not_and, not_exists]
    intro _ p v hp hv
    simp [h p hp] at hv
  · rename_i v h
    obtain ⟨p, hp, hv⟩ := Option.bind_eq_some_iff.mp h
    simp only [bind_eq_ok, liftM_eq_ok, Word.sub_eq_ok_iff, varRef_eq_ok_iff]
    constructor
    · rintro ⟨earlier, he, hid⟩
      have he : address.toNat = 2 + earlier.toNat := he
      exact ⟨by omega, p, v, hp, hv, hid⟩
    · rintro ⟨h2, p', v', hp', hv', hid⟩
      rw [hp, Option.some.injEq] at hp'
      subst hp'
      rw [hv, Option.some.injEq] at hv'
      subst hv'
      have hearlier : (address - 2).toNat = address.toNat - (2 : UInt32).toNat :=
        Word.toNat_sub h2
      refine ⟨address - 2, ?_, hid⟩
      rw [hearlier]
      exact (Nat.add_sub_cancel' h2).symm

/-- What an instruction at a position of a run has become. -/
structure Moves (r : Relocation) (textPushes : List UInt32) (s : Script) (newStart : UInt32)
    (run : List Instruction) (k : Nat) (i : Instruction) (m : Moved) : Prop where
  oldAddress : m.oldAddress.toNat = s.address.toNat + (Word.saturate k).toNat
  newAddress : m.newAddress.toNat = newStart.toNat + (Word.saturate k).toNat
  before : m.before = i
  after : m.after = { i with operand := m.after.operand }
  operand : r.NewOperand (i.opcode == .push && textPushes.contains m.oldAddress) s.scope
    s.address newStart i.operand m.after.operand
  plain : i.isReference = false → m.pairedId = none
  paired : i.isReference = true → ∃ p v id, 2 ≤ k ∧ run[k - 2]? = some p ∧
    p.floatVariable? = some v ∧ r.NewId s.scope v id ∧ m.pairedId = some id

section

variable {textPushes : List UInt32} {s : Script} {newStart : UInt32} {run : List Instruction}
  {ms : List Moved} {k : Nat} {i : Instruction} {m : Moved}

theorem Moves.opcode (h : r.Moves textPushes s newStart run k i m) :
    m.after.opcode = i.opcode := by
  rw [h.after]

/-- Addresses of marked pushes are words, and so is the position of a marked instruction. -/
theorem Moves.marked_iff (h : r.Moves textPushes s newStart run k i m) :
    (i.opcode == .push && textPushes.contains m.oldAddress) = true ↔
      i.opcode = .push ∧ ∃ a ∈ textPushes, a.toNat = s.address.toNat + (Word.saturate k).toNat := by
  have hold := h.oldAddress
  rw [Bool.and_eq_true, beq_iff_eq, List.contains_iff_mem]
  refine and_congr_right fun _ => ⟨fun hmem => ⟨_, hmem, hold⟩, ?_⟩
  rintro ⟨a, hmem, ha⟩
  rwa [show m.oldAddress = a from UInt32.toNat_inj.mp (hold.trans ha.symm)]

theorem Moves.isText_iff (h : r.Moves textPushes s newStart run k i m)
    (hk : k < 0x100000000) :
    (i.opcode == .push && textPushes.contains m.oldAddress) = true ↔
      i.opcode = .push ∧ ∃ a ∈ textPushes, a.toNat = s.address.toNat + k := by
  rw [h.marked_iff, Word.toNat_saturate hk]

theorem moves_of_move (h : r.move textPushes s newStart run k i = .ok m) :
    r.Moves textPushes s newStart run k i m := by
  simp only [move, bind_eq_ok, liftM_eq_ok, Word.add_eq_ok_iff, operand_eq_ok_iff] at h
  obtain ⟨old, hold, new, hnew, o, ho, h⟩ := h
  cases hi : i.isReference with
  | false =>
      simp only [hi, Bool.false_eq_true, if_false, pure_eq_ok, bind_eq_ok] at h
      obtain ⟨_, rfl, rfl⟩ := h
      exact ⟨hold.symm, hnew.symm, rfl, rfl, ho, fun _ => rfl, by simp [hi]⟩
  | true =>
      simp only [hi, if_true, pure_eq_ok, bind_eq_ok, map_eq_ok, pairedVariable_eq_ok_iff] at h
      obtain ⟨_, ⟨id, ⟨-, p, v, hp, hv, hid⟩, rfl⟩, rfl⟩ := h
      refine ⟨hold.symm, hnew.symm, rfl, rfl, ho, by simp [hi], fun _ => ?_⟩
      split at hp
      · rename_i hk
        exact ⟨p, v, id, hk, hp, hv, hid, rfl⟩
      · cases hp

/-! ### A run of instructions -/

theorem moveRun_length (h : r.moveRun textPushes s newStart run = .ok ms) :
    ms.length = run.length := by
  rw [mapM_length h, List.length_zipIdx]

theorem moveRun_getElem? (h : r.moveRun textPushes s newStart run = .ok ms)
    (hi : run[k]? = some i) :
    ∃ m, ms[k]? = some m ∧ r.Moves textPushes s newStart run k i m := by
  have hz : run.zipIdx[k]? = some (i, k) := by
    simp [List.getElem?_zipIdx, hi]
  obtain ⟨m, hm, hmove⟩ := mapM_getElem? h hz
  exact ⟨m, hm, moves_of_move hmove⟩

/-- Every moved instruction comes from the one at its position. -/
theorem moveRun_source (h : r.moveRun textPushes s newStart run = .ok ms)
    (hm : ms[k]? = some m) :
    ∃ i, run[k]? = some i ∧ r.Moves textPushes s newStart run k i m := by
  obtain ⟨⟨i, k'⟩, hik, hmove⟩ := mapM_source h hm
  rw [List.getElem?_zipIdx, Option.map_eq_some_iff] at hik
  obtain ⟨i', hi, heq⟩ := hik
  simp only [Nat.zero_add, Prod.mk.injEq] at heq
  obtain ⟨rfl, rfl⟩ := heq
  exact ⟨i', hi, moves_of_move hmove⟩

end

end Relocation

namespace Moved

@[simp] theorem settle_length (ms : List Moved) : (settle ms).length = ms.length := by
  induction ms with
  | nil => rfl
  | cons m ms ih => simp [settle, ih]

/-- An instruction in the image, and the id it carries for a reference two positions later. -/
theorem settle_getElem? (ms : List Moved) (k : Nat) :
    (settle ms)[k]? = ms[k]?.map fun m => m.settled (ms[k + 2]?.bind pairedId) := by
  induction ms generalizing k with
  | nil => simp [settle]
  | cons m ms ih =>
      cases k with
      | zero => simp [settle]
      | succ k => simpa [settle] using ih k

@[simp] theorem settled_opcode (m : Moved) (id : Option UInt32) :
    (m.settled id).opcode = m.after.opcode := by
  cases id <;> rfl

@[simp] theorem settled_none (m : Moved) : m.settled none = m.after := rfl

@[simp] theorem settled_some_operand (m : Moved) (id : UInt32) :
    (m.settled (some id)).operand = .float (.ofInt id.toNat) := rfl

end Moved

namespace Relocation

variable {r : Relocation} {textPushes : List UInt32} {s : Script} {newStart : UInt32}
  {run : List Instruction} {ms : List Moved} {k : Nat} {i : Instruction}

/-- A moved run keeps its operations. -/
theorem moveRun_opcodes (h : r.moveRun textPushes s newStart run = .ok ms) :
    run.map Instruction.opcode = (Moved.settle ms).map Instruction.opcode := by
  apply List.ext_getElem?
  intro k
  rw [List.getElem?_map, List.getElem?_map, Moved.settle_getElem?]
  cases hk : run[k]? with
  | none =>
      rw [List.getElem?_eq_none_iff, ← moveRun_length h, ← List.getElem?_eq_none_iff] at hk
      rw [hk]
      rfl
  | some i =>
      obtain ⟨m, hm, hmoves⟩ := moveRun_getElem? h hk
      rw [hm]
      simp [hmoves.opcode]

/-- What stands in the image for an instruction of a script: it carries the id of a variable for a
reference two positions later, or else its own operand is relocated. -/
inductive Becomes (r : Relocation) (s : Script) (newStart : UInt32)
    (i : Instruction) : Instruction → Prop
  | own {isText : Bool} {o : Operand} :
      r.NewOperand isText s.scope s.address newStart i.operand o →
        Becomes r s newStart i { i with operand := o }
  | carries {v : SymbolRef} {id : UInt32} : i.floatVariable? = some v → r.NewId s.scope v id →
      Becomes r s newStart i { i with operand := .float (.ofInt id.toNat) }

/-- An instruction is asked to carry the id of the variable it names when a reference two positions
later takes its variable from it, and else no id. -/
theorem pairedId_of_moveRun (h : r.moveRun textPushes s newStart run = .ok ms)
    (hi : run[k]? = some i) :
    (¬ FeedsReference run k ∧ ms[k + 2]?.bind Moved.pairedId = none) ∨
      FeedsReference run k ∧ ∃ v id, i.floatVariable? = some v ∧ r.NewId s.scope v id ∧
        ms[k + 2]?.bind Moved.pairedId = some id := by
  by_cases hlater : FeedsReference run k
  · obtain ⟨later, hk, href⟩ := hlater
    obtain ⟨m, hm, hmoves⟩ := moveRun_getElem? h hk
    obtain ⟨q, v, id, -, hq, hv, hnew, hid⟩ := hmoves.paired href
    rw [Nat.add_sub_cancel, hi, Option.some.injEq] at hq
    subst hq
    refine Or.inr ⟨⟨later, hk, href⟩, v, id, hv, hnew, ?_⟩
    rw [hm, Option.bind_some, hid]
  · refine Or.inl ⟨hlater, ?_⟩
    rw [Option.bind_eq_none_iff]
    intro m hm
    have hlt := (List.getElem?_eq_some_iff.mp hm).1
    rw [moveRun_length h] at hlt
    have hk := List.getElem?_eq_getElem hlt
    obtain ⟨m', hm', hmoves⟩ := moveRun_getElem? h hk
    rw [hm, Option.some.injEq] at hm'
    subst hm'
    exact hmoves.plain (Bool.eq_false_iff.mpr fun href => hlater ⟨_, hk, href⟩)

theorem not_feedsReference (h : r.moveRun textPushes s newStart run = .ok ms)
    (hi : run[k]? = some i) (hfloat : ∀ x, i.operand ≠ .float x) : ¬ FeedsReference run k := by
  rcases pairedId_of_moveRun h hi with ⟨hk, -⟩ | ⟨-, v, id, hv, -⟩
  · exact hk
  · obtain ⟨-, x, hx⟩ := Instruction.opcode_of_floatVariable? hv
    exact absurd hx (hfloat x)

/-- An instruction from which no reference takes its variable stands in the image as it was
moved. -/
theorem settle_of_moveRun (h : r.moveRun textPushes s newStart run = .ok ms)
    (hi : run[k]? = some i) (hk : ¬ FeedsReference run k) :
    ∃ m, r.Moves textPushes s newStart run k i m ∧ (Moved.settle ms)[k]? = some m.after := by
  obtain ⟨m, hm, hmoves⟩ := moveRun_getElem? h hi
  rcases pairedId_of_moveRun h hi with ⟨-, hnone⟩ | ⟨hfeeds, -⟩
  · exact ⟨m, hmoves, by rw [Moved.settle_getElem?, hm, Option.map_some, hnone, Moved.settled_none]⟩
  · exact absurd hfeeds hk

/-- An instruction from which a reference takes its variable carries the new id of it. -/
theorem carried_of_moveRun (h : r.moveRun textPushes s newStart run = .ok ms)
    (hi : run[k]? = some i) (hk : FeedsReference run k) :
    ∃ v id, i.floatVariable? = some v ∧ r.NewId s.scope v id ∧
      (Moved.settle ms)[k]? = some { i with operand := .float (.ofInt id.toNat) } := by
  obtain ⟨m, hm, hmoves⟩ := moveRun_getElem? h hi
  rcases pairedId_of_moveRun h hi with ⟨hnone, -⟩ | ⟨-, v, id, hv, hnew, hsome⟩
  · exact absurd hk hnone
  · refine ⟨v, id, hv, hnew, ?_⟩
    rw [Moved.settle_getElem?, hm, Option.map_some, hsome, Moved.settled, hmoves.after]

theorem becomes_of_moveRun (h : r.moveRun textPushes s newStart run = .ok ms)
    (hi : run[k]? = some i) :
    ∃ ins, (Moved.settle ms)[k]? = some ins ∧ r.Becomes s newStart i ins := by
  by_cases hk : FeedsReference run k
  · obtain ⟨v, id, hv, hnew, hat⟩ := carried_of_moveRun h hi hk
    exact ⟨_, hat, .carries hv hnew⟩
  · obtain ⟨m, hmoves, hat⟩ := settle_of_moveRun h hi hk
    rw [hmoves.after] at hat
    exact ⟨_, hat, .own hmoves.operand⟩

theorem Becomes.eq {ins : Instruction} (h : r.Becomes s newStart i ins) :
    ins = { i with operand := ins.operand } := by
  cases h <;> rfl

/-- An operand that is no float is relocated itself. -/
theorem Becomes.newOperand {ins : Instruction} (h : r.Becomes s newStart i ins)
    (hfloat : ∀ x, i.operand ≠ .float x) :
    ∃ isText, r.NewOperand isText s.scope s.address newStart i.operand ins.operand := by
  cases h with
  | own hoperand => exact ⟨_, hoperand⟩
  | carries hv =>
      obtain ⟨-, x, hx⟩ := Instruction.opcode_of_floatVariable? hv
      exact absurd hx (hfloat x)

/-- The float before a reference carries the new id of the variable it named. -/
theorem paired_of_moveRun (h : r.moveRun textPushes s newStart run = .ok ms)
    (hi : run[k]? = some i) (href : i.isReference = true) :
    2 ≤ k ∧ ∃ p v id q, run[k - 2]? = some p ∧ p.floatVariable? = some v ∧
      r.NewId s.scope v id ∧ (Moved.settle ms)[k - 2]? = some q ∧ q.opcode = p.opcode ∧
        q.operand = .float (.ofInt id.toNat) := by
  obtain ⟨m, hm, hmoves⟩ := moveRun_getElem? h hi
  obtain ⟨p, v, id, hk, hp, hv, hnew, hid⟩ := hmoves.paired href
  obtain ⟨n, hn, hmoves'⟩ := moveRun_getElem? h hp
  refine ⟨hk, p, v, id, n.settled (some id), hp, hv, hnew, ?_, ?_, rfl⟩
  · rw [Moved.settle_getElem?, hn, Option.map_some, Nat.sub_add_cancel hk, hm, Option.bind_some,
      hid]
  · rw [Moved.settled_opcode, hmoves'.opcode]

end Relocation

end ScriptImage
