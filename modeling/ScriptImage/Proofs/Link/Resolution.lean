import ScriptImage.Proofs.Link.Sharing
import ScriptImage.Proofs.Link.Variables

/-!
What a link asks of a module. A relocation covers the symbols of its module, and with such a
relocation an instruction can be moved exactly when all that it names is there and its jump stays
inside the code.
-/

namespace ScriptImage

/-! ### Global variables -/

theorem GlobalVar.lt_span_iff {v : GlobalVar} {i : UInt32} :
    i.toNat < v.span.toNat ↔ i = 0 ∨ v.isArray = true ∧ i < v.size := by
  rw [span_toNat, isArray, decide_eq_true_iff, UInt32.lt_iff_toNat_lt, UInt32.lt_iff_toNat_lt,
    ← UInt32.toNat_inj, UInt32.toNat_zero, UInt32.toNat_one]
  omega

namespace Draft

/-- An imported variable resolves when an earlier variable of its name has the element asked for. -/
theorem exists_resolveVar_iff {t : GlobalTable} (ht : t.Consistent) {v : ImportedVar} :
    (∃ id, resolveVar t v = .ok id) ↔
      ∃ w ∈ t.vars, w.name = v.name ∧ (v.index = 0 ∨ w.isArray = true ∧ v.index < w.size) := by
  constructor
  · rintro ⟨id, hid⟩
    obtain ⟨w, hw, hname, hlt, -⟩ := resolveVar_ok ht hid
    exact ⟨w, hw, hname, GlobalVar.lt_span_iff.mp hlt⟩
  · rintro ⟨w, hw, hname, hindex⟩
    obtain ⟨first, hfirst⟩ := GlobalTable.exists_find? ht hw
    obtain ⟨i, hi, -, hnumber⟩ := GlobalTable.find?_eq_some ht hfirst
    have hlt := GlobalVar.lt_span_iff.mpr hindex
    have hsucc := slotsOf_take_succ hi
    have htotal := slotsOf_take_le t.vars (i + 1)
    have hbounded := ht.bounded
    have hmax : maxSlot = 0x7FFFFFFF := rfl
    obtain ⟨id, hsum, -⟩ := Word.exists_add (a := first) (b := v.index) (by omega)
    refine ⟨id, ?_⟩
    simp only [resolveVar, bind_eq_ok, liftM_eq_ok]
    refine ⟨some (first, w), hname ▸ hfirst, ?_⟩
    simp only
    rcases hindex with hzero | ⟨harray, hsize⟩
    · rw [if_pos hzero, liftM_eq_ok]
      exact hsum
    · split
      · rw [liftM_eq_ok]
        exact hsum
      · rw [harray, if_neg (by decide), if_neg (UInt32.not_le.mpr hsize), liftM_eq_ok]
        exact hsum

/-- Variables can be declared after a table when names stay distinct and slots suffice. -/
theorem exists_foldlM_declareGlobal {t : GlobalTable} {vs : List GlobalVar} (ht : t.Declared)
    (hnames : ((t.vars ++ vs).map GlobalVar.name).Nodup)
    (hslots : slotsOf (t.vars ++ vs) ≤ maxSlot) :
    ∃ t', vs.foldlM declareGlobal t = .ok t' := by
  induction vs generalizing t with
  | nil => exact ⟨t, rfl⟩
  | cons v vs ih =>
      have hconsistent := ht.consistent
      have hslotsNat := hconsistent.slots
      rw [slotsOf_append, slotsOf_cons] at hslots
      have hname : v.name ∉ t.names := by
        rw [GlobalTable.names_eq hconsistent]
        rw [List.map_append, List.map_cons] at hnames
        exact fun hmem => (List.nodup_append.mp hnames).2.2 v.name hmem v.name
          List.mem_cons_self rfl
      obtain ⟨id, u, hu⟩ := GlobalTable.exists_declare hname (v := v) (t := t) (by omega)
      have hvars := GlobalTable.declare_vars hu
      obtain ⟨t', ht'⟩ := ih (t := u) (.declare ht hu)
        (by rw [hvars, List.append_assoc]; exact hnames)
        (by rw [hvars, slotsOf_append, slotsOf_append, slotsOf_cons, slotsOf_nil]; omega)
      refine ⟨t', ?_⟩
      rw [List.foldlM_cons, bind_eq_ok]
      exact ⟨u, declareGlobal_eq_ok_iff.mpr ⟨id, hu⟩, ht'⟩

end Draft

/-! ### What an instruction needs -/

namespace ObjectModule

/-- A reference to a variable that means something in a script of the module; the id of a local,
shifted by the slots of all other modules, is a word. -/
def Resolves (m : ObjectModule) (total : Nat) (s : Script) (r : SymbolRef) : Prop :=
  (∃ name, m.meaning? s r = some name) ∧ ∀ v, r = .internal v → s.boundary < v →
    v.toNat + total < 0x100000000 + m.image.globals.slots.toNat

/-- A reference to a script of the module or to one of its imports. -/
def HasScript (m : ObjectModule) : SymbolRef → Prop
  | .internal id => ∃ s ∈ m.image.scripts, s.id = id
  | .external p => p.toNat < m.importedScripts.length

/-- What the instruction at position `k` of a run needs, when its script is copied to `start` and
the code of its module ends at `stop`. -/
structure Admits (m : ObjectModule) (total : Nat) (s : Script) (start stop : Nat)
    (run : List Instruction) (k : Nat) (i : Instruction) : Prop where
  /-- A variable that is named means something. -/
  var : ∀ r, i.operand = .variable r → m.Resolves total s r
  /-- A script that is named exists. -/
  script : ∀ r, i.operand = .script r → m.HasScript r
  /-- A marked push gives the offset of a plain text. -/
  text : m.PushesText s k i → ∃ v t, i.operand = .int v ∧ m.image.data.Holds v t ∧
    TextKind.isPlain t = true
  /-- A jump, moved with its script, stays inside the code. -/
  jump : ∀ a, i.operand = .address a →
    s.address.toNat ≤ a.toNat + start ∧ a.toNat + start < s.address.toNat + stop
  /-- Two positions before a reference a float names a variable that means something. -/
  reference : i.isReference = true → ∃ p r, 2 ≤ k ∧ run[k - 2]? = some p ∧
    p.floatVariable? = some r ∧ m.Resolves total s r

end ObjectModule

namespace Relocation

/-- A relocation that has every symbol of its module. -/
structure Covers (r : Relocation) (total : Nat) (m : ObjectModule) : Prop where
  slots : r.slots = m.image.globals.slots
  globals : m.image.globals.slots.toNat + r.globalOffset.toNat ≤ maxSlot
  locals : total = m.image.globals.slots.toNat + r.localShift.toNat
  importedVars : r.importedVars.length = m.importedVars.length
  importedScripts : r.importedScripts.length = m.importedScripts.length
  scripts : ∀ id, (∃ new, r.scripts.lookup id = some new) ↔ ∃ s ∈ m.image.scripts, s.id = id
  texts : ∀ offset, (∃ new, r.texts.lookup offset = some new) ↔
    ∃ e ∈ m.image.data.entries, e.offset = offset ∧
      ∃ t, m.image.data.bytesOf e = .ok t ∧ TextKind.isPlain t = true

variable {r : Relocation} {total : Nat} {m : ObjectModule} {s : Script}

theorem Covers.exists_newId_iff (h : r.Covers total m) (hm : m.image.globals.Declared)
    {v : SymbolRef} : (∃ id, r.NewId s.scope v id) ↔ m.Resolves total s v := by
  have hlocals := h.locals
  constructor
  · rintro ⟨id, hid⟩
    cases hid with
    | null =>
        refine ⟨⟨_, Image.varName?_eq_some_iff.mpr .null⟩, ?_⟩
        rintro v ⟨⟩ hlt
        exact absurd rfl (Word.ne_zero_of_lt hlt)
    | «local» hv hle hid =>
        rename_i v
        have hidlt := id.toNat_lt
        refine ⟨?_, ?_⟩
        · have hvnat := UInt32.lt_iff_toNat_lt.mp hv
          have hsat := Word.toNat_saturate_le s.locals.length
          change s.boundary.toNat < v.toNat at hvnat
          change v.toNat ≤ s.boundary.toNat + (Word.saturate s.locals.length).toNat at hle
          have hlt : v.toNat - s.boundary.toNat - 1 < s.locals.length := by omega
          exact ⟨_, Image.varName?_eq_some_iff.mpr (.«local» hv (List.getElem?_eq_getElem hlt))⟩
        · rintro w ⟨⟩ -
          omega
    | global h0 hv hslots hid =>
        rw [h.slots] at hslots
        obtain ⟨w, element, hw⟩ := GlobalTable.bySlot?_isSome hm.consistent h0 hslots
        refine ⟨⟨_, Image.varName?_eq_some_iff.mpr (.global h0 hv hw)⟩, ?_⟩
        rintro w ⟨⟩ hlt
        exact absurd hlt (UInt32.not_lt.mpr hv)
    | imported hp =>
        have hlt := (List.getElem?_eq_some_iff.mp hp).1
        rw [h.importedVars] at hlt
        refine ⟨?_, by simp⟩
        rw [ObjectModule.meaning?, List.getElem?_eq_getElem hlt]
        exact ⟨_, rfl⟩
  · rintro ⟨⟨name, hname⟩, hfits⟩
    cases v with
    | external p =>
        obtain ⟨w, hw, -⟩ := Option.map_eq_some_iff.mp hname
        have hlt := (List.getElem?_eq_some_iff.mp hw).1
        rw [← h.importedVars] at hlt
        exact ⟨_, .imported (List.getElem?_eq_getElem hlt)⟩
    | internal v =>
        have hnames := Image.varName?_eq_some_iff.mp hname
        cases hnames with
        | null => exact ⟨0, .null⟩
        | global h0 hle hslot =>
            -- a variable that is found lies among the slots of the table
            have hslots : v ≤ m.image.globals.slots := by
              by_contra hgt
              rw [GlobalTable.bySlot?, if_pos (Or.inr (UInt32.not_le.mp hgt))] at hslot
              cases hslot
            have hglobals := h.globals
            have hmax : maxSlot = 0x7FFFFFFF := rfl
            have hvslots := UInt32.le_iff_toNat_le.mp hslots
            refine ⟨UInt32.ofNat (v.toNat + r.globalOffset.toNat), .global h0 hle ?_ ?_⟩
            · rw [h.slots]
              exact hslots
            · exact Word.toNat_ofNat (by omega)
        | «local» hlt hl =>
            have hposition := (List.getElem?_eq_some_iff.mp hl).1
            have hshift := hfits v rfl hlt
            have hvlt := v.toNat_lt
            have hvnat := UInt32.lt_iff_toNat_lt.mp hlt
            refine ⟨UInt32.ofNat (v.toNat + r.localShift.toNat), .«local» hlt ?_ ?_⟩
            · change v.toNat ≤ s.boundary.toNat + (Word.saturate s.locals.length).toNat
              rw [Word.toNat_saturate_eq]
              omega
            · exact Word.toNat_ofNat (by omega)

theorem Covers.exists_scriptId_iff (h : r.Covers total m) {v : SymbolRef} :
    (∃ id, r.scriptId v = .ok id) ↔ m.HasScript v := by
  cases v with
  | internal id =>
      simp only [scriptId_internal_eq_ok_iff]
      exact h.scripts id
  | external p =>
      simp only [scriptId_external_eq_ok_iff, ObjectModule.HasScript, ← h.importedScripts]
      constructor
      · rintro ⟨new, hnew⟩
        exact (List.getElem?_eq_some_iff.mp hnew).1
      · exact fun hlt => ⟨_, List.getElem?_eq_getElem hlt⟩

theorem Covers.exists_text_iff (h : r.Covers total m) (hd : m.image.data.Consistent) {v : Int32} :
    (0 ≤ v.toInt ∧ ∃ new, r.texts.lookup v.toUInt32 = some new) ↔
      ∃ t, m.image.data.Holds v t ∧ TextKind.isPlain t = true := by
  simp only [h.texts, hd.holds_iff]
  constructor
  · rintro ⟨hpos, e, he, hoffset, t, ht, hplain⟩
    exact ⟨t, ⟨hpos, e, he, hoffset, ht⟩, hplain⟩
  · rintro ⟨t, ⟨hpos, e, he, hoffset, ht⟩, hplain⟩
    exact ⟨hpos, e, he, hoffset, t, ht, hplain⟩

/-! ### Moving an instruction -/

section

variable {start stop : Nat} {run : List Instruction} {k : Nat} {i : Instruction}

/-- An instruction that was moved had all that it needs. -/
theorem Covers.admits_of_moves (h : r.Covers total m) (hm : m.image.globals.Declared)
    (hd : m.image.data.Consistent) (hstart : start < 0x100000000) (hk : k < 0x100000000)
    {mv : Moved} (hmoves : r.Moves m.textPushes s (Word.saturate start) run k i mv)
    (hjump : ∀ b, mv.after.operand = .address b → b.toNat < stop) :
    m.Admits total s start stop run k i := by
  have hmarked := hmoves.isText_iff hk
  have hoperand := hmoves.operand
  generalize hi : i.operand = o at hoperand
  generalize hafter : mv.after.operand = o' at hoperand
  refine ⟨?_, ?_, ?_, ?_, ?_⟩
  · rintro v hv
    rw [hi] at hv
    subst hv
    cases hoperand with
    | «variable» hid => exact (h.exists_newId_iff hm).mp ⟨_, hid⟩
  · rintro v hv
    rw [hi] at hv
    subst hv
    cases hoperand with
    | script hid => exact h.exists_scriptId_iff.mp ⟨_, hid⟩
  · rintro ⟨hpush, ⟨v, hv⟩, hlisted⟩
    rw [hmarked.mpr ⟨hpush, hlisted⟩] at hoperand
    rw [hi] at hv
    subst hv
    cases hoperand with
    | int hisText => cases hisText
    | text _ hpos hlookup =>
        obtain ⟨t, ht, hplain⟩ := (h.exists_text_iff hd).mp ⟨hpos, _, hlookup⟩
        exact ⟨v, t, hi, ht, hplain⟩
  · rintro a ha
    rw [hi] at ha
    subst ha
    cases hoperand with
    | address hb =>
        have hlt := hjump _ hafter
        have hsat := Word.toNat_saturate hstart
        omega
  · intro href
    obtain ⟨p, v, id, hk2, hp, hv, hid, -⟩ := hmoves.paired href
    exact ⟨p, v, hk2, hp, hv, (h.exists_newId_iff hm).mp ⟨_, hid⟩⟩

/-- A jump of an instruction that has all it needs stays inside the code. -/
theorem Moves.target_lt_of_admits {mv : Moved}
    (hmoves : r.Moves m.textPushes s (Word.saturate start) run k i mv)
    (hadmits : m.Admits total s start stop run k i) {b : UInt32}
    (hb : mv.after.operand = .address b) : b.toNat < stop := by
  have hoperand := hmoves.operand
  rw [hb] at hoperand
  generalize hi : i.operand = o at hoperand
  cases hoperand with
  | address htarget =>
      have hjump := hadmits.jump _ hi
      have hsat := Word.toNat_saturate_le start
      omega

/-- An instruction that has all it needs has a new operand. -/
theorem Covers.exists_newOperand (h : r.Covers total m) (hm : m.image.globals.Declared)
    (hd : m.image.data.Consistent) (hstop : stop < 0x100000000)
    (hstart : start < 0x100000000) (hadmits : m.Admits total s start stop run k i)
    {isText : Bool} (hmarked : isText = true → (∃ v, i.operand = .int v) → m.PushesText s k i) :
    ∃ o, r.NewOperand isText s.scope s.address (Word.saturate start) i.operand o := by
  cases hi : i.operand with
  | none => exact ⟨_, .none⟩
  | float v => exact ⟨_, .float⟩
  | bool v => exact ⟨_, .bool⟩
  | int v =>
      cases isText with
      | false => exact ⟨_, .int rfl⟩
      | true =>
          obtain ⟨w, t, hw, ht, hplain⟩ := hadmits.text (hmarked rfl ⟨v, hi⟩)
          rw [hi, Operand.int.injEq] at hw
          subst hw
          obtain ⟨hpos, new, hlookup⟩ := (h.exists_text_iff hd).mpr ⟨t, ht, hplain⟩
          exact ⟨_, .text rfl hpos hlookup⟩
  | address a =>
      obtain ⟨hle, hlt⟩ := hadmits.jump a hi
      have hsat := Word.toNat_saturate hstart
      refine ⟨.address (UInt32.ofNat (a.toNat + start - s.address.toNat)), .address ?_⟩
      rw [Word.toNat_ofNat (by omega)]
      omega
  | script v =>
      obtain ⟨id, hid⟩ := h.exists_scriptId_iff.mpr (hadmits.script v hi)
      exact ⟨_, .script hid⟩
  | «variable» v =>
      obtain ⟨id, hid⟩ := (h.exists_newId_iff hm).mpr (hadmits.var v hi)
      exact ⟨_, .«variable» hid⟩

/-- An instruction that has all it needs can be moved. -/
theorem Covers.exists_move (h : r.Covers total m) (hm : m.image.globals.Declared)
    (hd : m.image.data.Consistent) (hstop : stop < 0x100000000) (hnew : start + k < 0x100000000)
    (hold : s.address.toNat + k < 0x100000000) (hadmits : m.Admits total s start stop run k i) :
    ∃ mv, r.move m.textPushes s (Word.saturate start) run k i = .ok mv := by
  have hk := Word.toNat_saturate (n := k) (by omega)
  have hstart := Word.toNat_saturate (n := start) (by omega)
  obtain ⟨old, hold', holdNat⟩ := Word.exists_add (a := s.address) (b := Word.saturate k)
    (by omega)
  obtain ⟨new, hnew', -⟩ := Word.exists_add (a := Word.saturate start) (b := Word.saturate k)
    (by omega)
  have hmarked : (i.opcode == .push && m.textPushes.contains old) = true →
      (∃ v, i.operand = .int v) → m.PushesText s k i := by
    intro hmarked hint
    rw [Bool.and_eq_true, beq_iff_eq, List.contains_iff_mem] at hmarked
    exact ⟨hmarked.1, hint, old, hmarked.2, hk ▸ holdNat⟩
  obtain ⟨o, ho⟩ := h.exists_newOperand hm hd hstop (by omega) hadmits hmarked
  simp only [move, bind_eq_ok, liftM_eq_ok, operand_eq_ok_iff]
  cases href : i.isReference with
  | false => exact ⟨_, old, hold', new, hnew', o, ho, rfl⟩
  | true =>
      obtain ⟨p, v, hk2, hp, hv, hresolves⟩ := hadmits.reference href
      obtain ⟨id, hid⟩ := (h.exists_newId_iff hm).mpr hresolves
      have hpaired : r.pairedVariable (if 2 ≤ k then run[k - 2]? else none) s.scope old =
          .ok id := by
        rw [pairedVariable_eq_ok_iff, if_pos hk2]
        exact ⟨by omega, p, v, hp, hv, hid⟩
      refine ⟨⟨old, new, i, { i with operand := o }, some id⟩, old, hold', new, hnew', o, ho, ?_⟩
      rw [hpaired]
      rfl

/-- So can a whole run. -/
theorem Covers.exists_moveRun (h : r.Covers total m) (hm : m.image.globals.Declared)
    (hd : m.image.data.Consistent) (hstop : stop < 0x100000000)
    (hnew : start + run.length ≤ 0x100000000)
    (hold : s.address.toNat + run.length ≤ 0x100000000)
    (hadmits : ∀ (k : Nat) (i : Instruction), run[k]? = some i →
      m.Admits total s start stop run k i) :
    ∃ ms, r.moveRun m.textPushes s (Word.saturate start) run = .ok ms := by
  refine exists_mapM ?_
  rintro ⟨i, k⟩ hik
  have hi := List.mem_zipIdx_iff_getElem?.mp hik
  have hk := (List.getElem?_eq_some_iff.mp hi).1
  exact h.exists_move hm hd hstop (by omega) (by omega) (hadmits k i hi)

end

end Relocation

end ScriptImage
