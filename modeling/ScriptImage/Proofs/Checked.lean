import ScriptImage.Image.Check
import ScriptImage.Compare.Code
import ScriptImage.Proofs.Compare.Ending

/-!
Lookups with every index checked. Where a lookup takes an element, the front of a list or a
difference without asking, the definitions below fault when there is none. A table that has been
read never lets them.
-/

namespace ScriptImage

theorem drop_of_getElem? {α : Type} {xs : List α} {i : Nat} {x : α} (h : xs[i]? = some x) :
    xs.drop i = x :: xs.drop (i + 1) := by
  obtain ⟨hlt, rfl⟩ := List.getElem?_eq_some_iff.mp h
  exact List.drop_eq_getElem_cons hlt

namespace Checked

/-- The element at a position, a fault when there is none. -/
def get {α : Type} (xs : List α) (i : Nat) : Except Fault α :=
  match xs[i]? with
  | some x => .ok x
  | none => .error .outOfRange

/-- The first elements of a list, a fault when there are fewer. -/
def take {α : Type} (xs : List α) (n : Nat) : Except Fault (List α) :=
  if n ≤ xs.length then .ok (xs.take n) else .error .outOfRange

/-- The position before one, a fault before the first. -/
def pred : Nat → Except Fault Nat
  | 0 => .error .overflow
  | n + 1 => .ok n

theorem get_of_getElem? {α : Type} {xs : List α} {i : Nat} {x : α} (h : xs[i]? = some x) :
    get xs i = .ok x := by
  simp only [get, h]

end Checked

/-! ### Texts -/

namespace DataSection

def entryAtChecked (d : DataSection) (offset : UInt32) : Except Fault (Option TextEntry) :=
  match BinarySearch.find? (fun e => compare e.offset offset) d.entries with
  | none => .ok none
  | some i => some <$> Checked.get d.entries i

def textAtChecked (d : DataSection) (offset : UInt32) : Except Fault (Option String) := do
  match ← d.entryAtChecked offset with
  | none => return none
  | some e => some <$> d.textOf e

theorem entryAtChecked_eq (d : DataSection) (offset : UInt32) :
    d.entryAtChecked offset = .ok (d.entryAt? offset) := by
  unfold entryAtChecked entryAt?
  cases hfind : BinarySearch.find? (fun e => compare e.offset offset) d.entries with
  | none => rfl
  | some i =>
      obtain ⟨e, he, -⟩ := BinarySearch.find?_eq_some hfind
      simp only [Checked.get_of_getElem? he]
      exact congrArg Except.ok he.symm

theorem textAtChecked_eq (d : DataSection) (offset : UInt32) :
    d.textAtChecked offset = d.textAt? offset := by
  unfold textAtChecked textAt?
  rw [entryAtChecked_eq]
  cases d.entryAt? offset <;> rfl

end DataSection

/-! ### Variables -/

namespace GlobalTable

def bySlotChecked (t : GlobalTable) (id : UInt32) : Except Fault (Option (GlobalVar × UInt32)) :=
  if id = 0 ∨ t.slots < id then .ok none
  else do
    let i ← Checked.pred (BinarySearch.partitionPoint (fun s => id < s) t.starts)
    match t.entries[i]? with
    | none => return none
    | some e =>
      let start ← Checked.get t.starts i
      let element ← Word.sub id start
      return some (e.2, element)

/-- A slot of the table lies behind the start of the variable that owns it. -/
theorem Consistent.bySlotChecked_eq {t : GlobalTable} (h : t.Consistent) (id : UInt32) :
    t.bySlotChecked id = .ok (t.bySlot? id) := by
  by_cases hguard : id = 0 ∨ t.slots < id
  · rw [bySlotChecked, bySlot?, if_pos hguard, if_pos hguard]
  · obtain ⟨h0, hle⟩ := not_or.mp hguard
    have hpos := Word.toNat_pos.mpr h0
    have hle := UInt32.le_iff_toNat_le.mp (UInt32.not_lt.mp hle)
    have hslots := h.slots
    -- the search ends behind the start of the variable that owns the slot
    obtain ⟨v, e, howner⟩ := owner?_isSome_of_lt
      (show id.toNat - 1 < slotsOf t.vars by omega)
    obtain ⟨i, hv, he, hn⟩ := owner?_eq_some_iff.mp howner
    have hid : id.toNat = slotsOf (t.vars.take i) + e + 1 := by omega
    have hi : i < t.starts.length := h.length.symm ▸ (List.getElem?_eq_some_iff.mp hv).1
    have hs := List.getElem?_eq_getElem hi
    have hstart := h.starts i _ hs
    have hentry : t.entries[i]? = some (v.name, v) := by
      rw [h.entries, List.getElem?_map, hv]
      rfl
    obtain ⟨element, hsub, helement⟩ := Word.exists_sub (a := id) (b := t.starts[i]) (by omega)
    have helement : element = UInt32.ofNat e := by
      have hlt := v.span.toNat_lt
      exact UInt32.toNat_inj.mp (by rw [Word.toNat_ofNat (by omega)]; omega)
    rw [bySlotChecked, if_neg hguard, partitionPoint_starts h hv he hid,
      bySlot?_of_getElem? h hv he hid, bind_eq_ok]
    refine ⟨i, rfl, ?_⟩
    simp only [hentry, bind_eq_ok, pure_eq_ok]
    exact ⟨_, Checked.get_of_getElem? hs, element, hsub, by rw [helement]⟩

end GlobalTable

namespace Image

variable {m : Image} {s : Script}

def varNameChecked (m : Image) (s : Script) (id : UInt32) : Except Fault (Option VarName) :=
  if id = 0 then .ok (some .null)
  else if id ≤ s.boundary then do
    let found ← m.globals.bySlotChecked id
    return found.map fun (v, element) => .global v.name element
  else do
    let past ← Word.sub id s.boundary
    let i ← Word.sub past 1
    return s.locals[i.toNat]?.map .local

theorem varNameChecked_eq (hm : m.globals.Consistent) (s : Script) (id : UInt32) :
    m.varNameChecked s id = .ok (m.varName? s id) := by
  unfold varNameChecked varName?
  split
  · rfl
  · split
    · rw [hm.bySlotChecked_eq]
      rfl
    · rename_i hlt
      have hlt := UInt32.lt_iff_toNat_lt.mp (UInt32.not_le.mp hlt)
      obtain ⟨past, hpast, hpastNat⟩ := Word.exists_sub (a := id) (b := s.boundary) hlt.le
      obtain ⟨i, hi, hiNat⟩ := Word.exists_sub (a := past) (b := 1) (by
        rw [UInt32.toNat_one]
        omega)
      rw [UInt32.toNat_one] at hiNat
      simp only [bind_eq_ok, pure_eq_ok]
      exact ⟨past, hpast, i, hi, by rw [show id.toNat - s.boundary.toNat - 1 = i.toNat by omega]⟩

/-! ### Runs -/

/-- The run at an address, cut from the code behind it at its first END. -/
def runAtChecked (m : Image) (address : UInt32) : Except Fault (Option (List Instruction)) :=
  let tail := m.code.drop address.toNat
  match tail.findIdx? fun i => i.opcode = .endRun with
  | none => .ok none
  | some last => some <$> Checked.take tail (last + 1)

theorem runAtChecked_eq (m : Image) (address : UInt32) :
    m.runAtChecked address = .ok (m.runAt? address) := by
  unfold runAtChecked runAt?
  rw [closedRun?_eq_findIdx?]
  dsimp only
  split
  · rename_i hnone
    rw [hnone]
    rfl
  · rename_i last hlast
    have hlt := (List.findIdx?_eq_some_iff_getElem.mp hlast).1
    rw [hlast, map_eq_ok]
    exact ⟨_, if_pos hlt, rfl⟩

/-! ### The check of an image -/

def variableDefectChecked (m : Image) (s : Script) (i : Instruction) (k : Nat) :
    Except Fault (Option Corruption) :=
  match i.operand with
  | .variable (.internal v) => do
    let name ← m.varNameChecked s v
    return if name.isNone then some (.unknownVariable (s.address.toNat + k) s.name v) else none
  | _ => .ok none

def scriptDefectChecked (m : Image) (s : Script) (position : Nat) :
    Except Fault (Option Corruption) :=
  if s.id.toNat ≠ position + 1 then .ok (some (.scriptId s.name s.id (position + 1)))
  else do
    match ← m.runAtChecked s.address with
    | none => return some (.unterminated s.name s.address)
    | some run => run.zipIdx.findSomeM? fun (i, k) => m.variableDefectChecked s i k

def defectChecked (m : Image) : Except Fault (Option Corruption) := do
  match ← m.scripts.zipIdx.findSomeM? fun (s, i) => m.scriptDefectChecked s i with
  | some c => return some c
  | none =>
    return (m.code.zipIdx.findSome? fun (i, pc) => m.codeDefect? i pc)
      <|> m.autostart.findSome? m.autostartDefect?

theorem variableDefectChecked_eq (hm : m.globals.Consistent) (s : Script) (i : Instruction)
    (k : Nat) : m.variableDefectChecked s i k = .ok (m.variableDefect? s i k) := by
  unfold variableDefectChecked variableDefect?
  cases i.operand with
  | «variable» r =>
      cases r with
      | internal v =>
          dsimp only
          rw [varNameChecked_eq hm]
          rfl
      | external q => rfl
  | _ => rfl

theorem scriptDefectChecked_eq (hm : m.globals.Consistent) (s : Script) (position : Nat) :
    m.scriptDefectChecked s position = .ok (m.scriptDefect? s position) := by
  unfold scriptDefectChecked scriptDefect?
  split
  · rfl
  · rw [runAtChecked_eq, scriptCode?]
    cases m.runAt? s.address with
    | none => rfl
    | some run =>
        simp only [variableDefectChecked_eq hm]
        exact List.findSomeM?_pure

/-- The check of an image whose globals have been read finds its first defect without a fault. -/
theorem defectChecked_eq (hm : m.globals.Consistent) : m.defectChecked = .ok m.defect? := by
  have hscripts : (m.scripts.zipIdx.findSomeM? fun (s, i) => m.scriptDefectChecked s i) =
      .ok (m.scripts.zipIdx.findSome? fun (s, i) => m.scriptDefect? s i) := by
    simp only [scriptDefectChecked_eq hm]
    exact List.findSomeM?_pure
  rw [defectChecked, hscripts, defect?]
  cases m.scripts.zipIdx.findSome? fun (s, i) => m.scriptDefect? s i <;> rfl

/-! ### Two scripts -/

def refNameChecked (m : Image) (s : Script) (r : SymbolRef) : Except Fault (Option VarName) :=
  match r.internal? with
  | none => .ok none
  | some id => m.varNameChecked s id

def floatVarNameChecked (m : Image) (s : Script) (i : Instruction) :
    Except Fault (Option VarName) :=
  match i.floatVariable? with
  | none => .ok none
  | some r => m.refNameChecked s r

theorem refNameChecked_eq (hm : m.globals.Consistent) (s : Script) (r : SymbolRef) :
    m.refNameChecked s r = .ok (m.refName? s r) := by
  unfold refNameChecked refName?
  cases r.internal? with
  | none => rfl
  | some id => exact varNameChecked_eq hm s id

theorem floatVarNameChecked_eq (hm : m.globals.Consistent) (s : Script) (i : Instruction) :
    m.floatVarNameChecked s i = .ok (m.floatVarName? s i) := by
  unfold floatVarNameChecked floatVarName?
  cases i.floatVariable? with
  | none => rfl
  | some r => exact refNameChecked_eq hm s r

end Image

namespace ScriptPair

variable {p : ScriptPair}

def sameTextChecked (p : ScriptPair) (x y : Int32) : Except Fault Bool :=
  if 0 ≤ x.toInt ∧ 0 ≤ y.toInt then do
    match ← p.imageA.data.textAtChecked x.toUInt32, ← p.imageB.data.textAtChecked y.toUInt32 with
    | some s, some t => return s == t
    | _, _ => return false
  else return false

def matchOperandsChecked (p : ScriptPair) (ta tb : List Instruction) (ia ib : Instruction) :
    Except Fault OperandMatch :=
  match ia.operand, ib.operand with
  | .address x, .address y =>
    return .ofBool ((x.toNat : Int) - p.a.address.toNat == (y.toNat : Int) - p.b.address.toNat)
  | .script x, .script y =>
    return .ofMeanings .script (p.imageA.scriptName? x) (p.imageB.scriptName? y)
  | .variable x, .variable y =>
    return .ofMeanings .variable (← p.imageA.refNameChecked p.a x)
      (← p.imageB.refNameChecked p.b y)
  | .int x, .int y =>
    if x = y then return .same else .ofBool <$> p.sameTextChecked x y
  | .float x, .float y =>
    if feedsReference ta && feedsReference tb then do
      match ← p.imageA.floatVarNameChecked p.a ia, ← p.imageB.floatVarNameChecked p.b ib with
      | some m, some n => return .ofBool (m = n)
      | _, _ => return .ofBool (x = y)
    else return .ofBool (x.numericEq y || (x.isNaN && y.isNaN))
  | x, y => return .ofBool (x == y)

theorem matchOperandsChecked_eq (ha : p.imageA.globals.Consistent)
    (hb : p.imageB.globals.Consistent) (ta tb : List Instruction) (ia ib : Instruction) :
    p.matchOperandsChecked ta tb ia ib = p.matchOperands ta tb ia ib := by
  unfold matchOperandsChecked matchOperands sameTextChecked sameText
  simp only [DataSection.textAtChecked_eq, Image.refNameChecked_eq ha, Image.refNameChecked_eq hb,
    Image.floatVarNameChecked_eq ha, Image.floatVarNameChecked_eq hb]
  rfl

/-- Compares the instructions at two positions, neither of them END. -/
def stepChecked (p : ScriptPair) (mode : CompareMode) (pa pb : Nat) : Except Fault Step := do
  let ia ← Checked.get p.imageA.code pa
  let ib ← Checked.get p.imageB.code pb
  let ta := p.imageA.code.drop pa
  let tb := p.imageB.code.drop pb
  let l := p.location (some ia) (some ib)
  let differ : Step := { found := some (.instruction l ia ib) }
  match if mode = .loose then conversion? ta tb else none with
  | some c => return { conversion := some c }
  | none =>
    if ia.opcode ≠ ib.opcode ∨ ia.mode ≠ ib.mode ∨ ia.type ≠ ib.type then
      return { differ with stop := true }
    else if mode = .strict then
      return if ia.operand = ib.operand then {} else differ
    else do
      match ← p.matchOperandsChecked ta tb ia ib with
      | .same => return {}
      | .different => return differ
      | .unresolved kind => return { found := some (.unresolved l kind ia ib) }

theorem stepChecked_eq (ha : p.imageA.globals.Consistent) (hb : p.imageB.globals.Consistent)
    (mode : CompareMode) {pa pb : Nat} {ia ib : Instruction}
    (hia : p.imageA.code[pa]? = some ia) (hib : p.imageB.code[pb]? = some ib) :
    p.stepChecked mode pa pb =
      p.step mode (p.imageA.code.drop pa) (p.imageB.code.drop pb) ia ib := by
  unfold stepChecked step
  rw [Checked.get_of_getElem? hia, Checked.get_of_getElem? hib]
  simp only [matchOperandsChecked_eq ha hb]
  rfl

/-- Compares code pair by pair from two positions on. -/
def compareFromChecked (p : ScriptPair) (mode : CompareMode) (pa pb : Nat) :
    Except Fault (List Entry) :=
  match _ : p.imageA.code[pa]?, p.imageB.code[pb]? with
  | some ia, some ib =>
    let visited := Entry.visited pa ia pb ib
    if ia.opcode = .endRun ∧ ib.opcode = .endRun then .ok [visited]
    else if ia.opcode = .endRun ∨ ib.opcode = .endRun then
      .ok [visited, p.finding (.endsOnOneSide (p.location (some ia) (some ib)) ia ib)]
    else do
      let s ← p.stepChecked mode pa pb
      let here := visited :: (s.found.map p.finding).toList
      if s.stop then return here
      else
        let skipA := if s.conversion = some .first then 1 else 0
        let skipB := if s.conversion = some .second then 1 else 0
        let rest ← p.compareFromChecked mode (pa + 1 + skipA) (pb + 1 + skipB)
        return here ++ rest
  | ia, ib => .ok [p.finding (.codeEnds (p.location ia ib))]
termination_by p.imageA.code.length - pa
decreasing_by
  have hlt := (List.getElem?_eq_some_iff.mp ‹p.imageA.code[pa]? = some ia›).1
  omega

/-- Reading code by position finds what walking over it does. -/
theorem compareFromChecked_eq (ha : p.imageA.globals.Consistent)
    (hb : p.imageB.globals.Consistent) (mode : CompareMode) (pa pb : Nat) :
    p.compareFromChecked mode pa pb =
      p.compareTails mode pa pb (p.imageA.code.drop pa) (p.imageB.code.drop pb) := by
  fun_induction compareFromChecked p mode pa pb with
  | case1 pa pb ia ib hia hib visited hboth =>
      rw [drop_of_getElem? hia, drop_of_getElem? hib, compareTails, if_pos hboth]
  | case2 pa pb ia ib hia hib visited hboth hone =>
      rw [drop_of_getElem? hia, drop_of_getElem? hib, compareTails, if_neg hboth,
        if_pos hone]
  | case3 pa pb ia ib hia hib visited hboth hone ih =>
      rw [stepChecked_eq ha hb mode hia hib, drop_of_getElem? hia, drop_of_getElem? hib,
        compareTails, if_neg hboth, if_neg hone]
      simp only [dite_eq_ite, List.drop_drop] at ih ⊢
      simp only [ih]
      rfl
  | case4 pa pb hends =>
      rw [compareTails]
      · rw [List.head?_drop, List.head?_drop]
      · intro ia ra ib rb hda hdb
        refine hends ia ib ?_ ?_
        · rw [← List.head?_drop, hda, List.head?_cons]
        · rw [← List.head?_drop, hdb, List.head?_cons]

end ScriptPair

end ScriptImage
