import ScriptImage.Compare.Code
import ScriptImage.Image.Check
import ScriptImage.Proofs.Runs

/-!
What the check of an image establishes. It reports the first defect it meets, so it reports none
exactly when no script, no instruction and no reference of the autostart list has one. Script ids
then count the scripts, and each leads to the script at its position.
-/

namespace ScriptImage

/-- Nothing is found along numbered elements when nothing is found for any of them. -/
theorem findSome?_zipIdx_eq_none_iff {α β : Type} {f : α → Nat → Option β} {xs : List α} :
    (xs.zipIdx.findSome? fun (x, k) => f x k) = none ↔ ∀ k x, xs[k]? = some x → f x k = none := by
  simp only [List.findSome?_eq_none_iff, Prod.forall, List.mem_zipIdx_iff_getElem?]
  exact forall_comm

namespace Image

variable {m : Image} {s : Script} {i : Instruction} {r : SymbolRef}

/-! ### Ids of scripts -/

/-- Where ids count the scripts, an id leads to the script at its position. -/
theorem scriptById?_of_numbered (h : ∀ n s, m.scripts[n]? = some s → s.id.toNat = n + 1)
    {id : UInt32} {n : Nat} (hid : id.toNat = n + 1) : m.scriptById? id = m.scripts[n]? := by
  unfold scriptById?
  rw [hid]
  cases hs : m.scripts[n]? with
  | none => simp [hs]
  | some s =>
      have hsid : s.id = id := UInt32.toNat_inj.mp ((h n s hs).trans hid.symm)
      simp [hs, hsid]

theorem scriptName?_of_numbered (h : ∀ n s, m.scripts[n]? = some s → s.id.toNat = n + 1)
    {id : UInt32} {n : Nat} (hid : id.toNat = n + 1) :
    m.scriptName? (.internal id) = m.scripts[n]?.map Script.name := by
  simp only [scriptName?, SymbolRef.internal?, Option.pure_def, Option.bind_eq_bind,
    Option.bind_some, scriptById?_of_numbered h hid]
  cases m.scripts[n]? <;> rfl

/-- Where ids count the scripts, each script has its own. -/
theorem eq_of_id (hnumbered : ∀ n s, m.scripts[n]? = some s → s.id.toNat = n + 1)
    {t : Script} (hs : s ∈ m.scripts)
    (ht : t ∈ m.scripts) (hid : s.id = t.id) : s = t := by
  obtain ⟨k, hk⟩ := List.mem_iff_getElem?.mp hs
  obtain ⟨n, hn⟩ := List.mem_iff_getElem?.mp ht
  have hkn := hnumbered k s hk
  rw [hid, hnumbered n t hn, Nat.succ_inj] at hkn
  rw [hkn, hk, Option.some.injEq] at hn
  exact hn

/-- A reference to one of the scripts of the image. -/
def NamesScript (m : Image) (r : SymbolRef) : Prop :=
  ∃ id, r = .internal id ∧ 0 < id.toNat ∧ id.toNat ≤ m.scripts.length

theorem isScriptId_iff {id : UInt32} :
    m.isScriptId id = true ↔ 0 < id.toNat ∧ id.toNat ≤ m.scripts.length := by
  rw [isScriptId, Bool.and_eq_true, decide_eq_true_iff, decide_eq_true_iff, Nat.succ_le_iff]

theorem namesScript_internal_iff {id : UInt32} :
    m.NamesScript (.internal id) ↔ 0 < id.toNat ∧ id.toNat ≤ m.scripts.length := by
  simp [NamesScript]

theorem not_namesScript_external (position : UInt32) : ¬ m.NamesScript (.external position) := by
  simp [NamesScript]

/-! ### One check after the other -/

/-- An operand that leads somewhere in the image; what variables name depends on the script. -/
def Reaches (m : Image) : Operand → Prop
  | .address x => x.toNat < m.code.length
  | .script r => m.NamesScript r
  | .variable r => ∃ id, r = .internal id
  | _ => True

/-- Every variable that the instructions of a run name is known in the script. -/
def VariablesKnown (m : Image) (s : Script) (run : List Instruction) : Prop :=
  ∀ i ∈ run, ∀ id, i.operand = .variable (.internal id) → ∃ name, m.varName? s id = some name

theorem variableDefect?_eq_none_iff {k : Nat} : m.variableDefect? s i k = none ↔
    ∀ id, i.operand = .variable (.internal id) → ∃ name, m.varName? s id = some name := by
  unfold variableDefect?
  split
  · rename_i v hv
    simp only [ite_eq_right_iff, reduceCtorEq, imp_false, Option.isNone_iff_eq_none]
    rw [← ne_eq, Option.ne_none_iff_exists', hv]
    constructor
    · rintro hname id ⟨⟩
      exact hname
    · exact fun h => h v rfl
  · rename_i hother
    exact iff_of_true rfl fun id hid => (hother id hid).elim

theorem scriptDefect?_eq_none_iff {n : Nat} : m.scriptDefect? s n = none ↔
    s.id.toNat = n + 1 ∧ ∃ run, m.scriptCode? s = some run ∧ m.VariablesKnown s run := by
  unfold scriptDefect?
  split
  · rename_i hid
    exact iff_of_false (by simp) fun h => hid h.1
  · rename_i hid
    rw [not_not] at hid
    rw [and_iff_right hid]
    split
    · rename_i hnone
      simp [hnone]
    · rename_i run hrun
      rw [findSome?_zipIdx_eq_none_iff]
      simp only [variableDefect?_eq_none_iff, hrun, Option.some.injEq, exists_eq_left',
        VariablesKnown, List.mem_iff_getElem?]
      exact ⟨fun h i ⟨k, hk⟩ => h k i hk, fun h k i hk => h i ⟨k, hk⟩⟩

theorem operandDefect?_eq_none_iff {pc : Nat} :
    m.operandDefect? i pc = none ↔ m.Reaches i.operand := by
  unfold operandDefect?
  cases i.operand with
  | address x => simp [Reaches]
  | script r =>
      cases r with
      | internal id => simp [Reaches, namesScript_internal_iff, ← isScriptId_iff]
      | external position => simp [Reaches, not_namesScript_external]
  | «variable» r => cases r <;> simp [Reaches]
  | _ => simp [Reaches]

theorem referenceDefect?_eq_none_iff {pc : Nat} : m.referenceDefect? i pc = none ↔
    (i.isReference = true → ∃ p r, 2 ≤ pc ∧ m.code[pc - 2]? = some p ∧
      p.floatVariable? = some r) := by
  unfold referenceDefect? paired?
  by_cases hpc : 2 ≤ pc
  · simp only [hpc, if_true, true_and, ite_eq_right_iff, reduceCtorEq, imp_false, not_and,
      Option.isNone_iff_eq_none]
    rw [← ne_eq, Option.ne_none_iff_exists']
    simp only [Option.bind_eq_some_iff]
    exact imp_congr_right fun _ => exists_comm.trans (by simp)
  · simp [hpc]

theorem autostartDefect?_eq_none_iff : m.autostartDefect? r = none ↔ m.NamesScript r := by
  unfold autostartDefect?
  cases r with
  | internal id => simp [namesScript_internal_iff, ← isScriptId_iff]
  | external position => simp [not_namesScript_external]

/-! ### All checks together -/

/-- An image whose tables fit together. -/
structure Valid (m : Image) : Prop where
  numbered : ∀ n s, m.scripts[n]? = some s → s.id.toNat = n + 1
  runs : ∀ s ∈ m.scripts, ∃ run, m.scriptCode? s = some run ∧ m.VariablesKnown s run
  operands : ∀ i ∈ m.code, m.Reaches i.operand
  references : ∀ pc i, m.code[pc]? = some i → i.isReference = true → ∃ p r, 2 ≤ pc ∧
    m.code[pc - 2]? = some p ∧ p.floatVariable? = some r
  autostart : ∀ r ∈ m.autostart, m.NamesScript r

theorem isValid_iff : m.isValid = true ↔ m.Valid := by
  rw [isValid, Option.isNone_iff_eq_none, defect?, Option.orElse_eq_none, Option.orElse_eq_none,
    findSome?_zipIdx_eq_none_iff, findSome?_zipIdx_eq_none_iff, List.findSome?_eq_none_iff]
  simp only [codeDefect?, Option.orElse_eq_none, scriptDefect?_eq_none_iff,
    operandDefect?_eq_none_iff, referenceDefect?_eq_none_iff, autostartDefect?_eq_none_iff]
  constructor
  · rintro ⟨hscripts, hcode, hautostart⟩
    refine ⟨fun n s hs => (hscripts n s hs).1, ?_, ?_, fun pc i hi => (hcode pc i hi).2, hautostart⟩
    · intro s hs
      obtain ⟨n, hn⟩ := List.mem_iff_getElem?.mp hs
      exact (hscripts n s hn).2
    · intro i hi
      obtain ⟨pc, hpc⟩ := List.mem_iff_getElem?.mp hi
      exact (hcode pc i hpc).1
  · intro h
    refine ⟨fun n s hs => ⟨h.numbered n s hs, h.runs s (List.mem_of_getElem? hs)⟩,
      fun pc i hi => ⟨h.operands i (List.mem_of_getElem? hi), h.references pc i hi⟩, h.autostart⟩

/-! ### What instructions of a run name -/

theorem mem_code_of_scriptCode? {run : List Instruction} (hrun : m.scriptCode? s = some run)
    (hi : i ∈ run) : i ∈ m.code :=
  List.mem_of_mem_drop ((prefix_of_closedRun? hrun).subset hi)

theorem Valid.namesScript (h : m.Valid) (hi : i ∈ m.code) (hr : i.operand = .script r) :
    m.NamesScript r := by
  have hreaches := h.operands i hi
  rwa [hr] at hreaches

theorem Valid.exists_refName? (h : m.Valid) (hs : s ∈ m.scripts) {run : List Instruction}
    (hrun : m.scriptCode? s = some run) (hi : i ∈ run) (hr : i.operand = .variable r) :
    ∃ name, m.refName? s r = some name := by
  have hreaches := h.operands i (mem_code_of_scriptCode? hrun hi)
  rw [hr] at hreaches
  obtain ⟨id, rfl⟩ := hreaches
  obtain ⟨run', hrun', hknown⟩ := h.runs s hs
  cases hrun.symm.trans hrun'
  exact hknown i hi id hr

theorem NamesScript.exists_scriptName? (h : ∀ n s, m.scripts[n]? = some s → s.id.toNat = n + 1)
    (hr : m.NamesScript r) : ∃ name, m.scriptName? r = some name := by
  obtain ⟨id, rfl, hpos, hle⟩ := hr
  obtain ⟨s, hs⟩ : ∃ s, m.scripts[id.toNat - 1]? = some s :=
    ⟨_, List.getElem?_eq_getElem (show id.toNat - 1 < _ by omega)⟩
  refine ⟨s.name, ?_⟩
  rw [scriptName?_of_numbered h (Nat.sub_add_cancel hpos).symm, hs, Option.map_some]

/-- An operand that, if it has to name something in its script, does. -/
def Resolves (m : Image) (s : Script) : Operand → Prop
  | .script r => ∃ name, m.scriptName? r = some name
  | .variable r => ∃ name, m.refName? s r = some name
  | _ => True

/-- A tail of code that begins with a closed run, of which every operand before END resolves. -/
def ResolvesRun (m : Image) (s : Script) (ts : List Instruction) : Prop :=
  ∃ run, closedRun? ts = some run ∧ ∀ i ∈ run, i.opcode ≠ .endRun → m.Resolves s i.operand

/-- An operand that leads somewhere resolves when its variable is known. -/
theorem Reaches.resolves (hnumbered : ∀ n s, m.scripts[n]? = some s → s.id.toNat = n + 1)
    {o : Operand} (h : m.Reaches o)
    (hknown : ∀ id, o = .variable (.internal id) → ∃ name, m.varName? s id = some name) :
    m.Resolves s o := by
  cases o with
  | script r => exact NamesScript.exists_scriptName? hnumbered h
  | «variable» r =>
      obtain ⟨id, rfl⟩ := h
      exact hknown id rfl
  | none | int | float | bool | address => trivial

/-- In a valid image the run of each script is one of which every operand resolves. -/
theorem Valid.resolvesRun (h : m.Valid) (hs : s ∈ m.scripts) :
    m.ResolvesRun s (m.code.drop s.address.toNat) := by
  obtain ⟨run, hrun, hknown⟩ := h.runs s hs
  refine ⟨run, hrun, fun i hi _ => ?_⟩
  exact (h.operands i (mem_code_of_scriptCode? hrun hi)).resolves h.numbered (hknown i hi)

theorem ResolvesRun.ne_nil {ts : List Instruction} (h : m.ResolvesRun s ts) : ts ≠ [] := by
  rintro rfl
  obtain ⟨run, hrun, -⟩ := h
  cases hrun

theorem ResolvesRun.head {r : List Instruction} (h : m.ResolvesRun s (i :: r))
    (hi : i.opcode ≠ .endRun) : m.Resolves s i.operand := by
  obtain ⟨run, hrun, hall⟩ := h
  obtain ⟨rest, -, rfl⟩ := (closedRun?_cons_of_ne hi).mp hrun
  exact hall i List.mem_cons_self hi

/-- Behind any instruction but END the run goes on. -/
theorem ResolvesRun.tail {r : List Instruction} (h : m.ResolvesRun s (i :: r))
    (hi : i.opcode ≠ .endRun) : m.ResolvesRun s r := by
  obtain ⟨run, hrun, hall⟩ := h
  obtain ⟨rest, hrest, rfl⟩ := (closedRun?_cons_of_ne hi).mp hrun
  exact ⟨rest, hrest, fun j hj => hall j (List.mem_cons_of_mem i hj)⟩

end Image

end ScriptImage
