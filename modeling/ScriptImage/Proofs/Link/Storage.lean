import ScriptImage.Proofs.Texts
import ScriptImage.Proofs.Codec.Canonical
import ScriptImage.Proofs.Link.Variables

/-!
Linked images in their stored form. All that a link takes over from modules that were read is
storable, and so is what relocation makes of it, with one exception: ids of locals are shifted by
the slots of the other modules, and nothing keeps them from passing the last signed word. So an
image is read back as it was written exactly when no local is shifted too far and its lists can be
counted.
-/

namespace ScriptImage

/-! ### Operands -/

namespace Operand

/-- Operands that are stored in the same way. -/
inductive SameKind : Operand → Operand → Prop
  | none : SameKind .none .none
  | int {v w : Int32} : SameKind (.int v) (.int w)
  | float {v w : Binary32} : SameKind (.float v) (.float w)
  | bool {v w : Bool} : SameKind (.bool v) (.bool w)
  | address {a b : UInt32} : SameKind (.address a) (.address b)
  | script {r s : SymbolRef} : SameKind (.script r) (.script s)
  | variable {r s : SymbolRef} : SameKind (.variable r) (.variable s)

/-- Operands that are the ones their words stand for. -/
def Fits : Operand → Prop
  | .address a => a.toNat ≤ 0x7FFFFFFF
  | .script r | .variable r => r.Storable
  | _ => True

theorem SameKind.variant_eq {op op' : Operand} (h : SameKind op op') :
    op'.variant = op.variant := by
  cases h <;> rfl

theorem fits_iff_inRange {op : Operand} : op.Fits ↔ op.InRange := by
  cases op with
  | script r => exact SymbolRef.storable_iff
  | «variable» r => exact SymbolRef.storable_iff
  | _ => exact Iff.rfl

/-- An operand stored like the one of a word is the one its word stands for when it fits. -/
theorem ofWord?_word_iff {o : Opcode} {m : Mode} {t : DataType} {w : Int32} {op op' : Operand}
    (h : ofWord? o m t w = some op) (hsame : SameKind op op') :
    ofWord? o m t op'.word = some op' ↔ op'.Fits := by
  have hvariant : op'.variant = o.variant m t := hsame.variant_eq.trans (variant_of_ofWord? h)
  rw [ofWord?_word_eq_iff_of_variant hvariant, fits_iff_inRange]

end Operand

theorem Relocation.NewOperand.sameKind {r : Relocation} {isText : Bool} {scope : Scope}
    {start newStart : UInt32} {o o' : Operand} (h : r.NewOperand isText scope start newStart o o') :
    Operand.SameKind o o' := by
  cases h with
  | none => exact .none
  | int => exact .int
  | text => exact .int
  | float => exact .float
  | bool => exact .bool
  | address => exact .address
  | script => exact .script
  | «variable» => exact .«variable»

/-- Relocation keeps how the operand of an instruction is stored. -/
theorem Relocation.Becomes.storable_iff {r : Relocation} {s : Script} {newStart : UInt32}
    {i ins : Instruction} (h : r.Becomes s newStart i ins) (hi : i.Storable) :
    ins.Storable ↔ ins.operand.Fits := by
  cases h with
  | own hoperand => exact Operand.ofWord?_word_iff hi hoperand.sameKind
  | carries hfloat _ =>
      obtain ⟨-, x, hx⟩ := Instruction.opcode_of_floatVariable? hfloat
      exact Operand.ofWord?_word_iff hi (hx ▸ .float)

/-! ### Copies -/

/-- No local of the module passes the last slot when it is shifted by the slots of the others. -/
def ObjectModule.LocalsFit (total : Nat) (m : ObjectModule) : Prop :=
  ∀ s ∈ m.image.scripts, ∀ run, m.image.scriptCode? s = some run → ∀ ins ∈ run, ∀ v,
    ins.operand = .variable (.internal v) → s.boundary < v →
      v.toNat + total ≤ maxSlot + m.image.globals.slots.toNat

namespace LinkedCopy

variable {modules : List ObjectModule} {image : Image} {i j : Nat} {m : ObjectModule} {s : Script}
  {r : Relocation} {run : List Instruction} {c : CopiedScript}

theorem source_mem (h : LinkedCopy modules image i m j s r run c) {k : Nat} {ins : Instruction}
    (hk : run[k]? = some ins) : ins ∈ m.image.code := by
  have hmem := (prefix_of_closedRun? h.closed).subset (List.mem_of_getElem? hk)
  exact List.drop_subset _ _ hmem

/-- An id stays in the range of slots unless it is that of a local. -/
theorem newId_le_iff (h : LinkedCopy modules image i m j s r run c)
    (htotal : slotsOf (allVars modules) ≤ maxSlot) {v : SymbolRef} {id : UInt32}
    (hid : r.NewId s.scope v id) :
    id.toNat ≤ maxSlot ↔ ∀ w, v = .internal w → s.boundary < w →
      w.toNat + slotsOf (allVars modules) ≤ maxSlot + m.image.globals.slots.toNat := by
  have hfits := h.fits
  have hshift := hfits.localShift
  have hoffset := hfits.globalOffset_le
  cases hid with
  | null =>
      refine iff_of_true (by simp) ?_
      rintro w ⟨⟩ hlt
      exact absurd rfl (Word.ne_zero_of_lt hlt)
  | «local» hlt _ hid =>
      constructor
      · rintro hle w ⟨⟩ -
        omega
      · intro hall
        have := hall _ rfl hlt
        omega
  | global h0 hle hslots hid =>
      -- own slots and those before them are slots of the image
      rw [hfits.slots, UInt32.le_iff_toNat_le] at hslots
      refine iff_of_true (by omega) ?_
      rintro w ⟨⟩ hlt
      exact absurd hlt (UInt32.not_lt.mpr hle)
  | imported hp =>
      obtain ⟨w, u, -, -, -, hle, -⟩ := hfits.imported _ id hp
      have hle := UInt32.le_iff_toNat_le.mp hle
      exact iff_of_true (by omega) (by simp)

/-- What stands in the copy for an instruction is stored as it is unless it names a local that is
shifted too far. -/
theorem operand_fits_iff (h : LinkedCopy modules image i m j s r run c)
    (htotal : slotsOf (allVars modules) ≤ maxSlot) (hscripts : image.scripts.length ≤ maxSlot)
    {ins ins' : Instruction} (hbecomes : r.Becomes s c.script.address ins ins')
    (hjump : ∀ a, ins'.operand = .address a → a.toNat ≤ maxSlot) :
    ins'.operand.Fits ↔ ∀ v, ins.operand = .variable (.internal v) → s.boundary < v →
      v.toNat + slotsOf (allVars modules) ≤ maxSlot + m.image.globals.slots.toNat := by
  cases hbecomes with
  | carries hfloat _ =>
      obtain ⟨-, x, hx⟩ := Instruction.opcode_of_floatVariable? hfloat
      exact iff_of_true trivial (by simp [hx])
  | own hoperand =>
      generalize ins.operand = o at hoperand
      cases hoperand with
      | address => exact iff_of_true (hjump _ rfl) (by simp)
      | script hid =>
          obtain ⟨-, hle⟩ := h.fits.scripts _ _ hid
          exact iff_of_true (SymbolRef.storable_internal_iff.mpr (by omega)) (by simp)
      | «variable» hid =>
          simp only [Operand.variable.injEq]
          exact SymbolRef.storable_internal_iff.trans (h.newId_le_iff htotal hid)
      | _ => exact iff_of_true trivial (by simp)

end LinkedCopy

section

variable {options : LinkOptions} {modules : List ObjectModule} {linked : Linked}

theorem slotsOf_le_of_link (hdeclared : ∀ m ∈ modules, m.image.globals.Declared)
    (h : link options modules = .ok linked) : slotsOf (allVars modules) ≤ maxSlot := by
  obtain ⟨total, e, htotal, -, -⟩ := link_eq_ok_iff.mp h
  obtain ⟨heq, hle⟩ := totalSlots_ok hdeclared htotal
  omega

theorem scripts_length_le (h : link options modules = .ok linked) :
    linked.image.scripts.length ≤ linked.image.code.length := by
  rw [← (sound_of_link h).count]
  exact runs_length_le linked.image.code

theorem jump_le (h : link options modules = .ok linked)
    (hcode : linked.image.code.length ≤ 0x80000000) {ins : Instruction}
    (hins : ins ∈ linked.image.code) {a : UInt32} (ha : ins.operand = .address a) :
    a.toNat ≤ maxSlot := by
  have hmax : maxSlot = 0x7FFFFFFF := rfl
  have hlt := (sound_of_link h).jumps ins hins a ha
  omega

/-- The code of a linked image is stored as it is exactly when no local is shifted too far. -/
theorem code_storable_iff (hread : ∀ m ∈ modules, m.image.Storable)
    (h : link options modules = .ok linked) (hcode : linked.image.code.length < 0x80000000) :
    (∀ ins ∈ linked.image.code, ins.Storable) ↔
      ∀ m ∈ modules, m.LocalsFit (slotsOf (allVars modules)) := by
  have hmax : maxSlot = 0x7FFFFFFF := rfl
  have hdeclared : ∀ m ∈ modules, m.image.globals.Declared :=
    fun m hm => (hread m hm).globals.declared
  have htotal := slotsOf_le_of_link hdeclared h
  have hscripts := scripts_length_le h
  constructor
  · intro hall m hm s hs run hrun ins hins
    obtain ⟨i, hi⟩ := List.mem_iff_getElem?.mp hm
    obtain ⟨j, hj⟩ := List.mem_iff_getElem?.mp hs
    obtain ⟨k, hk⟩ := List.mem_iff_getElem?.mp hins
    obtain ⟨r, run', c, hcopy⟩ := linkedCopy hdeclared h hi hj
    have hrun' := hcopy.closed
    rw [hrun, Option.some.injEq] at hrun'
    subst hrun'
    -- what stands for the instruction is in the image, so its operand fits
    obtain ⟨ins', hk', hbecomes⟩ := hcopy.becomes hk
    have hins' : ins' ∈ linked.image.code := by
      rw [← (sound_of_link h).tiled]
      exact List.mem_flatten.mpr ⟨c.code, List.mem_of_getElem? hcopy.standsFor.runAt,
        List.mem_of_getElem? hk'⟩
    have hstorable := (hbecomes.storable_iff
      ((hread m hm).code.all ins (hcopy.source_mem hk))).mp (hall ins' hins')
    exact (hcopy.operand_fits_iff htotal (by omega) hbecomes
      fun a => jump_le h (by omega) hins').mp hstorable
  · intro hall ins' hins'
    obtain ⟨pc, hpc⟩ := List.mem_iff_getElem?.mp hins'
    obtain ⟨i, m, j, s, r, run, c, k, start, hcopy, hk', -, -⟩ :=
      exists_copied_instruction hdeclared h hpc
    obtain ⟨ins, hk, hbecomes⟩ := hcopy.origin hk'
    have hm := hcopy.module_mem
    refine (hbecomes.storable_iff ((hread m hm).code.all ins (hcopy.source_mem hk))).mpr ?_
    refine (hcopy.operand_fits_iff htotal (by omega) hbecomes
      fun a => jump_le h (by omega) hins').mpr ?_
    exact hall m hm s (List.mem_of_getElem? hcopy.source) run hcopy.closed ins
      (List.mem_of_getElem? hk)

/-- What else a draft takes over from modules that were read. -/
structure Draft.Stored (d : Draft) : Prop where
  texts : d.texts.Sound
  inits : ∀ x ∈ d.inits, x.Storable

theorem Draft.stored_empty : Draft.Stored {} := by
  refine ⟨TextPool.sound_empty, ?_⟩
  intro x hx
  rw [List.mem_singleton] at hx
  subst hx
  refine ⟨?_, by simp [Initializer.null]⟩
  change (Utf8.encode "Null").length < 0x100000000
  decide

theorem Draft.Merges.stored {share : Bool} {total : UInt32} {d d' : Draft} {m : ObjectModule}
    {p : Prepared} {cs : List CopiedScript} (h : Draft.Merges share total d m d' p cs)
    (hd : d.Stored) (hm : m.image.Storable) : d'.Stored := by
  obtain ⟨moves, hmoves, -⟩ := h.prepares.texts
  rw [← hm.data] at hmoves
  refine ⟨h.texts ▸ hd.texts.merge hm.bytes hmoves, ?_⟩
  intro x hx
  rw [h.inits, h.prepares.inits] at hx
  rcases List.mem_append.mp hx with hx | hx
  · exact hd.inits x hx
  · exact hm.inits.all x (List.drop_subset _ _ hx)

theorem stored_of_mergeAll {share : Bool} {total : UInt32} {e : Draft}
    (hread : ∀ m ∈ modules, m.image.Storable)
    (h : mergeAll share total {} modules = .ok e) : e.Stored := by
  refine Draft.mergeAll_invariant Draft.Stored ?_ Draft.stored_empty h
  intro d m d' p cs hm hmerges hd
  exact hmerges.stored hd (hread m hm)

theorem globals_storable {e : Draft} (hread : ∀ m ∈ modules, m.image.Storable)
    (h : Draft.Merged {} modules e) : e.globals.Storable := by
  refine ⟨h.sound.declared, ?_⟩
  intro v hv
  have hvars : e.globals.vars = allVars modules := h.vars
  rw [hvars] at hv
  obtain ⟨m, hm, hv⟩ := List.mem_flatMap.mp hv
  exact (hread m hm).globals.vars v hv

theorem script_storable (hread : ∀ m ∈ modules, m.image.Storable)
    (h : link options modules = .ok linked) {s' : Script} (hs : s' ∈ linked.image.scripts) :
    s'.Storable := by
  have hdeclared : ∀ m ∈ modules, m.image.globals.Declared :=
    fun m hm => (hread m hm).globals.declared
  obtain ⟨n, hn⟩ := List.mem_iff_getElem?.mp hs
  obtain ⟨i, m, j, s, r, run, c, hcopy, -, rfl⟩ := exists_linkedCopy hdeclared h hn
  have hstorable := (hread m hcopy.module_mem).scripts.all s (List.mem_of_getElem? hcopy.source)
  rw [hcopy.script]
  exact ⟨hstorable.name, hstorable.locals, hstorable.source⟩

theorem autostart_storable (h : link options modules = .ok linked)
    (hcode : linked.image.code.length < 0x80000000) {r : SymbolRef}
    (hr : r ∈ linked.image.autostart) : r.Storable := by
  have hmax : maxSlot = 0x7FFFFFFF := rfl
  have hscripts := scripts_length_le h
  obtain ⟨id, rfl, -, hle⟩ := (sound_of_link h).autostart r hr
  exact SymbolRef.storable_internal_iff.mpr (by omega)

/-- A link of modules that were read gives an image that is read back as it was written exactly
when no local is shifted past the last slot and what starts at load time and the initial values
can be counted by a word. -/
theorem link_decode_encode_iff
    (hread : ∀ m ∈ modules, ∃ bs, ObjectModule.decode bs = .ok m)
    (h : link options modules = .ok linked) (hcode : linked.image.code.length < 0x80000000)
    (hdata : linked.image.data.size < 0x80000000) :
    Image.decode linked.image.encode = .ok linked.image ↔
      (∀ m ∈ modules, m.LocalsFit (slotsOf (allVars modules))) ∧
        linked.image.autostart.length < 0x100000000 ∧
          linked.image.inits.length < 0x100000000 := by
  have hstorable : ∀ m ∈ modules, m.image.Storable := by
    intro m hm
    obtain ⟨bs, hbs⟩ := hread m hm
    exact (ObjectModule.storable_of_decode hbs).image
  have hscripts := scripts_length_le h
  obtain ⟨total, e, -, he, hlinked⟩ := link_eq_ok_iff.mp h
  have hmerged := Draft.merged_of_mergeAll Draft.sound_empty he
  have hstored := stored_of_mergeAll hstorable he
  rw [Image.decode_encode_iff, ← code_storable_iff hstorable h hcode]
  constructor
  · intro himage
    exact ⟨himage.code.all, himage.autostart.length, himage.inits.length⟩
  · rintro ⟨hins, hautostart, hinits⟩
    have hbytes : linked.image.data.bytes.length < 0x80000000 := hdata
    refine ⟨?_, ⟨by omega, fun s => script_storable hstorable h⟩, ⟨by omega, hins⟩, by omega, ?_,
      ⟨hautostart, fun r => autostart_storable h hcode⟩, ⟨hinits, ?_⟩⟩
    · rw [← hlinked]
      exact globals_storable hstorable hmerged
    · rw [← hlinked]
      exact (Draft.indexed_finalData hstored.texts options.debugMetadata).ofBytes_eq
    · rw [← hlinked]
      exact hstored.inits

end

namespace Sample

theorem table_localsFit : table.LocalsFit 4 := by
  intro s hs
  cases hs

theorem reader_localsFit : reader.LocalsFit 4 := by
  intro s hs run hrun ins hins v hv _
  obtain rfl : s = main := List.mem_singleton.mp hs
  rw [scriptCode?_main, Option.some.injEq] at hrun
  subst hrun
  have hlocal : v = 2 := by
    fin_cases hins <;> cases hv
    rfl
  subst hlocal
  decide

theorem modules_storable : ∀ m ∈ modules, m.Storable := by
  have hread : ∀ m ∈ modules, (ObjectModule.decode m.encode).toOption = some m := by
    decide +kernel
  exact fun m hm => ObjectModule.storable_of_decode (toOption_eq_some.mp (hread m hm))

theorem decode_encode : ∃ linked, link {} modules = .ok linked ∧
    Image.decode linked.image.encode = .ok linked.image := by
  obtain ⟨linked, h, hcode, hdata, hautostart, hinits⟩ := exists_linked
  have hread : ∀ m ∈ modules, ∃ bs, ObjectModule.decode bs = .ok m := fun m hm =>
    ⟨m.encode, ObjectModule.decode_encode_iff.mpr (modules_storable m hm)⟩
  refine ⟨linked, h, (link_decode_encode_iff hread h ?_ ?_).mpr ⟨?_, ?_, ?_⟩⟩
  · rw [hcode]
    decide
  · rw [hdata]
    decide
  · simp only [modules, List.forall_mem_cons, List.not_mem_nil, false_implies, implies_true,
      and_true]
    exact ⟨table_localsFit, reader_localsFit⟩
  · rw [hautostart]
    decide
  · rw [hinits]
    decide

/-- An array that takes every slot. -/
def full : ObjectModule where
  name := "full"
  image := {
    globals := { entries := [("all", ⟨"all", 0x7FFFFFFF⟩)], starts := [1], slots := 0x7FFFFFFF } }

/-- Reads a local. -/
def localReader : ObjectModule where
  name := "local"
  image := {
    scripts := [{ main with boundary := 0 }]
    code := [.load (.internal 1), .endRun] }

/-- Behind that array the local is shifted past the last slot, and its id is not read back. -/
theorem local_not_read_back :
    (∀ m ∈ [full, localReader], ∃ bs, ObjectModule.decode bs = .ok m) ∧
      ∃ linked, link {} [full, localReader] = .ok linked ∧ linked.image.code.length = 2 ∧
        linked.image.data.size = 0 ∧ Image.decode linked.image.encode ≠ .ok linked.image := by
  constructor
  · have hfull : (ObjectModule.decode full.encode).toOption = some full := by decide +kernel
    have hlocal : (ObjectModule.decode localReader.encode).toOption = some localReader := by
      decide +kernel
    simp only [List.forall_mem_cons, List.not_mem_nil, false_implies, implies_true, and_true]
    exact ⟨⟨_, toOption_eq_some.mp hfull⟩, ⟨_, toOption_eq_some.mp hlocal⟩⟩
  · simp only [ne_eq, ← toOption_eq_some (x := Image.decode _)]
    exact exists_ok (by decide +kernel)

end Sample

end ScriptImage
