import ScriptImage.Proofs.Link.Variables

/-!
What a link says of itself. The figures of a module are noted while it is merged, as counted up to
then, and they add up: code, scripts and slots of a module begin where those of the modules before
it end, and the totals are sums over all modules. The slots that are summed before anything is
merged are those that the image has in the end. So the locals of a module, which are shifted by the
slots of the others, come to lie above all global variables.
-/

namespace ScriptImage

/-- The figures of a module, told by those of the modules before it. -/
structure LinkInput.Describes (input : LinkInput) (before : List LinkInput)
    (earlier : List ObjectModule) (m : ObjectModule) : Prop where
  file : input.file = m.name
  scripts : input.scripts = m.image.scripts.length
  instructions : input.instructions = (m.image.scripts.map fun s => (m.runOf s).length).sum
  /-- Where its code begins, or the last word where that is past it. -/
  baseAddress : input.baseAddress.toNat = min (before.map LinkInput.instructions).sum 0xFFFFFFFF
  firstScriptId : input.firstScriptId.toNat = (before.map LinkInput.scripts).sum + 1
  globalOffset : input.globalOffset.toNat = slotSum earlier

/-- One module more, told by all inputs before. -/
theorem describes_concat {inputs : List LinkInput} {input : LinkInput}
    {modules : List ObjectModule} {m : ObjectModule} (hlength : inputs.length = modules.length)
    (h : ∀ (i : Nat) (m : ObjectModule) (input : LinkInput), modules[i]? = some m →
      inputs[i]? = some input → input.Describes (inputs.take i) (modules.take i) m)
    (hinput : input.Describes inputs modules m) (i : Nat) (m' : ObjectModule) (input' : LinkInput)
    (hm' : (modules ++ [m])[i]? = some m') (hi : (inputs ++ [input])[i]? = some input') :
    input'.Describes ((inputs ++ [input]).take i) ((modules ++ [m]).take i) m' := by
  rcases Nat.lt_or_ge i modules.length with hlt | hge
  · rw [List.getElem?_append_left hlt] at hm'
    rw [List.getElem?_append_left (by omega)] at hi
    rw [List.take_append_of_le_length (by omega), List.take_append_of_le_length hlt.le]
    exact h i m' input' hm' hi
  · obtain rfl : i = modules.length := by
      have hle := (List.getElem?_eq_some_iff.mp hm').1
      rw [List.length_append, List.length_singleton] at hle
      omega
    rw [List.getElem?_concat_length] at hm'
    rw [← hlength, List.getElem?_concat_length] at hi
    cases hm'
    cases hi
    rw [List.take_left, ← hlength, List.take_left]
    exact hinput

namespace Draft

variable {share : Bool} {total : UInt32} {d d' e : Draft} {m : ObjectModule} {p : Prepared}
  {cs : List CopiedScript} {modules before : List ObjectModule}

/-- A draft whose figures add up. -/
structure Tallied (d : Draft) (modules : List ObjectModule) : Prop where
  declared : d.globals.Declared
  length : d.inputs.length = modules.length
  inputs : ∀ (i : Nat) (m : ObjectModule) (input : LinkInput), modules[i]? = some m →
    d.inputs[i]? = some input → input.Describes (d.inputs.take i) (modules.take i) m
  scripts : d.scripts.length = (d.inputs.map LinkInput.scripts).sum
  instructions : d.code.length = (d.inputs.map LinkInput.instructions).sum
  slots : d.globals.slots.toNat = slotSum modules

theorem tallied_empty : Tallied {} [] := ⟨.empty, rfl, by simp, rfl, rfl, rfl⟩

theorem Merges.moved_length (h : Merges share total d m d' p cs) :
    (cs.flatMap CopiedScript.moved).length =
      (m.image.scripts.map fun s => (m.runOf s).length).sum := by
  rw [List.length_flatMap, ← h.lengths]
  simp only [CopiedScript.code_length]

theorem Merges.slots (h : Merges share total d m d' p cs) (hd : d.globals.Declared)
    (hm : m.image.globals.Declared) :
    d'.globals.slots.toNat = d.globals.slots.toNat + m.image.globals.slots.toNat := by
  obtain ⟨hdeclared, hvars⟩ := h.declared hd
  rw [hdeclared.consistent.slots, hd.consistent.slots, hm.consistent.slots, hvars, slotsOf_append]

/-- What is noted of a module is told by what was noted before. -/
theorem Tallied.describes (hd : d.Tallied modules) (h : Merges share total d m d' p cs) :
    ∃ input, d'.inputs = d.inputs ++ [input] ∧ input.Describes d.inputs modules m := by
  refine ⟨_, h.inputs, rfl, rfl, h.moved_length, ?_, ?_, ?_⟩
  · rw [← hd.instructions]
    exact Word.toNat_saturate_eq d.code.length
  · rw [← hd.scripts]
    exact h.prepares.firstScriptId
  · rw [← hd.slots]
    exact congrArg UInt32.toNat h.prepares.globalOffset

theorem Tallied.step (hd : d.Tallied modules) (h : Merges share total d m d' p cs)
    (hm : m.image.globals.Declared) : d'.Tallied (modules ++ [m]) := by
  obtain ⟨input, hinputs, hdescribes⟩ := hd.describes h
  have hlength := hd.length
  refine ⟨(h.declared hd.declared).1, ?_, ?_, ?_, ?_, ?_⟩
  · rw [hinputs, List.length_append, List.length_append, hlength]
    rfl
  · exact hinputs ▸ describes_concat hlength hd.inputs hdescribes
  · rw [h.scripts_length, hd.scripts, hinputs, List.map_append, List.sum_append,
      ← hdescribes.scripts]
    rfl
  · rw [h.code, List.length_append, hd.instructions, hinputs, List.map_append, List.sum_append,
      List.length_flatMap, h.lengths, ← hdescribes.instructions]
    rfl
  · rw [h.slots hd.declared hm, hd.slots, slotSum_append]
    rfl

/-- The figures still add up when more modules are merged. -/
theorem Tallied.run (hd : d.Tallied before)
    (hdeclared : ∀ m ∈ modules, m.image.globals.Declared)
    (hrun : mergeAll share total d modules = .ok e) : e.Tallied (before ++ modules) :=
  mergeAll_run (fun ms d => d.Tallied ms) (fun hmem hm hd => hd.step hm (hdeclared _ hmem)) hd hrun

end Draft

/-- The totals of a link, which are those of its image and the sums of its inputs. -/
structure LinkManifest.Totals (manifest : LinkManifest) (modules : List ObjectModule)
    (image : Image) : Prop where
  scripts : manifest.totalScripts = image.scripts.length
  instructions : manifest.totalInstructions = image.code.length
  slots : manifest.totalGlobalSlots = image.globals.slots
  bytes : manifest.dataBytesAfter = image.data.size
  scriptSum : manifest.totalScripts = (manifest.inputs.map LinkInput.scripts).sum
  instructionSum : manifest.totalInstructions = (manifest.inputs.map LinkInput.instructions).sum
  slotSum : manifest.totalGlobalSlots.toNat = slotSum modules
  byteSum : manifest.dataBytesBefore = (modules.map fun m => m.image.data.size).sum

theorem Draft.Tallied.totals {d : Draft} {modules : List ObjectModule} (h : d.Tallied modules)
    (debug : Bool) :
    (d.finish debug modules).manifest.Totals modules (d.finish debug modules).image := by
  refine ⟨rfl, rfl, rfl, rfl, h.scripts, h.instructions, h.slots, ?_⟩
  rw [List.sum_eq_foldl, List.foldl_map]
  rfl

/-- The id of a local variable behind all globals of all modules: as far above them as it was above
the boundary of its script. -/
structure ShiftedLocal (modules : List ObjectModule) (image : Image) (s : Script) (v id : UInt32) :
    Prop where
  distance : id.toNat = image.globals.slots.toNat + (v.toNat - s.boundary.toNat)
  above : ∀ m ∈ modules, ∀ w ∈ m.image.globals.vars, ∃ first,
    image.globals.find? w.name = .ok (some (first, w)) ∧ first.toNat + w.span.toNat ≤ id.toNat

/-- The slots of a variable do not lie past the last slot that is taken. -/
theorem GlobalTable.Consistent.last_slot_le {t : GlobalTable} (h : t.Consistent) {name : String}
    {first : UInt32} {v : GlobalVar} (hfound : t.find? name = .ok (some (first, v))) :
    first.toNat + v.span.toNat ≤ t.slots.toNat + 1 := by
  obtain ⟨i, hv, -, hfirst⟩ := find?_eq_some h hfound
  have hspan := slotsOf_take_succ hv
  have hle := slotsOf_take_le t.vars (i + 1)
  have hslots := h.slots
  omega

section

variable {options : LinkOptions} {modules : List ObjectModule} {linked : Linked}

/-- A link numbers all variables of all modules. -/
theorem exists_find?_of_link (h : link options modules = .ok linked) {m : ObjectModule}
    (hm : m ∈ modules) {v : GlobalVar} (hv : v ∈ m.image.globals.vars) :
    ∃ first, linked.image.globals.find? v.name = .ok (some (first, v)) := by
  obtain ⟨e, hmerged, rfl⟩ := merged_of_link h
  have hvars : e.globals.vars = allVars modules := hmerged.vars
  exact GlobalTable.exists_find? hmerged.sound.declared.consistent
    (hvars ▸ List.mem_flatMap.mpr ⟨m, hm, hv⟩)

theorem slots_of_link (hdeclared : ∀ m ∈ modules, m.image.globals.Declared)
    (h : link options modules = .ok linked) :
    linked.image.globals.slots.toNat = slotSum modules := by
  obtain ⟨e, hmerged, rfl⟩ := merged_of_link h
  have hvars : e.globals.vars = allVars modules := hmerged.vars
  rw [slotSum_eq hdeclared, ← hvars]
  exact hmerged.sound.declared.consistent.slots

theorem totalSlots_of_link (hdeclared : ∀ m ∈ modules, m.image.globals.Declared)
    (h : link options modules = .ok linked) :
    totalSlots modules = .ok linked.image.globals.slots := by
  obtain ⟨total, e, htotal, -⟩ := link_eq_ok_iff.mp h
  have hsum := totalSlots_eq_ok_iff.mp htotal
  have hslots := slots_of_link hdeclared h
  rw [htotal, UInt32.toNat_inj.mp (hsum.1.trans hslots.symm)]

end

namespace LinkedCopy

variable {options : LinkOptions} {modules : List ObjectModule} {linked : Linked} {i j : Nat}
  {m : ObjectModule} {s : Script} {r : Relocation} {run : List Instruction} {c : CopiedScript}

/-- The slots of the image are those of a module and those by which its locals are shifted. -/
theorem slots_eq (h : LinkedCopy modules linked.image i m j s r run c)
    (hdeclared : ∀ m ∈ modules, m.image.globals.Declared)
    (hlink : link options modules = .ok linked) :
    linked.image.globals.slots.toNat = m.image.globals.slots.toNat + r.localShift.toNat := by
  rw [slots_of_link hdeclared hlink, slotSum_eq hdeclared, h.fits.localShift]

/-- A script that knows all globals of its module knows all of the image. -/
theorem boundary_eq_slots (h : LinkedCopy modules linked.image i m j s r run c)
    (hdeclared : ∀ m ∈ modules, m.image.globals.Declared)
    (hlink : link options modules = .ok linked) (hs : s.boundary = m.image.globals.slots) :
    c.script.boundary = linked.image.globals.slots := by
  have hlt := linked.image.globals.slots.toNat_lt
  rw [h.boundary, hs, ← h.slots_eq hdeclared hlink]
  exact UInt32.toNat_inj.mp (Word.toNat_saturate (by omega))

/-- Its locals are shifted past all of them. -/
theorem shiftedLocal (h : LinkedCopy modules linked.image i m j s r run c)
    (hdeclared : ∀ m ∈ modules, m.image.globals.Declared)
    (hlink : link options modules = .ok linked) (hs : s.boundary = m.image.globals.slots)
    {v id : UInt32} (hv : s.boundary < v) (hid : r.NewId s.scope (.internal v) id) :
    ShiftedLocal modules linked.image s v id := by
  have hslots := h.slots_eq hdeclared hlink
  have hvnat := UInt32.lt_iff_toNat_lt.mp hv
  have hshift : id.toNat = v.toNat + r.localShift.toNat := by
    cases hid with
    | null => exact absurd rfl (Word.ne_zero_of_lt hv)
    | «local» _ _ hid => exact hid
    | global _ hle => exact absurd hv (UInt32.not_lt.mpr hle)
  have hdistance : id.toNat = linked.image.globals.slots.toNat +
      (v.toNat - s.boundary.toNat) := by
    rw [hs] at hvnat ⊢
    omega
  refine ⟨hdistance, fun m' hm' w hw => ?_⟩
  obtain ⟨first, hfound⟩ := exists_find?_of_link hlink hm' hw
  have hlast := h.declared.consistent.last_slot_le hfound
  exact ⟨first, hfound, by omega⟩

end LinkedCopy

namespace Sample

end Sample

end ScriptImage
