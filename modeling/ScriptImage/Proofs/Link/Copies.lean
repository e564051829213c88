import ScriptImage.Proofs.Link.Merging

/-!
Whole links. Every draft on the way is sound, and merging more modules only appends to it. So each
script of each module has its copy in the image, at the position that counts the scripts before
it, and its relocation still fits the image when all modules are merged.
-/

namespace ScriptImage

/-- The variables of modules in order. -/
def allVars (modules : List ObjectModule) : List GlobalVar :=
  modules.flatMap fun m => m.image.globals.vars

/-- The scripts of modules in order. -/
def allScripts (modules : List ObjectModule) : List Script :=
  modules.flatMap fun m => m.image.scripts

/-- The runs of the scripts of modules in order. -/
def allRuns (modules : List ObjectModule) : List (List Instruction) :=
  modules.flatMap fun m => m.image.scripts.map m.runOf

/-- The position in the image of script `j` of module `i`. -/
def copyIndex (modules : List ObjectModule) (i j : Nat) : Nat :=
  (allScripts (modules.take i)).length + j

/-- Where the code of script `j` of module `i` begins in the image. -/
def copyStart (modules : List ObjectModule) (i j : Nat) : Nat :=
  pieceStart id (allRuns modules) (copyIndex modules i j)

@[simp] theorem allVars_nil : allVars [] = [] := rfl

@[simp] theorem allVars_cons (m : ObjectModule) (ms : List ObjectModule) :
    allVars (m :: ms) = m.image.globals.vars ++ allVars ms := rfl

@[simp] theorem allScripts_nil : allScripts [] = [] := rfl

@[simp] theorem allScripts_cons (m : ObjectModule) (ms : List ObjectModule) :
    allScripts (m :: ms) = m.image.scripts ++ allScripts ms := rfl

@[simp] theorem allRuns_nil : allRuns [] = [] := rfl

@[simp] theorem allRuns_cons (m : ObjectModule) (ms : List ObjectModule) :
    allRuns (m :: ms) = m.image.scripts.map m.runOf ++ allRuns ms := rfl

/-- Every position below the number of all scripts is that of a script of a module. -/
theorem exists_copyIndex {modules : List ObjectModule} {n : Nat}
    (h : n < (allScripts modules).length) :
    ∃ i m j s, modules[i]? = some m ∧ m.image.scripts[j]? = some s ∧ n = copyIndex modules i j := by
  obtain ⟨i, m, j, hm, hs, hn⟩ := exists_piece (List.getElem?_eq_getElem h)
  exact ⟨i, m, j, _, hm, hs, hn⟩

namespace Draft

/-! ### Sound drafts -/

/-- What holds of a draft between two modules. -/
structure Sound (d : Draft) : Prop where
  declared : d.globals.Declared
  tiled : (runs d.code).flatten = d.code
  count : (runs d.code).length = d.scripts.length
  numbered : ∀ n s, d.scripts[n]? = some s → s.id.toNat = n + 1
  jumps : ∀ i ∈ d.code, ∀ a, i.operand = .address a → a.toNat < d.code.length
  autostart : ∀ r ∈ d.autostart, ∃ id, r = .internal id ∧ 0 < id.toNat ∧
    id.toNat ≤ d.scripts.length

theorem sound_empty : Sound {} :=
  ⟨.empty, rfl, rfl, by simp, by simp, by simp⟩

variable {share : Bool} {total : UInt32} {d d' : Draft} {m : ObjectModule} {p : Prepared}
  {cs : List CopiedScript}

namespace Merges

theorem scripts_length (h : Merges share total d m d' p cs) :
    d'.scripts.length = d.scripts.length + m.image.scripts.length := by
  rw [h.scripts, List.length_append, List.length_map, h.length]

/-- A script id found by relocation is the id of a script already in the draft. -/
theorem scriptId_range (h : Merges share total d m d' p cs) (hd : d.Sound) {s : SymbolRef}
    {id : UInt32} (hid : p.relocation.scriptId s = .ok id) :
    0 < id.toNat ∧ id.toNat ≤ d'.scripts.length := by
  have hlength := h.scripts_length
  unfold Relocation.scriptId at hid
  split at hid
  · split at hid
    · rename_i new hl
      cases hid
      have := h.prepares.scripts _ _ hl
      omega
    · cases hid
  · split at hid
    · rename_i n new hn
      cases hid
      obtain ⟨imported, -, hresolve⟩ := mapM_source h.prepares.importedScripts hn
      obtain ⟨found, hfound, -, rfl⟩ := resolveScript_eq_ok_iff.mp hresolve
      obtain ⟨k, hk⟩ := List.mem_iff_getElem?.mp (List.mem_of_find?_eq_some hfound)
      have hnumber := hd.numbered k found hk
      have := (List.getElem?_eq_some_iff.mp hk).1
      omega
    · cases hid

theorem numbered (h : Merges share total d m d' p cs) (hd : d.Sound) {n : Nat} {s : Script}
    (hs : d'.scripts[n]? = some s) : s.id.toNat = n + 1 := by
  rw [h.scripts] at hs
  rcases Nat.lt_or_ge n d.scripts.length with hlt | hge
  · rw [List.getElem?_append_left hlt] at hs
    exact hd.numbered n s hs
  · rw [List.getElem?_append_right hge, List.getElem?_map, Option.map_eq_some_iff] at hs
    obtain ⟨c, hc, rfl⟩ := hs
    obtain ⟨s, hs⟩ := h.source hc
    obtain ⟨c', run, hc', hid, -⟩ := h.copy hs
    rw [hc, Option.some.injEq] at hc'
    rw [hc', hid]
    omega

/-- A moved jump leads into the code with which its module ends. -/
theorem target_lt (h : Merges share total d m d' p cs) {c : CopiedScript} (hc : c ∈ cs)
    {moved : Moved} (hmoved : moved ∈ c.moved) {a : UInt32}
    (ha : moved.after.operand = .address a) : a.toNat < d'.code.length := by
  have hmem : (moved.oldAddress, a) ∈ (cs.flatMap CopiedScript.moved).filterMap Moved.jump? := by
    refine List.mem_filterMap.mpr ⟨moved, List.mem_flatMap.mpr ⟨c, hc, hmoved⟩, ?_⟩
    simp [Moved.jump?, ha]
  have hlt := UInt32.lt_iff_toNat_lt.mp (checkJumps_eq_ok_iff.mp h.jumps _ hmem)
  have hsat := Word.toNat_saturate_le d'.code.length
  exact hlt.trans_le hsat

/-- Only an instruction that is a jump by its own operand is one in the image. -/
theorem jump_inside (h : Merges share total d m d' p cs) (hd : d.Sound) {i : Instruction}
    (hi : i ∈ d'.code) {a : UInt32} (ha : i.operand = .address a) :
    a.toNat < d'.code.length := by
  rw [h.code] at hi
  rcases List.mem_append.mp hi with hi | hi
  · have hlt := hd.jumps i hi a ha
    have hle := (h.grows hd.declared).code.length_le
    omega
  · obtain ⟨c, hc, hi⟩ := List.mem_flatMap.mp hi
    obtain ⟨k, hk⟩ := List.mem_iff_getElem?.mp hi
    rw [CopiedScript.code, Moved.settle_getElem?, Option.map_eq_some_iff] at hk
    obtain ⟨moved, hmoved, rfl⟩ := hk
    refine h.target_lt hc (List.mem_of_getElem? hmoved) ?_
    -- an instruction that carries a variable id has a float, so this one kept its target
    cases hp : c.moved[k + 2]?.bind Moved.pairedId with
    | none => rwa [hp, Moved.settled_none] at ha
    | some id =>
        rw [hp, Moved.settled_some_operand] at ha
        cases ha

theorem autostart_range (h : Merges share total d m d' p cs) (hd : d.Sound) {r : SymbolRef}
    (hr : r ∈ d'.autostart) :
    ∃ id, r = .internal id ∧ 0 < id.toNat ∧ id.toNat ≤ d'.scripts.length := by
  obtain ⟨ids, hids, hauto⟩ := h.autostart
  rw [hauto] at hr
  rcases List.mem_append.mp hr with hr | hr
  · obtain ⟨id, hid, hpos, hle⟩ := hd.autostart r hr
    have := h.scripts_length
    exact ⟨id, hid, hpos, by omega⟩
  · obtain ⟨n, hn⟩ := List.mem_iff_getElem?.mp hr
    obtain ⟨r', -, hresolve⟩ := mapM_source hids hn
    obtain ⟨id, hid, rfl⟩ := resolveAutostart_eq_ok_iff.mp hresolve
    exact ⟨id, rfl, h.scriptId_range hd hid⟩

theorem sound (h : Merges share total d m d' p cs) (hd : d.Sound) : d'.Sound := by
  obtain ⟨hruns, htiled⟩ := h.runs_eq hd.tiled
  refine ⟨(h.declared hd.declared).1, htiled, ?_, fun n s => h.numbered hd,
    fun i hi a => h.jump_inside hd hi, fun r => h.autostart_range hd⟩
  rw [hruns, h.scripts, List.length_append, List.length_append, List.length_map,
    List.length_map, hd.count]

end Merges

/-! ### Merging modules in order -/

theorem mergeAll_nil_eq_ok {e : Draft} : mergeAll share total d [] = .ok e ↔ d = e :=
  pure_eq_ok

theorem mergeAll_cons_eq_ok {ms : List ObjectModule} {e : Draft} :
    mergeAll share total d (m :: ms) = .ok e ↔
      ∃ d', d.merge share total m = .ok d' ∧ mergeAll share total d' ms = .ok e := by
  unfold mergeAll
  simp [List.foldlM_cons]

/-- What each merged module preserves, all modules merged in order preserve. -/
theorem mergeAll_invariant (P : Draft → Prop) {modules : List ObjectModule} {e : Draft}
    (step : ∀ {b m b' p cs}, m ∈ modules → Merges share total b m b' p cs → P b → P b')
    (hd : P d) (h : mergeAll share total d modules = .ok e) : P e := by
  unfold mergeAll at h
  refine foldlM_invariant P ?_ hd h
  intro b m b' hmem hb hmerge
  obtain ⟨p, cs, hm⟩ := merges_of_merge (mapError_eq_ok.mp hmerge)
  exact step hmem hm hb

/-- What holds of a draft and the modules merged into it when each merged module is added to them
holds when all modules are merged. -/
theorem mergeAll_run (P : List ObjectModule → Draft → Prop) {before modules : List ObjectModule}
    {e : Draft} (step : ∀ {ms b m b' p cs}, m ∈ modules → Merges share total b m b' p cs → P ms b →
      P (ms ++ [m]) b')
    (hd : P before d) (h : mergeAll share total d modules = .ok e) : P (before ++ modules) e := by
  induction modules generalizing d before with
  | nil =>
      obtain rfl := mergeAll_nil_eq_ok.mp h
      rwa [List.append_nil]
  | cons m ms ih =>
      obtain ⟨d', hmerge, hrun⟩ := mergeAll_cons_eq_ok.mp h
      obtain ⟨p, cs, hm⟩ := merges_of_merge hmerge
      have hrest := ih (fun hmem => step (List.mem_cons_of_mem m hmem))
        (step List.mem_cons_self hm hd) hrun
      rwa [List.append_assoc, List.singleton_append] at hrest

/-- What merging modules in order leads to. -/
structure Merged (d : Draft) (modules : List ObjectModule) (e : Draft) : Prop where
  sound : e.Sound
  grows : Grows d e
  vars : e.globals.vars = d.globals.vars ++ allVars modules
  scripts : e.scripts.length = d.scripts.length + (allScripts modules).length
  heads : e.scripts.map Script.head = d.scripts.map Script.head ++
    (allScripts modules).map Script.head
  lengths : (runs e.code).map List.length = (runs d.code).map List.length ++
    (allRuns modules).map List.length

theorem Merged.refl (hd : d.Sound) : Merged d [] d :=
  ⟨hd, .refl d, by simp, by simp, by simp, by simp⟩

/-- One more module. -/
theorem Merged.step {c : Draft} {modules : List ObjectModule} (h : Merged c modules d)
    (hm : Merges share total d m d' p cs) : Merged c (modules ++ [m]) d' := by
  have hsound := h.sound
  have hvars : allVars (modules ++ [m]) = allVars modules ++ m.image.globals.vars := by
    simp [allVars]
  have hscripts : allScripts (modules ++ [m]) = allScripts modules ++ m.image.scripts := by
    simp [allScripts]
  have hruns : allRuns (modules ++ [m]) = allRuns modules ++ m.image.scripts.map m.runOf := by
    simp [allRuns]
  refine ⟨hm.sound hsound, h.grows.trans (hm.grows hsound.declared), ?_, ?_, ?_, ?_⟩
  · rw [(hm.declared hsound.declared).2, h.vars, hvars, List.append_assoc]
  · rw [hm.scripts_length, h.scripts, hscripts, List.length_append, Nat.add_assoc]
  · rw [hm.scripts, List.map_append, h.heads, hscripts, List.map_append, List.append_assoc,
      List.map_map, ← hm.heads]
    rfl
  · rw [(hm.runs_eq hsound.tiled).1, List.map_append, h.lengths, hruns, List.map_append,
      List.append_assoc, List.map_map, List.map_map]
    exact congrArg _ (congrArg _ hm.lengths)

/-- Any number of modules more. -/
theorem Merged.run {c e : Draft} {before modules : List ObjectModule} (h : Merged c before d)
    (hrun : mergeAll share total d modules = .ok e) : Merged c (before ++ modules) e :=
  mergeAll_run (Merged c) (fun _ hm h => h.step hm) h hrun

theorem merged_of_mergeAll {modules : List ObjectModule} {e : Draft} (hd : d.Sound)
    (h : mergeAll share total d modules = .ok e) : Merged d modules e :=
  (Merged.refl hd).run h

/-- A link seen from one of its modules: the draft before it, and the draft that holds it. -/
theorem mergeAll_split {modules : List ObjectModule} {e : Draft} {i : Nat}
    (h : mergeAll share total d modules = .ok e) (hm : modules[i]? = some m) :
    ∃ b a, mergeAll share total d (modules.take i) = .ok b ∧ b.merge share total m = .ok a ∧
      mergeAll share total a (modules.drop (i + 1)) = .ok e := by
  obtain ⟨hi, rfl⟩ := List.getElem?_eq_some_iff.mp hm
  rw [← List.take_append_drop i modules, List.drop_eq_getElem_cons hi] at h
  unfold mergeAll at h
  rw [List.foldlM_append, bind_eq_ok] at h
  obtain ⟨b, hb, h⟩ := h
  obtain ⟨a, ha, h⟩ := mergeAll_cons_eq_ok.mp h
  exact ⟨b, a, hb, ha, h⟩

/-- One module of a link: the drafts before and after it, and what merging it did. -/
structure Step (share : Bool) (total : UInt32) (modules : List ObjectModule) (e : Draft) (i : Nat)
    (m : ObjectModule) (b a : Draft) (p : Prepared) (cs : List CopiedScript) : Prop where
  module : modules[i]? = some m
  runBefore : mergeAll share total {} (modules.take i) = .ok b
  before : Merged {} (modules.take i) b
  merges : Merges share total b m a p cs
  runAfter : mergeAll share total a (modules.drop (i + 1)) = .ok e
  after : Merged a (modules.drop (i + 1)) e

theorem step_of_split {modules : List ObjectModule} {e b a : Draft} {i : Nat}
    (hm : modules[i]? = some m) (hb : mergeAll share total {} (modules.take i) = .ok b)
    (ha : b.merge share total m = .ok a)
    (hrest : mergeAll share total a (modules.drop (i + 1)) = .ok e) :
    ∃ p cs, Step share total modules e i m b a p cs := by
  obtain ⟨p, cs, hmerges⟩ := merges_of_merge ha
  have hbefore := merged_of_mergeAll sound_empty hb
  exact ⟨p, cs, hm, hb, hbefore, hmerges, hrest,
    merged_of_mergeAll (hmerges.sound hbefore.sound) hrest⟩

theorem exists_step {modules : List ObjectModule} {e : Draft} {i : Nat}
    (h : mergeAll share total {} modules = .ok e) (hm : modules[i]? = some m) :
    ∃ b a p cs, Step share total modules e i m b a p cs := by
  obtain ⟨b, a, hb, ha, hrest⟩ := mergeAll_split h hm
  exact ⟨b, a, step_of_split hm hb ha hrest⟩

theorem Step.scripts_length {modules : List ObjectModule} {e b a : Draft} {i : Nat}
    (h : Step share total modules e i m b a p cs) :
    b.scripts.length = (allScripts (modules.take i)).length := by
  rw [h.before.scripts]
  exact Nat.zero_add _

end Draft

/-! ### The image of a link -/

/-- The slots that modules take together. -/
def slotSum (modules : List ObjectModule) : Nat :=
  (modules.map fun m => m.image.globals.slots.toNat).sum

theorem slotSum_append (ms rest : List ObjectModule) :
    slotSum (ms ++ rest) = slotSum ms + slotSum rest := by
  simp [slotSum]

theorem foldlM_slots_eq_ok_iff {modules : List ObjectModule} {sum total : UInt32}
    (hsum : sum.toNat ≤ maxSlot) :
    (modules.foldlM (fun total m =>
      let sum := total.toNat + m.image.globals.slots.toNat
      if sum ≤ maxSlot then Except.ok (UInt32.ofNat sum)
      else Except.error (LinkFailure.refused ⟨m.name, .tooManyGlobals⟩)) sum) = .ok total ↔
        total.toNat = sum.toNat + slotSum modules ∧ total.toNat ≤ maxSlot := by
  induction modules generalizing sum with
  | nil =>
      rw [List.foldlM_nil, pure_eq_ok, ← UInt32.toNat_inj]
      change _ ↔ _ = sum.toNat + 0 ∧ _
      omega
  | cons m ms ih =>
      rw [List.foldlM_cons, bind_eq_ok]
      have hmax : maxSlot = 0x7FFFFFFF := rfl
      have hcons : slotSum (m :: ms) = m.image.globals.slots.toNat + slotSum ms := rfl
      simp only
      split
      · rename_i hle
        have hnat := Word.toNat_ofNat
          (n := sum.toNat + m.image.globals.slots.toNat) (by omega)
        simp only [Except.ok.injEq, exists_eq_left']
        rw [ih (by omega), hnat, hcons, Nat.add_assoc]
      · simp only [reduceCtorEq, false_and, exists_false, false_iff, not_and]
        omega

/-- The slots of all modules are summed while they stay below the last one. -/
theorem totalSlots_eq_ok_iff {modules : List ObjectModule} {total : UInt32} :
    totalSlots modules = .ok total ↔ total.toNat = slotSum modules ∧ total.toNat ≤ maxSlot := by
  have h := @foldlM_slots_eq_ok_iff modules 0 total (by decide)
  rwa [UInt32.toNat_zero, Nat.zero_add] at h

theorem slots_le_of_totalSlots {modules : List ObjectModule} {total : UInt32}
    (h : totalSlots modules = .ok total) {m : ObjectModule} (hm : m ∈ modules) :
    m.image.globals.slots ≤ total := by
  rw [UInt32.le_iff_toNat_le, (totalSlots_eq_ok_iff.mp h).1]
  exact List.le_sum_of_mem (List.mem_map_of_mem hm)

theorem slotSum_eq {modules : List ObjectModule}
    (hdeclared : ∀ m ∈ modules, m.image.globals.Declared) :
    slotSum modules = slotsOf (allVars modules) := by
  induction modules with
  | nil => rfl
  | cons m ms ih =>
      have hslots := (hdeclared m List.mem_cons_self).consistent.slots
      have hrest := ih fun m' hm' => hdeclared m' (List.mem_cons_of_mem _ hm')
      rw [allVars_cons, slotsOf_append, ← hslots, ← hrest]
      rfl

/-- The slots of all modules are those of all their variables. -/
theorem totalSlots_ok {modules : List ObjectModule} {total : UInt32}
    (hdeclared : ∀ m ∈ modules, m.image.globals.Declared)
    (h : totalSlots modules = .ok total) :
    total.toNat = slotsOf (allVars modules) ∧ total.toNat ≤ maxSlot :=
  slotSum_eq hdeclared ▸ totalSlots_eq_ok_iff.mp h

theorem link_eq_ok_iff {options : LinkOptions} {modules : List ObjectModule} {linked : Linked} :
    link options modules = .ok linked ↔
      ∃ total d, totalSlots modules = .ok total ∧
        mergeAll options.sharedTexts total {} modules = .ok d ∧
          d.finish options.debugMetadata modules = linked := by
  simp only [link, bind_eq_ok, pure_eq_ok]
  constructor
  · rintro ⟨total, htotal, d, hd, rfl⟩
    exact ⟨total, d, htotal, hd, rfl⟩
  · rintro ⟨total, d, htotal, hd, rfl⟩
    exact ⟨total, htotal, d, hd, rfl⟩

/-- The relocation of module `i`, as the image of the whole link reads it. -/
structure Relocation.Fits (r : Relocation) (modules : List ObjectModule) (i : Nat)
    (m : ObjectModule) (image : Image) : Prop where
  slots : r.slots = m.image.globals.slots
  globalOffset : r.globalOffset.toNat = slotsOf (allVars (modules.take i))
  localShift : slotsOf (allVars modules) = m.image.globals.slots.toNat + r.localShift.toNat
  globalOffset_le : r.globalOffset.toNat ≤ r.localShift.toNat
  globals : ∀ v id : UInt32, v ≠ 0 → v ≤ m.image.globals.slots →
    id.toNat = v.toNat + r.globalOffset.toNat →
      image.globals.bySlot? id = m.image.globals.bySlot? v
  imported : ∀ (n : Nat) (id : UInt32), r.importedVars[n]? = some id →
    ∃ v w, m.importedVars[n]? = some v ∧ w ∈ allVars (modules.take i) ∧ w.name = v.name ∧
      id ≤ r.globalOffset ∧ image.globals.bySlot? id = some (w, v.index)
  scripts : ∀ s id, r.scriptId s = .ok id → 0 < id.toNat ∧ id.toNat ≤ image.scripts.length

/-- The copy of a script in the image of a link. -/
structure LinkedCopy (modules : List ObjectModule) (image : Image) (i : Nat) (m : ObjectModule)
    (j : Nat) (s : Script) (r : Relocation) (run : List Instruction) (c : CopiedScript) :
    Prop where
  module : modules[i]? = some m
  source : m.image.scripts[j]? = some s
  closed : m.image.scriptCode? s = some run
  moved : r.moveRun m.textPushes s c.script.address run = .ok c.moved
  script : c.script = { s with
    id := c.script.id
    boundary := Word.saturate (s.boundary.toNat + r.localShift.toNat)
    address := c.script.address }
  standsFor : image.StandsFor (copyIndex modules i j) c.script c.code
  declared : image.globals.Declared
  fits : r.Fits modules i m image

namespace LinkedCopy

variable {modules : List ObjectModule} {image : Image} {i j : Nat} {m : ObjectModule} {s : Script}
  {r : Relocation} {run : List Instruction} {c : CopiedScript}

theorem module_mem (h : LinkedCopy modules image i m j s r run c) : m ∈ modules :=
  List.mem_of_getElem? h.module

theorem boundary (h : LinkedCopy modules image i m j s r run c) :
    c.script.boundary = Word.saturate (s.boundary.toNat + r.localShift.toNat) := by
  rw [h.script]

theorem locals (h : LinkedCopy modules image i m j s r run c) : c.script.locals = s.locals := by
  rw [h.script]

theorem name (h : LinkedCopy modules image i m j s r run c) : c.script.name = s.name := by
  rw [h.script]

theorem becomes (h : LinkedCopy modules image i m j s r run c) {k : Nat} {ins : Instruction}
    (hk : run[k]? = some ins) :
    ∃ ins', c.code[k]? = some ins' ∧ r.Becomes s c.script.address ins ins' :=
  Relocation.becomes_of_moveRun h.moved hk

/-- An instruction of a copy comes from the one at the same position of the script. -/
theorem origin (h : LinkedCopy modules image i m j s r run c) {k : Nat} {ins' : Instruction}
    (hk : c.code[k]? = some ins') :
    ∃ ins, run[k]? = some ins ∧ r.Becomes s c.script.address ins ins' := by
  have hlt := (List.getElem?_eq_some_iff.mp hk).1
  rw [CopiedScript.code_length, Relocation.moveRun_length h.moved] at hlt
  obtain ⟨ins'', hk', hbecomes⟩ := h.becomes (List.getElem?_eq_getElem hlt)
  rw [hk, Option.some.injEq] at hk'
  exact ⟨_, List.getElem?_eq_getElem hlt, hk' ▸ hbecomes⟩

end LinkedCopy

theorem allVars_split {modules : List ObjectModule} {i : Nat} {m : ObjectModule}
    (h : modules[i]? = some m) :
    allVars modules = allVars (modules.take i) ++ (m.image.globals.vars ++
      allVars (modules.drop (i + 1))) :=
  flatMap_eq_append h

namespace Draft.Merges

variable {share : Bool} {total : UInt32} {d d' e : Draft} {m : ObjectModule} {p : Prepared}
  {cs : List CopiedScript} {later : List ObjectModule}

/-- Later modules leave a copy where it is. -/
theorem standsFor (h : Merges share total d m d' p cs) (hd : d.Sound) (hlater : Merged d' later e)
    (debug : Bool) {j : Nat} {c : CopiedScript} (hc : cs[j]? = some c)
    (haddress : c.script.address =
      Word.saturate (d.code.length + pieceStart CopiedScript.code cs j)) :
    (e.toImage debug).StandsFor (d.scripts.length + j) c.script c.code := by
  obtain ⟨rest, hrest⟩ := hlater.grows.code
  obtain ⟨scripts, hscripts⟩ := hlater.grows.scripts
  obtain ⟨hruns, htiled⟩ := h.runs_eq hd.tiled
  have hj := (List.getElem?_eq_some_iff.mp hc).1
  refine ⟨?_, ?_, ?_⟩
  · change e.scripts[_]? = _
    rw [← hscripts, h.scripts, List.append_assoc, List.getElem?_append_right (by omega),
      Nat.add_sub_cancel_left, List.getElem?_append_left (by simpa using hj), List.getElem?_map, hc]
    rfl
  · change (runs e.code)[_]? = _
    rw [← hrest, runs_append_right htiled, hruns, List.append_assoc, ← hd.count,
      List.getElem?_append_right (by omega), Nat.add_sub_cancel_left,
      List.getElem?_append_left (by simpa using hj), List.getElem?_map, hc]
    rfl
  · -- the address was not cut off, and dropping up to it leaves the copy in front
    intro hsmall
    have hpiece := pieceStart_add_length_le (f := CopiedScript.code) hc
    have hlength := congrArg List.length hrest
    have hlength' := congrArg List.length h.code
    rw [List.length_append] at hlength hlength'
    change e.code.length < _ at hsmall
    change closedRun? (e.code.drop c.script.address.toNat) = _
    rw [haddress, Word.toNat_saturate (by omega), ← hrest, h.code, List.append_assoc,
      ← List.drop_drop, List.drop_left, List.drop_append_of_le_length (by omega),
      drop_pieceStart hc, List.append_assoc]
    exact closedRun?_append (h.closed (List.mem_of_getElem? hc)) _

/-- What relocation has found among earlier modules is found in the image of all. -/
theorem fits (h : Merges share total d m d' p cs) (hd : d.Sound) (hlater : Merged d' later e)
    (debug : Bool) (hm : m.image.globals.Declared) {modules : List ObjectModule} {i : Nat}
    (hi : modules[i]? = some m) (hvars : d.globals.vars = allVars (modules.take i))
    (htotal : total.toNat = slotsOf (allVars modules)) :
    p.relocation.Fits modules i m (e.toImage debug) := by
  have hconsistent := hd.declared.consistent
  have hprefix : d.globals.vars ++ m.image.globals.vars <+: e.globals.vars :=
    (h.declared hd.declared).2 ▸ hlater.grows.globals
  have hfinal := hlater.sound.declared.consistent
  have hshift := h.prepares.localShift
  have hoffset := h.prepares.globalOffset
  have hslots : d.globals.slots.toNat = slotsOf (allVars (modules.take i)) := by
    rw [hconsistent.slots, hvars]
  refine ⟨h.prepares.slots, by rw [hoffset, hslots], by rw [← htotal, hshift], ?_, ?_, ?_, ?_⟩
  · have hsplit := congrArg slotsOf (allVars_split hi)
    have hown := hm.consistent.slots
    rw [slotsOf_append, slotsOf_append] at hsplit
    rw [hoffset]
    omega
  · intro v id h0 hle hid
    rw [hoffset] at hid
    exact GlobalTable.bySlot?_of_shift hconsistent hm.consistent hfinal hprefix h0 hle hid
  · intro n id hid
    obtain ⟨v, hv, hresolve⟩ := mapM_source h.prepares.importedVars hid
    obtain ⟨w, hw, hname, -, hle, hslot⟩ := resolveVar_ok hconsistent hresolve
    refine ⟨v, w, hv, hvars ▸ hw, hname, hoffset ▸ hle, ?_⟩
    rw [← hslot]
    exact GlobalTable.bySlot?_of_extends hconsistent hfinal
      ((List.prefix_append _ _).trans hprefix) hle
  · intro s id hid
    obtain ⟨hpos, hle⟩ := h.scriptId_range hd hid
    exact ⟨hpos, hle.trans hlater.grows.scripts.length_le⟩

end Draft.Merges

section

variable {options : LinkOptions} {modules : List ObjectModule} {linked : Linked}

/-- The last draft of a link holds all variables and scripts. -/
theorem merged_of_link (h : link options modules = .ok linked) :
    ∃ e, Draft.Merged {} modules e ∧ linked = e.finish options.debugMetadata modules := by
  obtain ⟨total, e, -, he, rfl⟩ := link_eq_ok_iff.mp h
  exact ⟨e, Draft.merged_of_mergeAll Draft.sound_empty he, rfl⟩

/-- An image whose code is tiled by the runs of its scripts, and whose ids and jumps lead
somewhere. -/
structure Image.Sound (m : Image) : Prop where
  declared : m.globals.Declared
  tiled : (runs m.code).flatten = m.code
  count : (runs m.code).length = m.scripts.length
  numbered : ∀ n s, m.scripts[n]? = some s → s.id.toNat = n + 1
  jumps : ∀ i ∈ m.code, ∀ a, i.operand = .address a → a.toNat < m.code.length
  autostart : ∀ r ∈ m.autostart, ∃ id, r = .internal id ∧ 0 < id.toNat ∧
    id.toNat ≤ m.scripts.length

theorem Draft.Sound.toImage {d : Draft} (h : d.Sound) (debug : Bool) : (d.toImage debug).Sound :=
  ⟨h.declared, h.tiled, h.count, h.numbered, h.jumps, h.autostart⟩

theorem sound_of_link (h : link options modules = .ok linked) : linked.image.Sound := by
  obtain ⟨e, hmerged, rfl⟩ := merged_of_link h
  exact hmerged.sound.toImage options.debugMetadata

/-- A copy with the relocation of its module, as the image reads them. -/
theorem Draft.Step.linkedCopy {share debug : Bool} {total : UInt32} {e b a : Draft}
    {i j start : Nat} {m : ObjectModule} {p : Prepared} {cs : List CopiedScript} {s : Script}
    {run : List Instruction} {c : CopiedScript} (h : Step share total modules e i m b a p cs)
    (hdeclared : ∀ m ∈ modules, m.image.globals.Declared)
    (htotal : totalSlots modules = .ok total) (hs : m.image.scripts[j]? = some s)
    (hc : Copied p.relocation m s start run c)
    (hstands : (e.toImage debug).StandsFor (copyIndex modules i j) c.script c.code) :
    LinkedCopy modules (e.toImage debug) i m j s p.relocation run c := by
  have hmem := List.mem_of_getElem? h.module
  refine ⟨h.module, hs, hc.closed, ?_, ?_, hstands, h.after.sound.declared, ?_⟩
  · rw [hc.address]
    exact hc.moved
  · rw [hc.address]
    exact hc.script
  · exact h.merges.fits h.before.sound h.after debug (hdeclared m hmem) h.module h.before.vars
      (totalSlots_ok hdeclared htotal).1

/-- Every script of every module has its copy. -/
theorem linkedCopy (hdeclared : ∀ m ∈ modules, m.image.globals.Declared)
    (h : link options modules = .ok linked) {i j : Nat} {m : ObjectModule} {s : Script}
    (hm : modules[i]? = some m) (hs : m.image.scripts[j]? = some s) :
    ∃ r run c, LinkedCopy modules linked.image i m j s r run c := by
  obtain ⟨total, e, htotal, he, rfl⟩ := link_eq_ok_iff.mp h
  obtain ⟨b, a, p, cs, hstep⟩ := Draft.exists_step he hm
  obtain ⟨c, run, hc, -, hcopied⟩ := hstep.merges.copy hs
  have hstands := hstep.merges.standsFor hstep.before.sound hstep.after options.debugMetadata hc
    hcopied.address
  rw [hstep.scripts_length] at hstands
  exact ⟨p.relocation, run, c, hstep.linkedCopy hdeclared htotal hs hcopied hstands⟩

/-- Every script of a linked image is the copy of a script of a module. -/
theorem exists_linkedCopy (hdeclared : ∀ m ∈ modules, m.image.globals.Declared)
    (h : link options modules = .ok linked) {n : Nat} {s' : Script}
    (hs : linked.image.scripts[n]? = some s') :
    ∃ i m j s r run c, LinkedCopy modules linked.image i m j s r run c ∧
      n = copyIndex modules i j ∧ s' = c.script := by
  obtain ⟨e, hmerged, rfl⟩ := merged_of_link h
  have hlt : n < (allScripts modules).length := by
    have hn : n < e.scripts.length := (List.getElem?_eq_some_iff.mp hs).1
    rw [hmerged.scripts] at hn
    exact Nat.zero_add (allScripts modules).length ▸ hn
  obtain ⟨i, m, j, s, hm, hj, rfl⟩ := exists_copyIndex hlt
  obtain ⟨r, run, c, hcopy⟩ := linkedCopy hdeclared h hm hj
  have hat := hcopy.standsFor.scriptAt
  rw [hs, Option.some.injEq] at hat
  exact ⟨i, m, j, s, r, run, c, hcopy, rfl, hat⟩

/-- Every instruction of a linked image stands in the copy of a script. -/
theorem exists_copy_at (hdeclared : ∀ m ∈ modules, m.image.globals.Declared)
    (h : link options modules = .ok linked) {pc : Nat} {ins : Instruction}
    (hpc : linked.image.code[pc]? = some ins) :
    ∃ i m j s r run c k, LinkedCopy modules linked.image i m j s r run c ∧
      c.code[k]? = some ins ∧
        pc = pieceStart id (runs linked.image.code) (copyIndex modules i j) + k := by
  have hsound := sound_of_link h
  have htiled : linked.image.code = (runs linked.image.code).flatMap id := by
    rw [List.flatMap_id, hsound.tiled]
  rw [htiled] at hpc
  obtain ⟨n, run', k, hn, hk, hpc⟩ := exists_piece hpc
  -- there are as many runs as scripts, so this run belongs to a script
  have hlt := (List.getElem?_eq_some_iff.mp hn).1
  rw [hsound.count] at hlt
  obtain ⟨i, m, j, s, r, run, c, hcopy, rfl, -⟩ :=
    exists_linkedCopy hdeclared h (List.getElem?_eq_getElem hlt)
  have hat := hcopy.standsFor.runAt
  rw [hn, Option.some.injEq] at hat
  subst hat
  exact ⟨i, m, j, s, r, run, c, k, hcopy, hk, hpc⟩

theorem exists_copied_instruction (hdeclared : ∀ m ∈ modules, m.image.globals.Declared)
    (h : link options modules = .ok linked) {pc : Nat} {ins : Instruction}
    (hpc : linked.image.code[pc]? = some ins) :
    ∃ i m j s r run c k start, LinkedCopy modules linked.image i m j s r run c ∧
      c.code[k]? = some ins ∧ pc = start + k ∧
      ∀ l < c.code.length, linked.image.code[start + l]? = c.code[l]? := by
  obtain ⟨i, m, j, s, r, run, c, k, hcopy, hk, rfl⟩ := exists_copy_at hdeclared h hpc
  refine ⟨i, m, j, s, r, run, c, k, _, hcopy, hk, rfl, ?_⟩
  intro l hl
  have hget := getElem?_pieceStart_add (f := id) hcopy.standsFor.runAt hl
  rwa [List.flatMap_id, (sound_of_link h).tiled] at hget

end

/-! ### A link of two modules -/

namespace Sample

def table : ObjectModule where
  name := "table"
  image := { globals := { entries := [("cells", ⟨"cells", 3⟩)], starts := [1], slots := 3 } }

def main : Script where
  id := 1
  name := "main"
  params := 0
  boundary := 1
  locals := ["copy"]
  address := 0
  source := "main.txt"

/-- Writes a global of its own through a reference, then copies an imported one to a local. -/
def reader : ObjectModule where
  name := "reader"
  image := {
    globals := { entries := [("own", ⟨"own", 1⟩)], starts := [1], slots := 1 }
    scripts := [main]
    code := [.pushVarId (.internal 1), .pushInt 7, .byReference .store, .load (.external 0),
      .store (.internal 2), .endRun] }
  importedVars := [⟨"cells", 2⟩]

def modules : List ObjectModule := [table, reader]

theorem table_declared : table.image.globals.Declared := by
  have h : GlobalTable.empty.declare ⟨"cells", 3⟩ = .ok (1, table.image.globals) := by decide
  exact .declare .empty h

theorem reader_declared : reader.image.globals.Declared := by
  have h : GlobalTable.empty.declare ⟨"own", 1⟩ = .ok (1, reader.image.globals) := by decide
  exact .declare .empty h

theorem declared : ∀ m ∈ modules, m.image.globals.Declared := by
  simp [modules, table_declared, reader_declared]

theorem scriptCode?_main : reader.image.scriptCode? main = some reader.image.code := rfl

/-- The link succeeds, with an image of these sizes. -/
theorem exists_linked : ∃ linked, link {} modules = .ok linked ∧ linked.image.code.length = 6 ∧
    linked.image.data.size = 0 ∧ linked.image.autostart = [] ∧ linked.image.inits.length = 1 :=
  exists_ok (by decide +kernel)

end Sample

end ScriptImage
