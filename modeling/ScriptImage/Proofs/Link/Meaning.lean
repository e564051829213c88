import ScriptImage.Proofs.Checks
import ScriptImage.Proofs.Link.Relinking
import ScriptImage.Proofs.Link.TextPushes

/-!
What an operand stands for. A module tells it by names, texts and distances, none of which depend
on the modules it is linked with. Wherever a link puts the instruction, its new operand stands for
the same in the image.
-/

namespace ScriptImage

/-- What an operand stands for, apart from where its instruction stands. -/
inductive Meaning where
  | value (operand : Operand)
  | jump (distance : Int)
  | script (name : String)
  | variable (name : VarName)
  /-- The variable that a float carries for a reference. -/
  | carried (name : VarName)
  | text (bytes : List UInt8)
  deriving DecidableEq, Repr

namespace ObjectModule

/-- The name of the script that a reference leads to; of scripts with one id it is the last. -/
def scriptName? (m : ObjectModule) : SymbolRef → Option String
  | .internal id => (m.image.scripts.reverse.find? fun t => t.id == id).map Script.name
  | .external p => m.importedScripts[p.toNat]?.map ImportedScript.name

/-- The bytes of the text that starts at an offset. -/
def textAt? (m : ObjectModule) (offset : Int32) : Option (List UInt8) := do
  let e ← m.image.data.entryAt? offset.toUInt32
  (m.image.data.bytesOf e).toOption

/-- What the operand of the instruction at position `k` of a run of a script stands for. -/
def operandMeaning? (m : ObjectModule) (s : Script) (run : List Instruction) (k : Nat)
    (i : Instruction) : Option Meaning :=
  match i.operand with
  | .address a => some (.jump (a.toNat - s.address.toNat))
  | .script r => (m.scriptName? r).map .script
  | .variable v => (m.meaning? s v).map .variable
  | .int v =>
    if i.opcode = .push ∧ ∃ a ∈ m.textPushes, a.toNat = s.address.toNat + k then
      (m.textAt? v).map .text
    else some (.value i.operand)
  | .float _ =>
    if feedsReference (run.drop k) then (i.floatVariable?.bind (m.meaning? s)).map .carried
    else some (.value i.operand)
  | o => some (.value o)

end ObjectModule

/-- What the operand of an instruction of a script stands for in an image. An integer may be read as
itself or as the offset of a text; `feeds` tells whether a reference takes its variable from the
instruction. -/
inductive Image.Means (image : Image) (s : Script) (feeds : Bool) (i : Instruction) :
    Meaning → Prop
  | value {o : Operand} : i.operand = o → o.IsValue → (feeds = true → ∀ x, o ≠ .float x) →
      Means image s feeds i (.value o)
  | jump {a : UInt32} {distance : Int} : i.operand = .address a →
      (a.toNat : Int) - s.address.toNat = distance → Means image s feeds i (.jump distance)
  | script {r : SymbolRef} {name : String} : i.operand = .script r →
      image.scriptName? r = some name → Means image s feeds i (.script name)
  | variable {r : SymbolRef} {name : VarName} : i.operand = .variable r →
      image.refName? s r = some name → Means image s feeds i (.variable name)
  | carried {x : Binary32} {name : VarName} : feeds = true → i.operand = .float x →
      image.floatVarName? s i = some name → Means image s feeds i (.carried name)
  | text {w : Int32} {t : List UInt8} : i.operand = .int w → image.data.Holds w t →
      Means image s feeds i (.text t)

/-! ### Names of scripts -/

/-- The name of a numbered script. -/
theorem Image.Sound.scriptName? {image : Image} (h : image.Sound) {n : Nat} {s : Script}
    {id : UInt32} (hs : image.scripts[n]? = some s) (hid : id.toNat = n + 1) :
    image.scriptName? (.internal id) = some s.name := by
  rw [Image.scriptName?_of_numbered h.numbered hid, hs, Option.map_some]

namespace Draft

variable {share : Bool} {total : UInt32} {modules : List ObjectModule} {e b a : Draft} {i : Nat}
  {m : ObjectModule} {p : Prepared} {cs : List CopiedScript}

/-- The scripts before a module keep their heads and places in the image. -/
theorem Step.script_before (h : Step share total modules e i m b a p cs) (debug : Bool) {n : Nat}
    {t : Script} (ht : (allScripts (modules.take i))[n]? = some t) :
    ∃ s', (e.toImage debug).scripts[n]? = some s' ∧ s'.head = t.head := by
  have hheads : (b.scripts.map Script.head)[n]? = some t.head := by
    rw [h.before.heads]
    change ((allScripts (modules.take i)).map Script.head)[n]? = _
    rw [List.getElem?_map, ht, Option.map_some]
  rw [List.getElem?_map, Option.map_eq_some_iff] at hheads
  obtain ⟨s', hs', hhead⟩ := hheads
  obtain ⟨rest, hrest⟩ := ((h.merges.grows h.before.sound.declared).trans h.after.grows).scripts
  refine ⟨s', ?_, hhead⟩
  change e.scripts[n]? = _
  rw [← hrest, List.getElem?_append_left (List.getElem?_eq_some_iff.mp hs').1, hs']

/-- The new id of a script has in the image the name that the reference has in the module. -/
theorem Step.scriptName? (h : Step share total modules e i m b a p cs) (debug : Bool)
    {r : SymbolRef} {new : UInt32} (hid : p.relocation.scriptId r = .ok new) :
    ∃ name, m.scriptName? r = some name ∧
      (e.toImage debug).scriptName? (.internal new) = some name := by
  have hsound := h.after.sound.toImage debug
  cases r with
  | internal id =>
      obtain ⟨j, t, ht, -, hlast, hnew⟩ := h.merges.scriptId_internal hid
      obtain ⟨c, run, -, hcopied, hstands⟩ := h.copy debug ht
      have hname : c.script.name = t.name := by rw [hcopied.script]
      rw [h.scripts_length] at hnew
      refine ⟨t.name, ?_, ?_⟩
      · rw [ObjectModule.scriptName?, hlast, Option.map_some]
      · rw [hsound.scriptName? hstands.scriptAt hnew, hname]
  | external q =>
      obtain ⟨v, n, t, hv, hn, ht, -, hnew⟩ := h.scriptId_external hid
      obtain ⟨s', hat, hhead⟩ := h.script_before debug ht
      obtain ⟨hlt, hname, -⟩ := List.findIdx?_eq_some_iff_getElem.mp hn
      rw [List.getElem?_eq_getElem hlt, Option.some.injEq] at ht
      rw [ht] at hname
      refine ⟨v.name, ?_, ?_⟩
      · rw [ObjectModule.scriptName?, hv, Option.map_some]
      · rw [hsound.scriptName? hat hnew, ← beq_iff_eq.mp hname]
        exact congrArg (fun head : ScriptHead => some head.name) hhead

end Draft

/-! ### References -/

@[simp] theorem feedsReference_drop_iff {run : List Instruction} {k : Nat} :
    feedsReference (run.drop k) = true ↔ FeedsReference run k := by
  simp [feedsReference, FeedsReference, List.getElem?_drop, Option.any_eq_true]

namespace ObjectModule

variable {m : ObjectModule} {s : Script} {run : List Instruction} {k : Nat} {i : Instruction}

theorem operandMeaning?_text (h : m.PushesText s k i) {v : Int32} (hv : i.operand = .int v) :
    m.operandMeaning? s run k i = (m.textAt? v).map .text := by
  rw [operandMeaning?, hv]
  exact if_pos ⟨h.1, h.2.2⟩

theorem operandMeaning?_carried (h : FeedsReference run k) {v : SymbolRef}
    (hv : i.floatVariable? = some v) :
    m.operandMeaning? s run k i = (m.meaning? s v).map .carried := by
  obtain ⟨-, x, hx⟩ := Instruction.opcode_of_floatVariable? hv
  rw [operandMeaning?, hx, hv]
  exact if_pos (feedsReference_drop_iff.mpr h)

theorem operandMeaning?_value (h : i.operand.IsValue) (htext : ¬ m.PushesText s k i)
    (hfeeds : ¬ FeedsReference run k) :
    m.operandMeaning? s run k i = some (.value i.operand) := by
  cases ho : i.operand with
  | none => rw [operandMeaning?, ho]
  | bool v => rw [operandMeaning?, ho]
  | int v =>
      rw [operandMeaning?, ho]
      exact if_neg fun hmarked => htext ⟨hmarked.1, ⟨v, ho⟩, hmarked.2⟩
  | float x =>
      rw [operandMeaning?, ho]
      exact if_neg (feedsReference_drop_iff.not.mpr hfeeds)
  | address => rw [ho] at h; exact h.elim
  | script => rw [ho] at h; exact h.elim
  | «variable» => rw [ho] at h; exact h.elim

end ObjectModule

theorem Relocation.Becomes.isReference {r : Relocation} {s : Script} {newStart : UInt32}
    {i ins : Instruction} (h : r.Becomes s newStart i ins) : ins.isReference = i.isReference := by
  rw [h.eq]
  rfl

/-- A copy takes variables for its references from the same positions. -/
theorem Relocation.feedsReference_settle {r : Relocation} {textPushes : List UInt32} {s : Script}
    {newStart : UInt32} {run : List Instruction} {ms : List Moved}
    (h : r.moveRun textPushes s newStart run = .ok ms) (k : Nat) :
    feedsReference ((Moved.settle ms).drop k) = feedsReference (run.drop k) := by
  simp only [feedsReference, List.getElem?_drop]
  cases hins : run[k + 2]? with
  | none =>
      rw [List.getElem?_eq_none_iff, ← moveRun_length h, ← Moved.settle_length,
        ← List.getElem?_eq_none_iff] at hins
      rw [hins]
  | some ins =>
      obtain ⟨ins', hins', hbecomes⟩ := becomes_of_moveRun h hins
      rw [hins', Option.any_some, Option.any_some, hbecomes.isReference]

namespace Draft

variable {share : Bool} {total : UInt32} {modules : List ObjectModule} {e b a : Draft} {i : Nat}
  {m : ObjectModule} {p : Prepared} {cs : List CopiedScript}

/-- No run begins with a reference, because none takes its variable from another script. -/
theorem head_of_run (h : mergeAll share total {} modules = .ok e) {n : Nat}
    {run : List Instruction} (hn : (runs e.code)[n]? = some run) :
    ∃ ins, run[0]? = some ins ∧ ins.isReference = false := by
  obtain ⟨i, j, m, b, a, p, cs, s, source, c, hstep, hs, hcopied, rfl, rfl⟩ :=
    exists_copy_of_run h hn
  have hpos := length_pos_of_closedRun? hcopied.closed
  have hfirst := List.getElem?_eq_getElem hpos
  obtain ⟨ins, hins, hbecomes⟩ := Relocation.becomes_of_moveRun hcopied.moved hfirst
  refine ⟨ins, hins, Bool.eq_false_iff.mpr fun href => ?_⟩
  rw [hbecomes.isReference] at href
  have hearlier := (Relocation.paired_of_moveRun hcopied.moved hfirst href).1
  omega

/-- Up to its END a run takes variables for its references from the same positions, whether it is
read alone or in the code. -/
theorem feedsReference_code (h : mergeAll share total {} modules = .ok e) {n k : Nat}
    {run : List Instruction} (hn : (runs e.code)[n]? = some run) (hk : k + 1 < run.length) :
    feedsReference (e.code.drop (pieceStart id (runs e.code) n + k)) =
      feedsReference (run.drop k) := by
  have hsound := (merged_of_mergeAll sound_empty h).sound.toImage false
  have hcode : (runs e.code).flatMap id = e.code := by
    rw [List.flatMap_id]
    exact hsound.tiled
  simp only [feedsReference, List.getElem?_drop, Nat.add_assoc]
  rcases Nat.lt_or_ge (k + 2) run.length with hlt | hge
  · have hat : e.code[pieceStart id (runs e.code) n + (k + 2)]? = run[k + 2]? :=
      hsound.code_at hn hlt
    rw [hat]
  · -- what stands behind END is the head of the next run, if there is one
    have hend : k + 2 = run.length := by omega
    have hnext : pieceStart id (runs e.code) (n + 1) =
        pieceStart id (runs e.code) n + run.length := pieceStart_succ hn
    rw [hend, ← hnext, List.getElem?_eq_none (Nat.le_refl _), Option.any_none]
    rcases Nat.lt_or_ge (n + 1) (runs e.code).length with hlt | hlast
    · obtain ⟨ins, hins, href⟩ := head_of_run h (List.getElem?_eq_getElem hlt)
      have hat : e.code[pieceStart id (runs e.code) (n + 1) + 0]? = some ins :=
        (hsound.code_at (List.getElem?_eq_getElem hlt)
          (List.getElem?_eq_some_iff.mp hins).1).trans hins
      rw [Nat.add_zero] at hat
      rw [hat, Option.any_some, href]
    · have hlt := (List.getElem?_eq_some_iff.mp hn).1
      have hall : n + 1 = (runs e.code).length := by omega
      rw [hall, pieceStart_length, hcode, List.getElem?_eq_none (Nat.le_refl _), Option.any_none]

end Draft

/-! ### Operands -/

namespace Draft

variable {share debug : Bool} {total : UInt32} {modules : List ObjectModule} {e b a : Draft}
  {i j start k : Nat} {m : ObjectModule} {p : Prepared} {cs : List CopiedScript} {s : Script}
  {run : List Instruction} {c : CopiedScript} {ins : Instruction}

theorem Step.textAt? (hconsistent : m.image.data.Consistent)
    (h : Step share total modules e i m b a p cs) (hsize : (e.finalData debug).size < 0x80000000)
    (hc : Copied p.relocation m s start run c) (hins : run[k]? = some ins)
    (htext : m.PushesText s k ins) :
    ∃ v w t, ins.operand = .int v ∧ c.code[k]? = some { ins with operand := .int w } ∧
      m.textAt? v = some t ∧ (e.finalData debug).Holds w t := by
  obtain ⟨v, w, t, hv, hw, ⟨-, entry, hentry, hoffset, hbytes⟩, -, hholds⟩ :=
    h.pushedText hsize hc hins htext
  refine ⟨v, w, t, hv, hw, ?_, hholds⟩
  simp [ObjectModule.textAt?, hconsistent.entryAt?_eq_some_iff.mpr ⟨hentry, hoffset⟩, hbytes,
    Except.toOption]

/-- The float before a reference carries in the image the variable that it names in the module. -/
theorem carried_name (hcopy : LinkedCopy modules (e.toImage debug) i m j s p.relocation run c)
    (hm : m.image.globals.Declared)
    (hexact : ∀ id, CarriesId modules (e.toImage debug) id → id.toNat ≤ 0x1000000)
    (hins : run[k]? = some ins) (hfeeds : FeedsReference run k) :
    ∃ x v name, c.code[k]? = some { ins with operand := .float x } ∧
      ins.floatVariable? = some v ∧ m.meaning? s v = some name ∧
      (e.toImage debug).floatVarName? c.script { ins with operand := .float x } = some name := by
  obtain ⟨v, id, hv, hid, hat⟩ := Relocation.carried_of_moveRun hcopy.moved hins hfeeds
  obtain ⟨name, hmeaning, hname⟩ := hcopy.varName?_eq hm hid
  obtain ⟨later, hlater, href⟩ := hfeeds
  have hle := hexact id ⟨i, m, j, s, run, k + 2, later, ins, v, hcopy.module, hcopy.source,
    hcopy.closed, hlater, href, Nat.le_add_left _ _, hins, hv, hcopy.imageId hid⟩
  have hfloat := Instruction.floatVariable?_carrying (Instruction.opcode_of_floatVariable? hv).1 hle
  refine ⟨_, v, name, hat, hv, hmeaning, ?_⟩
  rw [Instruction.carrying] at hfloat
  simp only [Image.floatVarName?, hfloat, Option.bind_eq_bind, Option.bind_some, Image.refName?,
    SymbolRef.internal?, hname]

/-- The copy of an instruction stands for what the instruction stands for in its module. -/
theorem Step.means (h : Step share total modules e i m b a p cs)
    (hc : Copied p.relocation m s start run c)
    (hcopy : LinkedCopy modules (e.toImage debug) i m j s p.relocation run c)
    (hm : m.image.globals.Declared) (hconsistent : m.image.data.Consistent)
    (hsize : (e.finalData debug).size < 0x80000000)
    (hexact : ∀ id, CarriesId modules (e.toImage debug) id → id.toNat ≤ 0x1000000)
    (hk : k < 0x100000000) (hins : run[k]? = some ins) :
    ∃ ins' μ, c.code[k]? = some ins' ∧ ins' = { ins with operand := ins'.operand } ∧
      m.operandMeaning? s run k ins = some μ ∧
      (e.toImage debug).Means c.script (feedsReference (run.drop k)) ins' μ := by
  by_cases htext : m.PushesText s k ins
  · obtain ⟨v, w, t, hv, hat, ht, hholds⟩ := h.textAt? hconsistent hsize hc hins htext
    refine ⟨_, .text t, hat, rfl, ?_, .text rfl hholds⟩
    rw [ObjectModule.operandMeaning?_text htext hv, ht, Option.map_some]
  by_cases hfeeds : FeedsReference run k
  · obtain ⟨x, v, name, hat, hv, hmeaning, hname⟩ := carried_name hcopy hm hexact hins hfeeds
    refine ⟨_, .carried name, hat, rfl, ?_, .carried (feedsReference_drop_iff.mpr hfeeds) rfl hname⟩
    rw [ObjectModule.operandMeaning?_carried hfeeds hv, hmeaning, Option.map_some]
  obtain ⟨ins', hins', hkept⟩ := h.codeKept hc hk hins
  cases ho : ins.operand with
  | address t =>
      obtain ⟨t', ht', hdistance⟩ := hkept.jump t ho
      refine ⟨ins', _, hins', hkept.fields, ?_, .jump ht' hdistance⟩
      rw [ObjectModule.operandMeaning?, ho]
  | script r =>
      obtain ⟨_, hat, hbecomes⟩ := Relocation.becomes_of_moveRun hc.moved hins
      cases hins'.symm.trans hat
      obtain ⟨isText, hoperand⟩ := hbecomes.newOperand (by simp [ho])
      rw [ho] at hoperand
      generalize hnew : ins'.operand = o at hoperand
      cases hoperand with
      | script hid =>
          obtain ⟨name, hname, hname'⟩ := h.scriptName? debug hid
          refine ⟨_, .script name, hins', hkept.fields, ?_, .script hnew hname'⟩
          simp only [ObjectModule.operandMeaning?, ho, hname, Option.map_some]
  | «variable» v =>
      obtain ⟨_, id, hat, hoperand, hid⟩ := hcopy.variable_operand hins ho
      cases hins'.symm.trans hat
      obtain ⟨name, hmeaning, hname⟩ := hcopy.varName?_eq hm hid
      refine ⟨ins', .variable name, hins', hkept.fields, ?_, .«variable» hoperand hname⟩
      simp only [ObjectModule.operandMeaning?, ho, hmeaning, Option.map_some]
  | _ =>
      -- any other operand is a value, which stands for itself
      have hown : ins.operand.IsValue := by rw [ho]; trivial
      obtain rfl := hkept.value hown htext hfeeds
      exact ⟨ins', .value ins'.operand, hins', rfl,
        ObjectModule.operandMeaning?_value hown htext hfeeds,
        .value rfl hown fun hf => absurd (feedsReference_drop_iff.mp hf) hfeeds⟩

/-! ### Scripts started at load time, and initial values -/

theorem Step.autostart (h : Step share total modules e i m b a p cs) {r : SymbolRef}
    (hr : r ∈ m.image.autostart) :
    ∃ new, p.relocation.scriptId r = .ok new ∧ .internal new ∈ e.autostart := by
  obtain ⟨ids, hids, hauto⟩ := h.merges.autostart
  obtain ⟨n, hn⟩ := List.mem_iff_getElem?.mp hr
  obtain ⟨r', hr', hresolve⟩ := mapM_getElem? hids hn
  obtain ⟨new, hnew, rfl⟩ := resolveAutostart_eq_ok_iff.mp hresolve
  refine ⟨new, hnew, h.after.grows.autostart.subset ?_⟩
  rw [hauto]
  exact List.mem_append_right _ (List.mem_of_getElem? hr')

theorem exists_autostart (h : mergeAll share total {} modules = .ok e) {r' : SymbolRef}
    (hr' : r' ∈ e.autostart) :
    ∃ i m b a p cs r new, Step share total modules e i m b a p cs ∧ r ∈ m.image.autostart ∧
      p.relocation.scriptId r = .ok new ∧ r' = .internal new := by
  obtain ⟨i, m, b, a, hm, hb, hmerge, hrest, hbefore, hafter⟩ :=
    exists_change (P := fun d => r' ∈ d.autostart) h List.not_mem_nil hr'
  obtain ⟨p, cs, hstep⟩ := step_of_split hm hb hmerge hrest
  obtain ⟨ids, hids, hauto⟩ := hstep.merges.autostart
  rw [hauto, List.mem_append, or_iff_right hbefore] at hafter
  obtain ⟨n, hn⟩ := List.mem_iff_getElem?.mp hafter
  obtain ⟨r, hr, hresolve⟩ := mapM_source hids hn
  obtain ⟨new, hnew, rfl⟩ := resolveAutostart_eq_ok_iff.mp hresolve
  exact ⟨i, m, b, a, p, cs, r, new, hstep, List.mem_of_getElem? hr, hnew, rfl⟩

/-- A name is one of those started at load time exactly when a module starts it. -/
theorem mem_autostart_names_iff (h : mergeAll share total {} modules = .ok e) (debug : Bool)
    {name : String} :
    (∃ r ∈ e.autostart, (e.toImage debug).scriptName? r = some name) ↔
      ∃ m ∈ modules, ∃ r ∈ m.image.autostart, m.scriptName? r = some name := by
  constructor
  · rintro ⟨_, hr', hname⟩
    obtain ⟨i, m, b, a, p, cs, r, new, hstep, hr, hnew, rfl⟩ := exists_autostart h hr'
    obtain ⟨name', hname', heq⟩ := hstep.scriptName? debug hnew
    rw [hname, Option.some.injEq] at heq
    exact ⟨m, List.mem_of_getElem? hstep.module, r, hr, heq ▸ hname'⟩
  · rintro ⟨m, hm, r, hr, hname⟩
    obtain ⟨i, hi⟩ := List.mem_iff_getElem?.mp hm
    obtain ⟨b, a, p, cs, hstep⟩ := exists_step h hi
    obtain ⟨new, hnew, hmem⟩ := hstep.autostart hr
    obtain ⟨name', hname', heq⟩ := hstep.scriptName? debug hnew
    rw [hname, Option.some.injEq] at hname'
    exact ⟨_, hmem, hname' ▸ heq⟩

/-- Every module appends its initial values but the first one. -/
theorem inits_of_mergeAll {d : Draft} (h : mergeAll share total d modules = .ok e) :
    e.inits = d.inits ++ modules.flatMap fun m => m.image.inits.drop 1 := by
  induction modules generalizing d with
  | nil =>
      obtain rfl := mergeAll_nil_eq_ok.mp h
      exact (List.append_nil _).symm
  | cons m ms ih =>
      obtain ⟨d', hmerge, h⟩ := mergeAll_cons_eq_ok.mp h
      obtain ⟨p, cs, hm⟩ := merges_of_merge hmerge
      rw [ih h, hm.inits, hm.prepares.inits, List.flatMap_cons, List.append_assoc]

end Draft

/-! ### Scripts -/

/-- A script of an image that stands for one of a module: it has the same head and a run of the same
length, whose instructions before END stand for the same. -/
structure Image.Renders (image : Image) (m : ObjectModule) (s s' : Script)
    (run run' : List Instruction) : Prop where
  head : s'.head = s.head
  closed : m.image.scriptCode? s = some run
  closed' : image.scriptCode? s' = some run'
  length : run'.length = run.length
  means : ∀ (k : Nat) (ins : Instruction), run[k]? = some ins → k + 1 < run.length →
    ∃ ins' μ, run'[k]? = some ins' ∧ ins' = { ins with operand := ins'.operand } ∧
      m.operandMeaning? s run k ins = some μ ∧
      image.Means s' (feedsReference (image.code.drop (s'.address.toNat + k))) ins' μ

/-- A link of modules that are read back from their tables and texts, whose image can be addressed
and whose floats before references carry their ids. -/
structure ReadableLink (options : LinkOptions) (modules : List ObjectModule) (linked : Linked) :
    Prop where
  link : link options modules = .ok linked
  declared : ∀ m ∈ modules, m.image.globals.Declared
  consistent : ∀ m ∈ modules, m.image.data.Consistent
  code : linked.image.code.length < 0x100000000
  data : linked.image.data.size < 0x80000000
  exact : ∀ id, CarriesId modules linked.image id → id.toNat ≤ 0x1000000

namespace ReadableLink

variable {options : LinkOptions} {modules : List ObjectModule} {linked : Linked}

/-- Each script of each module is rendered where its copy stands. -/
theorem renders (h : ReadableLink options modules linked) {i j : Nat} {m : ObjectModule}
    {s : Script} (hm : modules[i]? = some m) (hs : m.image.scripts[j]? = some s) :
    ∃ s' run run', linked.image.scripts[copyIndex modules i j]? = some s' ∧
      linked.image.Renders m s s' run run' := by
  obtain ⟨hlink, hdeclared, hconsistent, hcode, hdata, hexact⟩ := h
  obtain ⟨total, e, htotal, he, rfl⟩ := link_eq_ok_iff.mp hlink
  obtain ⟨b, a, p, cs, hstep⟩ := Draft.exists_step he hm
  obtain ⟨c, run, -, hcopied, hstands⟩ := hstep.copy options.debugMetadata hs
  have hcopy := hstep.linkedCopy hdeclared htotal hs hcopied hstands
  have hmerged := Draft.merged_of_mergeAll Draft.sound_empty he
  obtain ⟨haddress, hinside⟩ := hmerged.address_toNat hcode hcopied hstands
  change e.code.length < _ at hcode
  have hlength : c.code.length = run.length := by
    rw [CopiedScript.code_length, Relocation.moveRun_length hcopied.moved]
  refine ⟨c.script, run, c.code, hstands.scriptAt, ?_, hcopied.closed,
    hstands.scriptCode hcode, hlength, ?_⟩
  · rw [hcopied.script]
    rfl
  · intro k ins hins hk
    have hmem := List.mem_of_getElem? hm
    obtain ⟨ins', μ, hins', hfields, hμ, hmeans⟩ := hstep.means hcopied hcopy (hdeclared m hmem)
      (hconsistent m hmem) hdata hexact (by omega) hins
    have hfeeds := Draft.feedsReference_code he hstands.runAt (k := k) (by omega)
    rw [hmerged.pieceStart_runs, CopiedScript.code,
      Relocation.feedsReference_settle hcopied.moved] at hfeeds
    refine ⟨ins', μ, hins', hfields, hμ, ?_⟩
    rw [haddress]
    exact hfeeds ▸ hmeans

/-- Every script of the image renders one of a module. -/
theorem exists_renders (h : ReadableLink options modules linked) {s' : Script}
    (hs' : s' ∈ linked.image.scripts) :
    ∃ m ∈ modules, ∃ s ∈ m.image.scripts, ∃ run run', linked.image.Renders m s s' run run' := by
  obtain ⟨n, hn⟩ := List.mem_iff_getElem?.mp hs'
  obtain ⟨i, m, j, s, _, _, c, hcopy, rfl, -⟩ := exists_linkedCopy h.declared h.link hn
  obtain ⟨s'', run, run', hat, hrenders⟩ := h.renders hcopy.module hcopy.source
  cases hn.symm.trans hat
  exact ⟨m, hcopy.module_mem, s, List.mem_of_getElem? hcopy.source, run, run', hrenders⟩

end ReadableLink

end ScriptImage
