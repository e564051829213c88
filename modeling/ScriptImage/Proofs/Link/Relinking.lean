import ScriptImage.Proofs.Link.References
import ScriptImage.Proofs.Link.Settled

/-!
Linking an image again. The image of a link is settled as long as its code and data can be
addressed and the floats before references carry their ids exactly, so a second link of the image
alone gives it back.
-/

namespace ScriptImage

/-- The ids that floats before references carry in the image of a link. -/
def CarriesId (modules : List ObjectModule) (image : Image) (id : UInt32) : Prop :=
  ∃ (i : Nat) (m : ObjectModule) (j : Nat) (s : Script) (run : List Instruction) (k : Nat)
    (ins p : Instruction) (v : SymbolRef), modules[i]? = some m ∧ m.image.scripts[j]? = some s ∧
      m.image.scriptCode? s = some run ∧ run[k]? = some ins ∧ ins.isReference = true ∧ 2 ≤ k ∧
        run[k - 2]? = some p ∧ p.floatVariable? = some v ∧ ImageId modules image i m s v id

/-! ### Copies are resolved -/

namespace LinkedCopy

variable {modules : List ObjectModule} {image : Image} {i j : Nat} {m : ObjectModule} {s : Script}
  {r : Relocation} {run : List Instruction} {c : CopiedScript}

theorem resolved (h : LinkedCopy modules image i m j s r run c)
    (hm : m.image.globals.Declared)
    (hexact : ∀ id, CarriesId modules image id → id.toNat ≤ 0x1000000) {k : Nat}
    {ins' : Instruction} (hk : c.code[k]? = some ins') :
    image.Resolved c.script c.code k ins' := by
  obtain ⟨ins, hins, hbecomes⟩ := h.origin hk
  refine ⟨?_, ?_, ?_⟩
  · intro v hv
    cases hbecomes with
    | carries => cases hv
    | own hoperand =>
        simp only at hv
        subst hv
        generalize ins.operand = o at hoperand
        cases hoperand with
        | «variable» hid =>
            obtain ⟨name, -, hname⟩ := h.varName?_eq hm hid
            exact ⟨_, name, rfl, hname⟩
  · intro v hv
    cases hbecomes with
    | carries => cases hv
    | own hoperand =>
        simp only at hv
        subst hv
        generalize ins.operand = o at hoperand
        cases hoperand with
        | script hid => exact ⟨_, rfl, h.fits.scripts _ _ hid⟩
  · intro href
    have hsource : ins.isReference = true := by
      rw [hbecomes.eq] at href
      exact href
    obtain ⟨hk2, p, v, id, q, hp, hv, hid, hq, hop, hoperand⟩ :=
      Relocation.paired_of_moveRun h.moved hins hsource
    obtain ⟨name, -, hname⟩ := h.varName?_eq hm hid
    have hle := hexact id ⟨i, m, j, s, run, k, ins, p, v, h.module, h.source, h.closed, hins,
      hsource, hk2, hp, hv, h.imageId hid⟩
    have hfloat := Instruction.floatVariable?_of_operand
      (hop.trans (Instruction.opcode_of_floatVariable? hv).1) hoperand
    rw [carriedId_of_le hle] at hfloat
    exact ⟨q, id, name, hk2, hq, hfloat, hoperand, hname⟩

end LinkedCopy

/-! ### Texts are written in order -/

namespace Draft

variable {share : Bool} {total : UInt32} {modules : List ObjectModule} {e : Draft}

theorem written_of_mergeAll (h : mergeAll share total {} modules = .ok e) (debug : Bool) :
    ∃ ts, (e.finalData debug).Written share debug ts e.texts.info e.textPushes := by
  obtain ⟨us, hus, hstores, -⟩ := stores_of_mergeAll (TextPool.stores_empty share) h
  have hempty : ({} : Draft).texts.info.WellFormed := BuildInfo.wellFormed_empty
  refine ⟨_, finalData_eq hstores debug, ?_, ?_, wellFormed_of_mergeAll hempty h⟩
  · intro t ht
    rcases mem_addTexts ht with hnil | ht
    · cases hnil
    · exact isPlain_of_plainTexts hus ht
  · rintro rfl
    rw [addTexts_true]
    exact nodup_distinct us

/-- Where a marked push was moved there is a push of a text. -/
theorem pushesPlain_of_isTextPush (h : mergeAll share total {} modules = .ok e) {debug : Bool}
    (hcode : e.code.length < 0x100000000) (hsize : (e.finalData debug).size < 0x80000000)
    {a : UInt32} (ha : IsTextPush modules (e.toImage debug) a) :
    (e.toImage debug).PushesPlain a := by
  obtain ⟨i, m, j, s, run, k, ins, s', hmarked, hs', haddress⟩ := ha
  obtain ⟨b, b', p, cs, hstep⟩ := exists_step h hmarked.module
  obtain ⟨c, run', hc, hcopied, hstands⟩ := hstep.copy debug hmarked.script
  have hclosed := hcopied.closed
  rw [hmarked.closed, Option.some.injEq] at hclosed
  subst hclosed
  rw [hstands.scriptAt, Option.some.injEq] at hs'
  subst hs'
  obtain ⟨v, w, t, -, hk, -, hplain, hholds⟩ :=
    hstep.pushedText hsize hcopied hmarked.instruction hmarked.marked
  obtain ⟨hstart, -⟩ := script_run h hcode debug hstands.scriptAt
  have hsound := (merged_of_mergeAll sound_empty h).sound.toImage debug
  have hlt := (List.getElem?_eq_some_iff.mp hk).1
  refine ⟨{ ins with operand := .int w }, w, t, ?_, hmarked.marked.1, rfl, hholds, hplain⟩
  rw [haddress, hstart, ← hk]
  exact hsound.code_at hstands.runAt hlt

end Draft

/-! ### Linking an image again -/

/-- The image of a link is settled. -/
theorem settled_of_link {options : LinkOptions} {modules : List ObjectModule} {linked : Linked}
    {textPushes : List UInt32} (hdeclared : ∀ m ∈ modules, m.image.globals.Declared)
    (h : link options modules = .ok linked) (hcode : linked.image.code.length < 0x100000000)
    (hsize : linked.image.data.size < 0x80000000)
    (hexact : ∀ id, CarriesId modules linked.image id → id.toNat ≤ 0x1000000)
    (hpushes : ∀ a, a ∈ textPushes ↔ IsTextPush modules linked.image a) :
    linked.image.Settled options.sharedTexts options.debugMetadata textPushes := by
  have hsound := sound_of_link h
  have hcopies := @exists_linkedCopy options modules linked hdeclared h
  obtain ⟨total, e, -, he, rfl⟩ := link_eq_ok_iff.mp h
  have hmerged := Draft.merged_of_mergeAll Draft.sound_empty he
  change e.code.length < _ at hcode
  change (e.finalData options.debugMetadata).size < _ at hsize
  refine ⟨rfl, hmerged.grows.inits, hsound, ?_, ?_, ?_, ?_⟩
  · exact fun n s hs => Draft.script_run he hcode options.debugMetadata hs
  · intro n s run hs hrun k ins hk
    obtain ⟨i, m, j, t, r, run', c, hcopy, rfl, rfl⟩ := hcopies hs
    have hclosed := hcopy.standsFor.scriptCode hcode
    rw [hrun, Option.some.injEq] at hclosed
    subst hclosed
    exact hcopy.resolved (hdeclared m hcopy.module_mem) hexact hk
  · exact fun a ha => Draft.pushesPlain_of_isTextPush he hcode hsize ((hpushes a).mp ha)
  · obtain ⟨ts, hwritten⟩ := Draft.written_of_mergeAll he options.debugMetadata
    have hlists := Draft.lists_of_mergeAll Draft.lists_empty Draft.sound_empty he hcode
    exact ⟨ts, _, _, hwritten, hlists.ascending, fun a =>
      (Draft.mem_textPushes_iff he hcode options.debugMetadata).trans (hpushes a).symm⟩

/-- Linking the image of a link again, as a module of its own that lists the text pushes which were
relocated, gives the same image, while the data can be addressed by signed words, the code by
words, and the ids before references are told apart by floats. -/
theorem link_asModule {options : LinkOptions} {modules : List ObjectModule} {linked : Linked}
    {textPushes : List UInt32} (hdeclared : ∀ m ∈ modules, m.image.globals.Declared)
    (h : link options modules = .ok linked) (hcode : linked.image.code.length < 0x100000000)
    (hsize : linked.image.data.size < 0x80000000)
    (hexact : ∀ id, CarriesId modules linked.image id → id.toNat ≤ 0x1000000)
    (hpushes : ∀ a, a ∈ textPushes ↔ IsTextPush modules linked.image a) (name : String) :
    ∃ relinked, link options [linked.image.asModule name textPushes] = .ok relinked ∧
      relinked.image = linked.image :=
  (settled_of_link hdeclared h hcode hsize hexact hpushes).relink hcode (by omega) name

namespace Sample

/-- A module with a reference behind one with an array, and one with texts. -/
def program : List ObjectModule := [table, reader, speaker]

theorem program_declared : ∀ m ∈ program, m.image.globals.Declared := by
  simp only [program, List.forall_mem_cons, List.not_mem_nil, false_implies, implies_true,
    and_true]
  exact ⟨table_declared, reader_declared, .empty⟩

/-- When only the reader has a reference, it carries the id of its own global, which lies among the
slots of the link. -/
theorem carriesId_le {modules : List ObjectModule}
    (hmodules : ∀ m ∈ modules, m = reader ∨ ∀ ins ∈ m.image.code, ins.isReference = false)
    (hslots : slotsOf (allVars modules) < 0x1000000) {image : Image} {id : UInt32}
    (h : CarriesId modules image id) : id.toNat ≤ 0x1000000 := by
  obtain ⟨i, m, j, s, run, k, ins, p, v, hm, hs, hrun, hk, href, hk2, hp, hv, hid⟩ := h
  rcases hmodules m (List.mem_of_getElem? hm) with rfl | hplain
  · obtain ⟨rfl, rfl⟩ : j = 0 ∧ s = main := by
      cases j with
      | zero => exact ⟨rfl, (Option.some.inj hs).symm⟩
      | succ j => cases hs
    rw [scriptCode?_main, Option.some.injEq] at hrun
    subst hrun
    have hlt := (List.getElem?_eq_some_iff.mp hk).1
    change k < 6 at hlt
    interval_cases k
    all_goals cases hk
    all_goals try cases href
    cases hp
    have hsource : (Instruction.pushVarId (.internal 1)).floatVariable? = some (.internal 1) := by
      decide +kernel
    rw [hsource, Option.some.injEq] at hv
    subst hv
    cases hid with
    | «local» hlt _ => exact absurd hlt (by decide)
    | global _ _ hid =>
        rw [allVars_split hm, slotsOf_append] at hslots
        rw [UInt32.toNat_one] at hid
        omega
  · have hmem : ins ∈ m.image.code := List.mem_of_mem_drop
      ((prefix_of_closedRun? hrun).subset (List.mem_of_getElem? hk))
    rw [hplain ins hmem] at href
    cases href

theorem program_carriesId {image : Image} {id : UInt32} (h : CarriesId program image id) :
    id.toNat ≤ 0x1000000 :=
  carriesId_le (by decide) (by decide) h

/-- With shared texts and build information, the linked program is linked to itself. -/
theorem relinked : ∃ linked relinked,
    link { sharedTexts := true, debugMetadata := true } program = .ok linked ∧
      linked.image.code.length = 9 ∧ linked.image.data.entries.length = 3 ∧
        link { sharedTexts := true, debugMetadata := true }
          [linked.image.asModule "program" [6]] = .ok relinked ∧
            relinked.image = linked.image := by
  obtain ⟨e, he, hpushes, hcode, hsize, hentries⟩ : ∃ e, mergeAll true 4 {} program = .ok e ∧
      e.textPushes = [6] ∧ e.code.length = 9 ∧ (e.finalData true).size < 0x80000000 ∧
        (e.finalData true).entries.length = 3 := exists_ok (by decide +kernel)
  have hlinked : link { sharedTexts := true, debugMetadata := true } program =
      .ok (e.finish true program) := link_eq_ok_iff.mpr ⟨4, e, by decide, he, rfl⟩
  have hsmall : e.code.length < 0x100000000 := by omega
  obtain ⟨relinked, hrelinked, himage⟩ := link_asModule program_declared hlinked hsmall hsize
    (fun id => program_carriesId)
    (fun a => hpushes ▸ Draft.mem_textPushes_iff he hsmall true) "program"
  exact ⟨_, relinked, hlinked, hcode, hentries, hrelinked, himage⟩

end Sample

end ScriptImage
