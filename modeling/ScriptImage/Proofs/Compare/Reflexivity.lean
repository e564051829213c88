import ScriptImage.Proofs.Codec.Modules
import ScriptImage.Proofs.Compare.Symmetry
import ScriptImage.Proofs.Link.Sharing
import ScriptImage.Proofs.Link.Validity

/-!
An image compared with itself. Partners are looked up by name, so what takes a name a second time is
compared with what took it first, and numbers are compared as numbers, of which a NaN is not equal
to itself. A linked image is found equal to itself, with an empty report, exactly when neither
matters.
-/

namespace ScriptImage

/-! ### Runs of linked scripts -/

/-- A copy ends no later than at the last word: each of its addresses was computed as one. -/
theorem LinkedCopy.address_add_lt {modules : List ObjectModule} {image : Image} {i j : Nat}
    {m : ObjectModule} {s : Script} {r : Relocation} {run : List Instruction} {c : CopiedScript}
    (h : LinkedCopy modules image i m j s r run c) (hsize : m.image.code.length < 0x100000000)
    {k : Nat} (hk : k < c.code.length) : c.script.address.toNat + k < 0x100000000 := by
  rw [CopiedScript.code_length, Relocation.moveRun_length h.moved] at hk
  have hle : run.length ≤ (m.image.code.drop s.address.toNat).length :=
    (prefix_of_closedRun? h.closed).length_le
  rw [List.length_drop] at hle
  obtain ⟨moved, -, hmoves⟩ := Relocation.moveRun_getElem? h.moved (List.getElem?_eq_getElem hk)
  have hword := moved.newAddress.toNat_lt
  rwa [hmoves.newAddress, Word.toNat_saturate (by omega)] at hword

section

variable {options : LinkOptions} {modules : List ObjectModule} {linked : Linked}

theorem script_address_of_link (h : link options modules = .ok linked) {n : Nat} {s : Script}
    (hs : linked.image.scripts[n]? = some s) :
    s.address = Word.saturate (pieceStart id (runs linked.image.code) n) := by
  obtain ⟨total, e, -, he, rfl⟩ := link_eq_ok_iff.mp h
  exact Draft.script_address he hs

/-- No run goes on behind the last word. -/
theorem opcode_at_last_word (hread : ∀ m ∈ modules, m.image.Storable)
    (h : link options modules = .ok linked) {ins : Instruction}
    (hins : linked.image.code[0xFFFFFFFF]? = some ins) : ins.opcode = .endRun := by
  obtain ⟨i, m, j, s, r, run, c, k, hcopy, hk, hpos⟩ :=
    exists_copy_at (fun m hm => (hread m hm).globals.declared) h hins
  have haddress := script_address_of_link h hcopy.standsFor.scriptAt
  have hclosed := closedRun?_of_mem_runs (List.mem_of_getElem? hcopy.standsFor.runAt)
  by_contra hne
  -- a run that went on would have an address that is no word
  have hnext := lt_of_closedRun? hclosed hk hne
  have hword := hcopy.address_add_lt (hread m hcopy.module_mem).code.length hnext
  rw [haddress, Word.toNat_saturate (by omega)] at hword
  omega

/-- Each script of a linked image has a run of which all operands resolve, also where its address
was cut off. -/
theorem link_resolvesRun (hread : ∀ m ∈ modules, m.image.Storable)
    (h : link options modules = .ok linked) {s : Script} (hs : s ∈ linked.image.scripts) :
    linked.image.ResolvesRun s (linked.image.code.drop s.address.toNat) := by
  have hdeclared : ∀ m ∈ modules, m.image.globals.Declared :=
    fun m hm => (hread m hm).globals.declared
  have hsound := sound_of_link h
  obtain ⟨n, hn⟩ := List.mem_iff_getElem?.mp hs
  obtain ⟨i, m, j, t, r, run, c, hcopy, rfl, rfl⟩ := exists_linkedCopy hdeclared h hn
  have haddress := script_address_of_link h hn
  have hrun := hcopy.standsFor.runAt
  have hclosed := closedRun?_of_mem_runs (List.mem_of_getElem? hrun)
  have hdrop := drop_pieceStart (f := id) hrun
  have hpiece := pieceStart_add_length_le (f := id) hrun
  rw [List.flatMap_id, hsound.tiled] at hdrop hpiece
  by_cases hstart : pieceStart id (runs linked.image.code) (copyIndex modules i j) < 0x100000000
  · rw [haddress, Word.toNat_saturate hstart, hdrop]
    refine ⟨c.code, closedRun?_append hclosed _, fun ins hins _ => ?_⟩
    obtain ⟨k, hk⟩ := List.mem_iff_getElem?.mp hins
    have hmem : ins ∈ linked.image.code := by
      rw [← hsound.tiled]
      exact List.mem_flatten.mpr ⟨c.code, List.mem_of_getElem? hrun, hins⟩
    apply (hcopy.reaches hk (hsound.jumps ins hmem)).resolves hsound.numbered
    exact fun id hid => hcopy.exists_varName? (hdeclared m hcopy.module_mem) hins hid
  · -- the address is the last word, at which the run of another script ends
    have hpos := length_pos_of_closedRun? hclosed
    have hlast : c.script.address.toNat = 0xFFFFFFFF := by
      rw [haddress, Word.toNat_saturate_eq]
      omega
    change _ + c.code.length ≤ _ at hpiece
    have hlt : 0xFFFFFFFF < linked.image.code.length := by omega
    have hend := opcode_at_last_word hread h (List.getElem?_eq_getElem hlt)
    rw [hlast, List.drop_eq_getElem_cons hlt]
    refine ⟨_, closedRun?_cons_of_eq hend _, fun ins hins hne => ?_⟩
    exact absurd (List.mem_singleton.mp hins ▸ hend) hne

end

/-! ### Scripts and initial values -/

namespace ScriptPair

variable {m : Image} {s : Script} {mode : CompareMode}

/-- Whatever the mode, code of which all operands resolve agrees with itself. -/
theorem Agrees.self {ts : List Instruction} (h : m.ResolvesRun s ts) :
    ScriptPair.Agrees ⟨m, m, s, s⟩ mode ts ts := by
  induction ts with
  | nil => exact absurd rfl h.ne_nil
  | cons i r ih =>
      by_cases hi : i.opcode = .endRun
      · exact .ended hi hi
      · have hstep : ScriptPair.step ⟨m, m, s, s⟩ mode (i :: r) (i :: r) i i = .ok {} := by
          by_cases hmode : mode = .strict
          · subst hmode
            apply step_strict_iff.mpr
            exact Instruction.sameEncoding_iff.mpr ⟨rfl, rfl, rfl, rfl⟩
          · apply (step_meaning_iff hmode rfl rfl).mpr
            have hresolves := h.head hi
            refine ⟨rfl, rfl, rfl, .of_eq rfl ⟨rfl, rfl⟩ rfl rfl (fun _ _ => rfl) ?_ ?_⟩
            · intro r' hr'
              rw [hr'] at hresolves
              obtain ⟨name, hname⟩ := hresolves
              exact ⟨name, hname, hname⟩
            · intro r' hr'
              rwa [hr'] at hresolves
        exact .step hi hi hstep (ih (h.tail hi))

end ScriptPair

namespace Image

variable {m : Image}

/-- What an image needs in order to be equal to itself. No initial value is a NaN. Below strict mode
an initial value whose name is taken has the value under which the name is known, and a script whose
name is taken does what the first script of the name does; in strict mode no script's name is
taken. -/
structure Unambiguous (m : Image) (mode : CompareMode) : Prop where
  numbers : ∀ x ∈ m.inits, ¬ x.value.IsNaN
  inits : mode ≠ .strict → ∀ x ∈ m.inits, ∀ y,
    m.inits.find? (fun y => y.name == x.name) = some y → y.value.SameNumber x.value
  scripts : ∀ s ∈ m.scripts, ∀ t, m.scriptByName? s.name = some t → t = s ∨
    mode ≠ .strict ∧ s.params = t.params ∧ s.locals = t.locals ∧
      ScriptPair.Agrees ⟨m, m, s, t⟩ mode (m.code.drop s.address.toNat)
        (m.code.drop t.address.toNat)

/-- Where every name is an own one, nothing is ambiguous but a NaN. -/
theorem OwnNames.unambiguous (h : m.OwnNames) (hnumbers : ∀ x ∈ m.inits, ¬ x.value.IsNaN)
    (mode : CompareMode) : m.Unambiguous mode := by
  refine ⟨hnumbers, fun _ x hx y hy => ?_, fun s hs t ht => .inl ?_⟩
  · rw [find?_of_nodup h.inits hx, Option.some.injEq] at hy
    rw [hy]
    exact .same _
  · have hself := find?_of_nodup h.scripts hs
    exact Option.some.inj (ht.symm.trans hself)

end Image

/-! ### The verdict -/

namespace CompareOptions

variable {o : CompareOptions} {m : Image}

theorem initFindings_self_iff : (∀ k ∈ o.initFindings m m, k.refutes = false) ↔
    (∀ x ∈ m.inits, ¬ x.value.IsNaN) ∧ (o.mode ≠ .strict → ∀ x ∈ m.inits, ∀ y,
      m.inits.find? (fun y => y.name == x.name) = some y → y.value.SameNumber x.value) := by
  by_cases hmode : o.mode = .strict
  · rw [initFindings_strict_iff hmode, List.forall₂_same]
    simp only [Initializer.valueEq, beq_self_eq_true, Bool.true_and, InitialValue.valueEq_iff,
      InitialValue.SameNumber.same, true_and, hmode, ne_eq, not_true_eq_false, false_implies,
      and_true]
  · rw [initFindings_iff hmode]
    constructor
    · intro h
      refine ⟨fun x hx => ?_, fun _ x hx y hy => .of_valueEq (h x hx y hy)⟩
      obtain ⟨y, hy⟩ : ∃ y, m.inits.find? (fun y => y.name == x.name) = some y :=
        Option.isSome_iff_exists.mp (List.find?_isSome.mpr ⟨x, hx, beq_self_eq_true _⟩)
      have hequal := h x hx y hy
      rw [InitialValue.valueEq_comm, InitialValue.valueEq_iff] at hequal
      exact hequal.2
    · rintro ⟨hnumbers, hsame⟩ x hx y hy
      exact (hsame hmode x hx y hy).valueEq (hnumbers y (List.mem_of_find?_eq_some hy))

/-- No initial value of an image is missing from it, so what does not refute is not found at all. -/
theorem initFindings_self_eq_nil (h : ∀ k ∈ o.initFindings m m, k.refutes = false) :
    o.initFindings m m = [] := by
  apply List.eq_nil_iff_forall_not_mem.mpr
  intro k hk
  have hrefutes := h k hk
  unfold initFindings at hk
  split at hk
  · split at hk
    · cases List.mem_singleton.mp hk
      cases hrefutes
    · split at hk
      · cases List.mem_singleton.mp hk
        cases hrefutes
      · cases hk
  · obtain ⟨x, hx, hk⟩ := List.mem_filterMap.mp hk
    split at hk
    · rename_i hnone
      exact List.find?_eq_none.mp hnone x hx (beq_self_eq_true _)
    · split at hk <;> cases hk
      cases hrefutes

theorem findsNothing_self_iff (hnumbered : ∀ n s, m.scripts[n]? = some s → s.id.toNat = n + 1)
    (hruns : ∀ s ∈ m.scripts, m.ResolvesRun s (m.code.drop s.address.toNat)) {s t : Script}
    (hs : s ∈ m.scripts) (ht : m.scriptByName? s.name = some t) :
    FindsNothing (o.scriptEntries m m s) ↔ t = s ∨ o.mode ≠ .strict ∧ s.params = t.params ∧
      s.locals = t.locals ∧ ScriptPair.Agrees ⟨m, m, s, t⟩ o.mode (m.code.drop s.address.toNat)
        (m.code.drop t.address.toNat) := by
  rw [findsNothing_scriptEntries_iff, ht]
  simp only [Option.some.injEq, exists_eq_left', ScriptPair.findsNothing_compare_iff]
  constructor
  · rintro ⟨hhead, hagrees⟩
    by_cases hmode : o.mode = .strict
    · obtain ⟨-, -, hstrict⟩ := ScriptPair.headerFindings_nil_iff.mp hhead
      have hmem := (Image.of_scriptByName? ht).1
      exact .inl (Image.eq_of_id hnumbered hmem hs (hstrict hmode).1.symm)
    · obtain ⟨hparams, hlocals⟩ := (ScriptPair.headerFindings_eq_nil_iff hmode).mp hhead
      exact .inr ⟨hmode, hparams, hlocals, hagrees⟩
  · rintro (rfl | ⟨hmode, hparams, hlocals, hagrees⟩)
    · exact ⟨ScriptPair.headerFindings_nil_iff.mpr ⟨rfl, rfl, fun _ => ⟨rfl, rfl, rfl⟩⟩,
        .self (hruns t hs)⟩
    · exact ⟨(ScriptPair.headerFindings_eq_nil_iff hmode).mpr ⟨hparams, hlocals⟩, hagrees⟩

theorem accepts_self_iff (hm : m.Sound)
    (hruns : ∀ s ∈ m.scripts, m.ResolvesRun s (m.code.drop s.address.toNat))
    (hall : o.scripts = none) (hlimit : 0 < o.maxMismatches) :
    o.Accepts m m ↔ m.Unambiguous o.mode := by
  have hnamed : ∀ r ∈ m.autostart, ∃ name, m.scriptName? r = some name :=
    fun r hr => Image.NamesScript.exists_scriptName? hm.numbered (hm.autostart r hr)
  constructor
  · intro h
    obtain ⟨hnumbers, hinits⟩ := initFindings_self_iff.mp h.inits
    refine ⟨hnumbers, hinits, fun s hs t ht => ?_⟩
    exact (findsNothing_self_iff hm.numbered hruns hs ht).mp
      (h.scripts s hs (includes_of_none hall s.name)).2
  · intro h
    refine ⟨rfl, ?_, countFindings_eq_nil_iff.mpr rfl, fun s hs _ => ⟨hlimit, ?_⟩, ?_, ?_,
      initFindings_self_iff.mpr ⟨h.numbers, h.inits⟩⟩
    · by_cases hmode : o.mode = .strict
      · exact (globalFindings_strict_iff hmode).mpr rfl
      · exact globalFindings_eq_nil hmode hm.declared.consistent hm.declared.consistent
          (List.Subset.refl _)
    · obtain ⟨t, ht⟩ : ∃ t, m.scriptByName? s.name = some t :=
        Option.isSome_iff_exists.mp (List.find?_isSome.mpr ⟨s, hs, beq_self_eq_true _⟩)
      exact (findsNothing_self_iff hm.numbered hruns hs ht).mpr (h.scripts s hs t ht)
    · by_cases hmode : o.mode = .strict
      · exact (autostartFindings_strict_iff hmode).mpr rfl
      · exact (autostartFindings_iff hmode).mpr ⟨hnamed, hnamed, fun _ => Iff.rfl⟩
    · by_cases hmode : o.mode = .strict
      · exact (dataFindings_strict_iff hmode).mpr rfl
      · exact dataFindings_eq_nil hmode

end CompareOptions

/-- A linked image is found equal to itself, with an empty report, exactly when it is unambiguous in
the mode. Its size does not matter, nor what the modules are linked with. -/
theorem compare_self {options : LinkOptions} {modules : List ObjectModule} {linked : Linked}
    {mode : CompareMode} (hread : ∀ m ∈ modules, ∃ bs, ObjectModule.decode bs = .ok m)
    (h : link options modules = .ok linked) :
    (∃ c, compareImages { mode } linked.image linked.image = .ok c ∧ c.equal = true ∧
      c.report = []) ↔ linked.image.Unambiguous mode := by
  have hstorable : ∀ m ∈ modules, m.image.Storable :=
    fun m hm => (ObjectModule.storable_of_read hread m hm).image
  have hself := CompareOptions.accepts_self_iff (o := { mode }) (sound_of_link h)
    (fun s => link_resolvesRun hstorable h) rfl (Nat.succ_pos 19)
  constructor
  · rintro ⟨c, hc, hequal, -⟩
    exact hself.mp (CompareOptions.accepts_of_equal hc hequal)
  · intro hunambiguous
    have haccepts := hself.mpr hunambiguous
    obtain ⟨c, hc, hreport⟩ := haccepts.exists_report
    rw [CompareOptions.initFindings_self_eq_nil haccepts.inits, List.map_nil] at hreport
    refine ⟨c, hc, ?_, hreport⟩
    rw [Comparison.equal, hreport]
    rfl

namespace Sample

/-- A link of one script and no initial values is equal to itself in each mode. -/
theorem equal_to_itself : ∃ linked, link {} modules = .ok linked ∧ ∀ mode, ∃ c,
    compareImages { mode } linked.image linked.image = .ok c ∧ c.equal = true ∧ c.report = [] := by
  obtain ⟨linked, h, hscripts, hinits⟩ : ∃ linked, link {} modules = .ok linked ∧
      (linked.image.scripts.map Script.name).Nodup ∧ linked.image.inits = [.null] :=
    exists_ok (by decide +kernel)
  have hread : ∀ m ∈ modules, (ObjectModule.decode m.encode).toOption = some m := by
    decide +kernel
  refine ⟨linked, h, fun mode => ?_⟩
  apply (compare_self (fun m hm => ⟨m.encode, toOption_eq_some.mp (hread m hm)⟩) h).mpr
  apply Image.OwnNames.unambiguous
  · exact ⟨hscripts, by rw [hinits]; exact List.nodup_singleton _⟩
  · rw [hinits, List.forall_mem_singleton]
    exact Bool.false_ne_true

/-- A variable that starts as a NaN. -/
def gauge : ObjectModule where
  name := "gauge"
  image := {
    globals := { entries := [("level", ⟨"level", 1⟩)], starts := [1], slots := 1 }
    inits := [.null, ⟨"level", .number ⟨0x7FC00000⟩⟩] }

/-- A NaN makes an image differ from itself in each mode, and so do two scripts of one name. -/
theorem differs_from_itself :
    (∀ m ∈ [gauge, table, reader, speaker], ∃ bs, ObjectModule.decode bs = .ok m) ∧
      ∀ modules ∈ [[gauge], [table, reader, speaker]], ∃ linked,
        link {} modules = .ok linked ∧ ∀ mode, ∃ c,
          compareImages { mode } linked.image linked.image = .ok c ∧ c.equal = false := by
  have hread : ∀ m ∈ [gauge, table, reader, speaker],
      (ObjectModule.decode m.encode).toOption = some m := by decide +kernel
  refine ⟨fun m hm => ⟨m.encode, toOption_eq_some.mp (hread m hm)⟩, fun modules hmodules => ?_⟩
  have hdiffers : ∀ modules ∈ [[gauge], [table, reader, speaker]],
      (link {} modules).toOption.any (fun linked => decide (∀ mode ∈ CompareMode.all,
        (compareImages { mode } linked.image linked.image).toOption.any
          (fun c => decide (c.equal = false)) = true)) = true := by decide +kernel
  obtain ⟨linked, h, hall⟩ := exists_ok (hdiffers modules hmodules)
  refine ⟨linked, h, fun mode => exists_ok (hall mode ?_)⟩
  cases mode <;> decide

end Sample

end ScriptImage
