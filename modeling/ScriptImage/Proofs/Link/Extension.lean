import ScriptImage.Proofs.Link.Lockstep
import ScriptImage.Proofs.Link.Sharing

/-!
Links with more modules behind. The slots of all modules are counted before the first is merged, so
later modules move the locals of earlier ones further up. Nothing else of the earlier ones depends
on them: what they add to the image stands in front as it does in a link of its own.
-/

namespace ScriptImage

/-! ### Longer tables and sections -/

/-- A table with more variables behind keeps the entries and starts of those in front. -/
theorem GlobalTable.Consistent.grows {t t' : GlobalTable} (h : t.Consistent) (h' : t'.Consistent)
    (hvars : t.vars <+: t'.vars) : t.entries <+: t'.entries ∧ t.starts <+: t'.starts := by
  constructor
  · rw [h.entries, h'.entries]
    exact hvars.map _
  · rw [List.prefix_iff_getElem?]
    intro i hi
    have hcount := hvars.length_le
    have hlength := h.length
    have hlength' := h'.length
    have hi' : i < t'.starts.length := by omega
    have hstart := h.starts i _ (List.getElem?_eq_getElem hi)
    have hstart' := h'.starts i _ (List.getElem?_eq_getElem hi')
    obtain ⟨rest, hrest⟩ := hvars
    rw [← hrest, List.take_append_of_le_length (by omega)] at hstart'
    rw [List.getElem?_eq_getElem hi', Option.some.injEq]
    exact UInt32.toNat_inj.mp (hstart'.trans hstart.symm)

theorem DataSection.ofTexts_grows {ts us : List (List UInt8)} (h : ts <+: us) :
    (ofTexts ts).bytes <+: (ofTexts us).bytes ∧ (ofTexts ts).entries <+: (ofTexts us).entries := by
  obtain ⟨rest, rfl⟩ := h
  induction rest using List.reverseRecOn with
  | nil => rw [List.append_nil]; exact ⟨List.prefix_rfl, List.prefix_rfl⟩
  | append_singleton rest t ih =>
      rw [← List.append_assoc, ofTexts_concat, push]
      refine ⟨ih.1.trans ?_, ih.2.trans (List.prefix_append _ _)⟩
      rw [List.append_assoc]
      exact List.prefix_append _ _

/-- Some of the modules have slots to count if all of them do. -/
theorem totalSlots_of_append {ms rest : List ObjectModule} {total : UInt32}
    (h : totalSlots (ms ++ rest) = .ok total) :
    ∃ part, totalSlots ms = .ok part ∧ total.toNat = part.toNat + slotSum rest := by
  obtain ⟨hsum, hle⟩ := totalSlots_eq_ok_iff.mp h
  have hmax : maxSlot = 0x7FFFFFFF := rfl
  rw [slotSum_append] at hsum
  have hpart := Word.toNat_ofNat (n := slotSum ms) (by omega)
  exact ⟨UInt32.ofNat (slotSum ms), totalSlots_eq_ok_iff.mpr ⟨hpart, by omega⟩, by omega⟩

namespace Draft

variable {share : Bool} {total total' : UInt32} {modules modules' ms rest : List ObjectModule}
  {d e e' : Draft}

theorem mergeAll_append_eq_ok_iff : mergeAll share total d (ms ++ rest) = .ok e ↔
    ∃ c, mergeAll share total d ms = .ok c ∧ mergeAll share total c rest = .ok e := by
  unfold mergeAll
  rw [List.foldlM_append, bind_eq_ok]

/-! ### Texts do not depend on slots -/

/-- Modules merged behind others leave the data in front. -/
theorem data_of_mergeAll_append {c e : Draft} (hc : mergeAll share total' {} ms = .ok c)
    (he : mergeAll share total {} (ms ++ rest) = .ok e) :
    c.texts.data.bytes <+: e.texts.data.bytes ∧ c.texts.data.entries <+: e.texts.data.entries := by
  obtain ⟨b, hb, he⟩ := mergeAll_append_eq_ok_iff.mp he
  obtain ⟨us, hus, hstores, -⟩ := stores_of_mergeAll (TextPool.stores_empty share) hc
  obtain ⟨us', hus', hstores', -⟩ := stores_of_mergeAll (TextPool.stores_empty share) hb
  cases hus.symm.trans hus'
  obtain ⟨vs, -, hafter, -⟩ := stores_of_mergeAll hstores' he
  rw [hstores.data, hafter.data]
  exact DataSection.ofTexts_grows (addTexts_grows share _ vs)

/-- Texts of a module go to the same offsets in two links that begin with the same modules. -/
theorem Step.texts_eq {b b' a a' : Draft} {i : Nat} {m : ObjectModule} {p p' : Prepared}
    {cs cs' : List CopiedScript} (htake : modules.take i = modules'.take i)
    (h : Step share total modules e i m b a p cs)
    (h' : Step share total' modules' e' i m b' a' p' cs') :
    p.relocation.texts = p'.relocation.texts := by
  obtain ⟨earlier, hearlier, hbefore, -⟩ :=
    stores_of_mergeAll (TextPool.stores_empty share) h.runBefore
  obtain ⟨earlier', hearlier', hbefore', -⟩ :=
    stores_of_mergeAll (TextPool.stores_empty share) h'.runBefore
  rw [htake] at hearlier
  cases hearlier.symm.trans hearlier'
  obtain ⟨us, moves, hus, -, hadds, htexts, -⟩ := h.merges.prepares.adds hbefore
  obtain ⟨us', moves', hus', -, hadds', htexts', -⟩ := h'.merges.prepares.adds hbefore'
  cases hus.symm.trans hus'
  rw [htexts, htexts', hadds.offsets, hadds'.offsets]

/-! ### Boundaries -/

/-- The boundary of a copy is among the slots of all modules if that of its script is among those
of its module. -/
theorem boundary_le_of_mergeAll
    (hboundary : ∀ m ∈ modules, ∀ s ∈ m.image.scripts, s.boundary ≤ m.image.globals.slots)
    (h : mergeAll share total {} modules = .ok e) :
    ∀ s ∈ e.scripts, s.boundary.toNat ≤ total.toNat := by
  refine mergeAll_invariant (fun d => ∀ s ∈ d.scripts, s.boundary.toNat ≤ total.toNat) ?_
    (by simp) h
  intro b m b' p cs hm hmerges hb s hs
  rw [hmerges.scripts] at hs
  rcases List.mem_append.mp hs with hs | hs
  · exact hb s hs
  · obtain ⟨c, hc, rfl⟩ := List.mem_map.mp hs
    obtain ⟨j, hj⟩ := List.mem_iff_getElem?.mp hc
    obtain ⟨t, ht⟩ := hmerges.source hj
    obtain ⟨c', run, hc', -, hcopied⟩ := hmerges.copy ht
    cases hj.symm.trans hc'
    have hle := UInt32.le_iff_toNat_le.mp (hboundary m hm t (List.mem_of_getElem? ht))
    have hshift := hmerges.prepares.localShift
    have hsat := Word.toNat_saturate_le (t.boundary.toNat + p.relocation.localShift.toNat)
    rw [hcopied.script]
    simp only
    omega

/-- The scripts of a longer link are those of a shorter one with their locals further up. -/
theorem exists_raised {n : Nat} {ss ts : List Script} (h : ss.map (Script.raise n) <+: ts)
    (hroom : ∀ s ∈ ss, s.boundary.toNat + n < 0x100000000) {k : Nat} {s : Script}
    (hs : ss[k]? = some s) :
    ∃ s', ts[k]? = some s' ∧ s' = { s with boundary := s'.boundary } ∧
      s'.boundary.toNat = s.boundary.toNat + n := by
  obtain ⟨rest, rfl⟩ := h
  have hlt := (List.getElem?_eq_some_iff.mp hs).1
  refine ⟨s.raise n, ?_, rfl, Word.toNat_saturate (hroom s (List.mem_of_getElem? hs))⟩
  rw [List.getElem?_append_left (by rwa [List.length_map]), List.getElem?_map, hs]
  rfl

/-- An instruction of the shorter link is that of the longer one, unless it names a local. -/
theorem raised_of_append {c e : Draft} {i j pc : Nat} (hc : mergeAll share total' {} ms = .ok c)
    (he : mergeAll share total {} (ms ++ rest) = .ok e)
    (htotal : total.toNat = total'.toNat + slotSum rest)
    (hslots : ∀ m ∈ ms, m.image.globals.slots ≤ total') {o : Origin} (ho : o.At ms i j pc) :
    ∃ ins ins', c.code[pc]? = some ins ∧ e.code[pc]? = some ins' ∧
      Raised (slotSum rest) o.script o.run o.position o.instruction ins ins' := by
  have hi := (List.getElem?_eq_some_iff.mp ho.module).1
  have htake : (ms ++ rest).take i = ms.take i := List.take_append_of_le_length hi.le
  obtain ⟨b, a, p, cs, b', a', p', cs', ins, ins', hstep, hstep', hins, hins', hcases⟩ :=
    raised_of_origin htotal hslots htake he hc (ho.append rest) ho
  refine ⟨ins', ins, hins', hins, ?_⟩
  rcases hcases with ⟨-, hraised⟩ | ⟨-, v, new, new', hv, -, hlookup, hlookup', rfl, rfl⟩
  · exact hraised
  · -- one text, to which both links give one offset
    rw [hstep.texts_eq htake hstep', hlookup', Option.some.injEq] at hlookup
    subst hlookup
    refine .same (fun w hw => ?_) fun _ w hw => ?_
    · cases hv.symm.trans hw
    · obtain ⟨-, x, hx⟩ := Instruction.opcode_of_floatVariable? hw
      cases hv.symm.trans hx

end Draft

/-! ### Links with more modules behind -/

/-- The image of modules and that of a link with more modules behind them, which take `n` slots. All
that the image has stands in front in the longer one, except that locals are `n` slots further
up. -/
structure Image.Extended (n : Nat) (modules : List ObjectModule) (image longer : Image) : Prop where
  version : image.version = longer.version
  globals : image.globals.entries <+: longer.globals.entries
  starts : image.globals.starts <+: longer.globals.starts
  inits : image.inits <+: longer.inits
  autostart : image.autostart <+: longer.autostart
  bytes : image.data.bytes <+: longer.data.bytes
  texts : image.data.entries <+: longer.data.entries
  scripts : ∀ (k : Nat) (s : Script), image.scripts[k]? = some s →
    ∃ s', longer.scripts[k]? = some s' ∧ s' = { s with boundary := s'.boundary } ∧
      s'.boundary.toNat = s.boundary.toNat + n
  code : ∀ pc < image.code.length, ∃ (o : Origin) (i j : Nat) (ins ins' : Instruction),
    o.At modules i j pc ∧ image.code[pc]? = some ins ∧ longer.code[pc]? = some ins' ∧
      Raised n o.script o.run o.position o.instruction ins ins'

/-- Later modules only extend a link. If modules can be linked with others behind them and without
build information, they can be linked alone, and their image is extended by the others. -/
theorem link_append {options : LinkOptions} {ms rest : List ObjectModule} {whole : Linked}
    (hdebug : options.debugMetadata = false)
    (hboundary : ∀ m ∈ ms, ∀ s ∈ m.image.scripts, s.boundary ≤ m.image.globals.slots)
    (h : link options (ms ++ rest) = .ok whole) :
    ∃ first, link options ms = .ok first ∧
      first.image.Extended (slotSum rest) ms whole.image := by
  obtain ⟨total, e, htotal, he, rfl⟩ := link_eq_ok_iff.mp h
  obtain ⟨part, hpart, hsum⟩ := totalSlots_of_append htotal
  obtain ⟨b, hb, hrest⟩ := Draft.mergeAll_append_eq_ok_iff.mp he
  have hslots : ∀ m ∈ ms, m.image.globals.slots ≤ part := fun m => slots_le_of_totalSlots hpart
  -- the shorter link meets no error that the longer one does not meet
  obtain ⟨c, hc, hahead⟩ :=
    (Draft.mergeAll_alike (.empty (slotSum rest)) hsum hslots).exists_ok hb
  have hmerged := Draft.merged_of_mergeAll Draft.sound_empty hc
  have hbefore := Draft.merged_of_mergeAll Draft.sound_empty hb
  have hafter := Draft.merged_of_mergeAll hbefore.sound hrest
  have hgrows := hafter.grows
  obtain ⟨hentries, hstarts⟩ := hbefore.sound.declared.consistent.grows
    hafter.sound.declared.consistent hgrows.globals
  obtain ⟨hbytes, htexts⟩ := Draft.data_of_mergeAll_append hc he
  have hinits := hgrows.inits
  have hautostart := hgrows.autostart
  rw [hahead.globals] at hentries hstarts
  rw [hahead.inits] at hinits
  rw [hahead.autostart] at hautostart
  refine ⟨_, link_eq_ok_iff.mpr ⟨part, c, hpart, hc, rfl⟩, rfl, hentries, hstarts, hinits,
    hautostart, ?_, ?_, ?_, ?_⟩
  · rw [hdebug]
    exact hbytes
  · rw [hdebug]
    exact htexts
  · have hmax : maxSlot = 0x7FFFFFFF := rfl
    have hbound := (totalSlots_eq_ok_iff.mp htotal).2
    intro k s hs
    refine Draft.exists_raised (hahead.scripts ▸ hgrows.scripts) (fun t ht => ?_) hs
    have hle := Draft.boundary_le_of_mergeAll hboundary hc t ht
    omega
  · intro pc hpc
    obtain ⟨o, i, j, ho⟩ := Draft.exists_origin hc hpc
    obtain ⟨ins, ins', hins, hins', hraised⟩ := Draft.raised_of_append hc he hsum hslots ho
    exact ⟨o, i, j, ins, ins', ho, hins, hins', hraised⟩

namespace Sample

/-- Two slots that no other module uses. -/
def spare : ObjectModule where
  name := "spare"
  image := { globals := { entries := [("spare", ⟨"spare", 2⟩)], starts := [1], slots := 2 } }

/-- Two slots behind the modules move the boundary and the local of the reader. -/
theorem extended : ∃ first whole, link {} modules = .ok first ∧
    link {} (modules ++ [spare]) = .ok whole ∧
    first.image.globals.entries <+: whole.image.globals.entries ∧
    (∃ s s', first.image.scripts[0]? = some s ∧ whole.image.scripts[0]? = some s' ∧
      s'.boundary.toNat = s.boundary.toNat + 2) ∧
    ∃ o : Origin, Raised 2 o.script o.run o.position o.instruction (.store (.internal 5))
      (.store (.internal 7)) := by
  obtain ⟨whole, h, hlong⟩ : ∃ whole, link {} (modules ++ [spare]) = .ok whole ∧
      whole.image.code[4]? = some (.store (.internal 7)) := exists_ok (by decide +kernel)
  obtain ⟨first, h', hshort, hcount⟩ : ∃ first, link {} modules = .ok first ∧
      first.image.code[4]? = some (.store (.internal 5)) ∧ first.image.scripts.length = 1 :=
    exists_ok (by decide +kernel)
  obtain ⟨_, hfirst, hextended⟩ := link_append rfl (by decide) h
  cases hfirst.symm.trans h'
  obtain ⟨s', hs', -, hboundary⟩ :=
    hextended.scripts 0 _ (List.getElem?_eq_getElem (by rw [hcount]; exact Nat.one_pos))
  obtain ⟨o, i, j, ins, ins', -, hins, hins', hraised⟩ :=
    hextended.code 4 (List.getElem?_eq_some_iff.mp hshort).1
  cases hins.symm.trans hshort
  cases hins'.symm.trans hlong
  exact ⟨first, whole, h', h, hextended.globals,
    ⟨_, s', List.getElem?_eq_getElem _, hs', hboundary⟩, o, hraised⟩

end Sample

end ScriptImage
