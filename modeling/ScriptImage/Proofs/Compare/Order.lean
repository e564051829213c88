import ScriptImage.Proofs.Codec.Modules
import ScriptImage.Proofs.Compare.Operands
import ScriptImage.Proofs.Compare.Parts
import ScriptImage.Proofs.Link.Meaning

/-!
Images of the same modules compared by meaning. Whatever the order of the modules and the options of
the links, both images have the same variables, the same scripts under the same names and the same
initial values, and their instructions stand for the same. So nothing is found.
-/

namespace ScriptImage

/-! ### One pair of instructions -/

/-- A text that is found in a section is read from it. -/
theorem DataSection.textAt?_of_holds {d : DataSection} {w : Int32} {t : List UInt8}
    (h : d.Holds w t) : 0 ≤ w.toInt ∧ d.textAt? w.toUInt32 = .ok (some (Utf8.decodeLossy t)) := by
  obtain ⟨hpos, e, he, hbytes⟩ := h
  refine ⟨hpos, ?_⟩
  rw [textAt?, he]
  simp only [textOf, hbytes]
  rfl

theorem Image.sameText_of_holds {a b : Image} {x y : Int32} {t : List UInt8}
    (ha : a.data.Holds x t) (hb : b.data.Holds y t) : a.SameText b x y := by
  obtain ⟨hx, htext⟩ := DataSection.textAt?_of_holds ha
  obtain ⟨hy, htext'⟩ := DataSection.textAt?_of_holds hb
  exact ⟨hx, hy, _, htext, htext'⟩

namespace ScriptPair

variable {p : ScriptPair} {mode : CompareMode} {ta tb run run' : List Instruction}
  {ia ib : Instruction} {μ : Meaning}

/-- A value agrees with itself, unless it is a float that a reference takes a variable from. -/
theorem OperandsAgree.of_value {o : Operand} (ha : ia.operand = o) (hb : ib.operand = o)
    (hown : o.IsValue) (hfeeds : feedsReference ta = true → ∀ x, o ≠ .float x) :
    p.OperandsAgree ta tb ia ib := by
  cases o with
  | none => exact .none ha hb
  | int x => exact .int ha hb
  | float x => exact .float (fun hfed => hfeeds hfed.1 x rfl) ha hb x.numericEq_or_isNaN
  | bool x => exact .bool ha hb
  | address | script | «variable» => exact hown.elim

/-- Operands that stand for the same agree. -/
theorem OperandsAgree.of_means (ha : p.imageA.Means p.a (feedsReference ta) ia μ)
    (hb : p.imageB.Means p.b (feedsReference tb) ib μ) : p.OperandsAgree ta tb ia ib := by
  cases ha with
  | value hoa hown hfeeds =>
      cases hb with
      | value hob => exact .of_value hoa hob hown hfeeds
  | jump hoa hda =>
      cases hb with
      | jump hob hdb => exact .jump hoa hob (hda.trans hdb.symm)
  | script hoa hna =>
      cases hb with
      | script hob hnb => exact .script hoa hob hna hnb
  | «variable» hoa hna =>
      cases hb with
      | «variable» hob hnb => exact .variable hoa hob hna hnb
  | carried hfa hoa hna =>
      cases hb with
      | carried hfb hob hnb => exact .carried hfa hfb hoa hob hna hnb
  | text hoa hta =>
      cases hb with
      | text hob htb => exact .text hoa hob (Image.sameText_of_holds hta htb)

/-! ### Two scripts -/

/-- Scripts that render one script of a module agree. -/
theorem agrees_of_renders {m : ObjectModule} {s : Script} {source source' : List Instruction}
    (hmode : mode ≠ .strict) (ha : p.imageA.Renders m s p.a source run)
    (hb : p.imageB.Renders m s p.b source' run') :
    p.Agrees mode (p.imageA.code.drop p.a.address.toNat)
      (p.imageB.code.drop p.b.address.toNat) := by
  obtain rfl : source = source' := Option.some.inj (ha.closed.symm.trans hb.closed)
  refine Matches.agrees ⟨ha.closed', hb.closed', ha.length.trans hb.length.symm, ?_⟩
  intro k ja jb hja hjb hna hnb
  have hlt := lt_of_closedRun? (closedRun?_self ha.closed') hja hna
  rw [ha.length] at hlt
  have hsource := List.getElem?_eq_getElem (Nat.lt_of_succ_lt hlt)
  obtain ⟨ia, μ, hia, hfieldsA, hμ, hmeansA⟩ := ha.means k _ hsource hlt
  obtain ⟨ib, μ', hib, hfieldsB, hμ', hmeansB⟩ := hb.means k _ hsource hlt
  cases hja.symm.trans hia
  cases hjb.symm.trans hib
  cases hμ.symm.trans hμ'
  rw [← List.drop_drop] at hmeansA hmeansB
  have hheadA := head?_drop_of_closedRun? ha.closed' hja
  have hheadB := head?_drop_of_closedRun? hb.closed' hjb
  rw [step_meaning_iff hmode hheadA hheadB]
  refine ⟨?_, ?_, ?_, .of_means hmeansA hmeansB⟩
  all_goals rw [hfieldsA, hfieldsB]

end ScriptPair

/-! ### Two images -/

namespace CompareOptions

variable {o : CompareOptions} {a b : Image}

/-- By name the same scripts are started when all of them have names and the names are the same. -/
theorem autostartFindings_eq_nil (hmode : o.mode ≠ .strict)
    (ha : ∀ r ∈ a.autostart, ∃ name, a.scriptName? r = some name)
    (hb : ∀ r ∈ b.autostart, ∃ name, b.scriptName? r = some name)
    (hnames : ∀ name, (∃ r ∈ a.autostart, a.scriptName? r = some name) ↔
      ∃ r ∈ b.autostart, b.scriptName? r = some name) : o.autostartFindings a b = [] :=
  (autostartFindings_iff hmode).mpr ⟨ha, hb, hnames⟩

/-- By name the same initial values are found when each has a name of its own. Only a NaN differs
from itself. -/
theorem initFindings_eq_nil (hmode : o.mode ≠ .strict) (hperm : a.inits.Perm b.inits)
    (hnodup : (a.inits.map Initializer.name).Nodup)
    (hnan : ∀ x ∈ a.inits, ∀ v, x.value = .number v → v.isNaN = false) :
    o.initFindings a b = [] := by
  have hnodup' := (hperm.map Initializer.name).nodup_iff.mp hnodup
  rw [initFindings, if_neg hmode, List.filterMap_eq_nil_iff]
  intro x hx
  have hself : x.value.valueEq x.value = true := by
    cases hv : x.value with
    | number v => exact Binary32.numericEq_self_iff.mpr (hnan x hx v hv)
    | expression e => exact beq_self_eq_true _
  rw [find?_of_nodup hnodup' (hperm.subset hx)]
  simp only [hself, if_true]

end CompareOptions

/-! ### Two links -/

section

variable {oa ob : LinkOptions} {ms ns : List ObjectModule} {la lb : Linked} {o : CompareOptions}

/-- What a link leaves of its scripts is the same in any order of the modules. -/
theorem heads_perm (ha : link oa ms = .ok la) (hb : link ob ns = .ok lb) (h : ms.Perm ns) :
    (la.image.scripts.map Script.head).Perm (lb.image.scripts.map Script.head) := by
  obtain ⟨ea, hmerged, rfl⟩ := merged_of_link ha
  obtain ⟨eb, hmerged', rfl⟩ := merged_of_link hb
  change (ea.scripts.map Script.head).Perm (eb.scripts.map Script.head)
  rw [hmerged.heads, hmerged'.heads]
  exact ((List.Perm.flatMap_right _ h).map Script.head).append_left _

theorem vars_perm (ha : link oa ms = .ok la) (hb : link ob ns = .ok lb) (h : ms.Perm ns) :
    la.image.globals.vars.Perm lb.image.globals.vars := by
  obtain ⟨ea, hmerged, rfl⟩ := merged_of_link ha
  obtain ⟨eb, hmerged', rfl⟩ := merged_of_link hb
  change ea.globals.vars.Perm eb.globals.vars
  rw [hmerged.vars, hmerged'.vars]
  exact (List.Perm.flatMap_right _ h).append_left _

theorem inits_perm (ha : link oa ms = .ok la) (hb : link ob ns = .ok lb) (h : ms.Perm ns) :
    la.image.inits.Perm lb.image.inits := by
  obtain ⟨_, ea, -, hea, rfl⟩ := link_eq_ok_iff.mp ha
  obtain ⟨_, eb, -, heb, rfl⟩ := link_eq_ok_iff.mp hb
  change ea.inits.Perm eb.inits
  rw [Draft.inits_of_mergeAll hea, Draft.inits_of_mergeAll heb]
  exact (List.Perm.flatMap_right _ h).append_left _

/-- Every script that is started at load time has a name. -/
theorem exists_scriptName? (h : link oa ms = .ok la) {r : SymbolRef} (hr : r ∈ la.image.autostart) :
    ∃ name, la.image.scriptName? r = some name := by
  obtain ⟨total, e, -, he, rfl⟩ := link_eq_ok_iff.mp h
  obtain ⟨i, m, b, a, p, cs, r, new, hstep, -, hnew, rfl⟩ := Draft.exists_autostart he hr
  obtain ⟨name, -, hname⟩ := hstep.scriptName? oa.debugMetadata hnew
  exact ⟨name, hname⟩

/-- The same names are started at load time in any order of the modules. -/
theorem autostart_names_iff (ha : link oa ms = .ok la) (hb : link ob ns = .ok lb) (h : ms.Perm ns)
    {name : String} : (∃ r ∈ la.image.autostart, la.image.scriptName? r = some name) ↔
      ∃ r ∈ lb.image.autostart, lb.image.scriptName? r = some name := by
  obtain ⟨_, ea, -, hea, rfl⟩ := link_eq_ok_iff.mp ha
  obtain ⟨_, eb, -, heb, rfl⟩ := link_eq_ok_iff.mp hb
  refine (Draft.mem_autostart_names_iff hea oa.debugMetadata).trans
    (Iff.trans ?_ (Draft.mem_autostart_names_iff heb ob.debugMetadata).symm)
  simp only [h.mem_iff]

/-- A script finds its partner by name, since both render the same script of the same module. -/
theorem ReadableLink.findsNothing (ha : ReadableLink oa ms la) (hb : ReadableLink ob ns lb)
    (hsub : ms ⊆ ns) (hmode : o.mode ≠ .strict) (hnodup : (lb.image.scripts.map Script.name).Nodup)
    {s : Script} (hs : s ∈ la.image.scripts) :
    FindsNothing (o.scriptEntries la.image lb.image s) := by
  obtain ⟨m, hm, source, hsource, run, runA, hrenders⟩ := ha.exists_renders hs
  obtain ⟨i, hi⟩ := List.mem_iff_getElem?.mp (hsub hm)
  obtain ⟨j, hj⟩ := List.mem_iff_getElem?.mp hsource
  obtain ⟨t, run', runB, ht, hrenders'⟩ := hb.renders hi hj
  have hhead : s.head = t.head := hrenders.head.trans hrenders'.head.symm
  have hname : s.name = t.name := congrArg ScriptHead.name hhead
  have hfound : lb.image.scriptByName? s.name = some t := by
    rw [hname]
    exact find?_of_nodup hnodup (List.mem_of_getElem? ht)
  refine CompareOptions.findsNothing_scriptEntries_iff.mpr ⟨t, hfound,
    ScriptPair.findsNothing_compare_iff.mpr ⟨?_, ScriptPair.agrees_of_renders hmode hrenders
      hrenders'⟩⟩
  exact (ScriptPair.headerFindings_eq_nil_iff hmode).mpr
    ⟨congrArg ScriptHead.params hhead, congrArg ScriptHead.locals hhead⟩

/-- A link of modules that were read. -/
theorem readableLink_of_decode (hread : ∀ m ∈ ms, ∃ bs, ObjectModule.decode bs = .ok m)
    (h : link oa ms = .ok la) (hcode : la.image.code.length < 0x100000000)
    (hdata : la.image.data.size < 0x80000000)
    (hexact : ∀ id, CarriesId ms la.image id → id.toNat ≤ 0x1000000) : ReadableLink oa ms la := by
  have hstorable := ObjectModule.storable_of_read hread
  refine ⟨h, fun m hm => (hstorable m hm).image.globals.declared, fun m hm => ?_, hcode, hdata,
    hexact⟩
  rw [← (hstorable m hm).image.data]
  exact DataSection.consistent_ofBytes (hstorable m hm).image.bytes

/-- The order of the modules and the options of a link are invisible by meaning. However modules
that were read are ordered, nothing is found between the images when each script and each initial
value has a name of its own, no initial value is a NaN, and the floats before references carry their
ids. -/
theorem compare_permuted (hmode : o.mode ≠ .strict) (hlimit : 1 ≤ o.maxMismatches)
    (hread : ∀ m ∈ ms, ∃ bs, ObjectModule.decode bs = .ok m)
    (hperm : ms.Perm ns) (ha : link oa ms = .ok la) (hb : link ob ns = .ok lb)
    (hcodeA : la.image.code.length < 0x100000000) (hcodeB : lb.image.code.length < 0x100000000)
    (hdataA : la.image.data.size < 0x80000000) (hdataB : lb.image.data.size < 0x80000000)
    (hscripts : (la.image.scripts.map Script.name).Nodup)
    (hinits : (la.image.inits.map Initializer.name).Nodup)
    (hnan : ∀ x ∈ la.image.inits, ∀ v, x.value = .number v → v.isNaN = false)
    (hexactA : ∀ id, CarriesId ms la.image id → id.toNat ≤ 0x1000000)
    (hexactB : ∀ id, CarriesId ns lb.image id → id.toNat ≤ 0x1000000) :
    ∃ c, compareImages o la.image lb.image = .ok c ∧ c.equal = true ∧ c.report = [] := by
  have hra := readableLink_of_decode hread ha hcodeA hdataA hexactA
  have hrb := readableLink_of_decode (fun m hm => hread m (hperm.mem_iff.mpr hm)) hb hcodeB hdataB
    hexactB
  have hheads := heads_perm ha hb hperm
  have hnames : (la.image.scripts.map Script.name).Perm (lb.image.scripts.map Script.name) := by
    have hmap := hheads.map ScriptHead.name
    rwa [List.map_map, List.map_map] at hmap
  have hcount : la.image.scripts.length = lb.image.scripts.length := by
    simpa only [List.length_map] using hheads.length_eq
  have hversion : la.image.version = lb.image.version := by
    obtain ⟨_, -, rfl⟩ := merged_of_link ha
    obtain ⟨_, -, rfl⟩ := merged_of_link hb
    rfl
  have hnone := CompareOptions.initFindings_eq_nil hmode (inits_perm ha hb hperm) hinits hnan
  have haccepts : o.Accepts la.image lb.image := by
    refine ⟨hversion, ?_, if_pos hcount, fun s hs _ => ⟨hlimit, ?_⟩, ?_, if_pos (.inl hmode), ?_⟩
    · exact CompareOptions.globalFindings_eq_nil hmode (sound_of_link ha).declared.consistent
        (sound_of_link hb).declared.consistent (vars_perm ha hb hperm).subset
    · exact hra.findsNothing hrb hperm.subset hmode (hnames.nodup_iff.mp hscripts) hs
    · exact CompareOptions.autostartFindings_eq_nil hmode (fun r => exists_scriptName? ha)
        (fun r => exists_scriptName? hb) fun name => autostart_names_iff ha hb hperm
    · simp [hnone]
  obtain ⟨c, hc, hreport⟩ := haccepts.exists_report
  rw [hnone, List.map_nil] at hreport
  exact ⟨c, hc, by rw [Comparison.equal, hreport]; rfl, hreport⟩

namespace Sample

/-- Pushes the second of the texts `hi` and `ho`, and has two slots of its own. -/
def herald : ObjectModule where
  name := "herald"
  image := {
    globals := { entries := [("posts", ⟨"posts", 2⟩)], starts := [1], slots := 2 }
    scripts := [{ main with name := "greet", boundary := 2, locals := [] }]
    code := [.pushInt 3, .sys 1, .endRun]
    data := .ofBytes [104, 105, 0, 104, 111, 0] }
  textPushes := [0]

/-- A module that is moved to the front moves the variables and the code of the reader. -/
theorem permuted : ∃ l l' c, link {} [table, reader, herald] = .ok l ∧
    link { sharedTexts := true, debugMetadata := true } [herald, table, reader] = .ok l' ∧
      l.image.code[0]? = some (.pushVarId (.internal 4)) ∧
        l'.image.code[3]? = some (.pushVarId (.internal 6)) ∧
          compareImages {} l.image l'.image = .ok c ∧ c.equal = true ∧ c.report = [] := by
  obtain ⟨l, h, hfirst, hcode, hdata, hscripts, hinits⟩ :
      ∃ l, link {} [table, reader, herald] = .ok l ∧
        l.image.code[0]? = some (.pushVarId (.internal 4)) ∧ l.image.code.length < 0x100000000 ∧
          l.image.data.size < 0x80000000 ∧ (l.image.scripts.map Script.name).Nodup ∧
            l.image.inits = [.null] := exists_ok (by decide +kernel)
  obtain ⟨l', h', hmoved, hcode', hdata'⟩ : ∃ l',
      link { sharedTexts := true, debugMetadata := true } [herald, table, reader] = .ok l' ∧
        l'.image.code[3]? = some (.pushVarId (.internal 6)) ∧
          l'.image.code.length < 0x100000000 ∧ l'.image.data.size < 0x80000000 :=
    exists_ok (by decide +kernel)
  have hread : ∀ m ∈ [table, reader, herald], ∃ bs, ObjectModule.decode bs = .ok m := by
    have hall : ∀ m ∈ [table, reader, herald],
        (ObjectModule.decode m.encode).toOption = some m := by decide +kernel
    exact fun m hm => ⟨m.encode, toOption_eq_some.mp (hall m hm)⟩
  have hnull : ∀ x ∈ l.image.inits, ∀ v, x.value = .number v → v.isNaN = false := by
    rw [hinits, List.forall_mem_singleton]
    rintro v ⟨⟩
    decide
  obtain ⟨c, hc, hequal, hreport⟩ := compare_permuted (o := {}) (by decide) (by decide) hread
    (by decide) h h' hcode hcode' hdata hdata' hscripts (by rw [hinits]; decide) hnull
    (fun _ => carriesId_le (by decide) (by decide)) (fun _ => carriesId_le (by decide) (by decide))
  exact ⟨l, l', c, h, h', hfirst, hmoved, hc, hequal, hreport⟩

end Sample

end

end ScriptImage
