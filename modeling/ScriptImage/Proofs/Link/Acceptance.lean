import ScriptImage.Proofs.Link.Resolution

/-!
Which modules can be linked. Merging a module succeeds exactly when the modules before it define
what it imports, its own tables have what its scripts name, and its jumps stay inside the code; a
link succeeds exactly when this holds of each of its modules and all slots fit.
-/

namespace ScriptImage

/-- What lets a module be merged after others, when all modules of the link take `total` slots. -/
structure ObjectModule.LinksAfter (m : ObjectModule) (total : Nat) (earlier : List ObjectModule) :
    Prop where
  /-- The next script id is a word. A script takes at least one instruction, so this can only fail
  behind code of the greatest length that can be addressed, with nothing but single instructions. -/
  numbered : (allScripts earlier).length + 1 < 0x100000000
  /-- No global has the name of an earlier one. -/
  names : ∀ v ∈ m.image.globals.vars, ∀ w ∈ allVars earlier, w.name ≠ v.name
  /-- Imported variables are earlier ones, or elements of earlier arrays. -/
  importedVars : ∀ v ∈ m.importedVars, ∃ w ∈ allVars earlier, w.name = v.name ∧
    (v.index = 0 ∨ w.isArray = true ∧ v.index < w.size)
  /-- The first earlier script of its name has the parameters that an import declares. -/
  importedScripts : ∀ v ∈ m.importedScripts, ∃ t,
    (allScripts earlier).find? (fun t => t.name == v.name) = some t ∧ t.params = v.params
  /-- Scripts are closed runs whose instructions have all they need. -/
  scripts : ∀ (j : Nat) (s : Script), m.image.scripts[j]? = some s → ∃ run,
    m.image.scriptCode? s = some run ∧ ∀ (k : Nat) (i : Instruction), run[k]? = some i →
      m.Admits total s (copiedLength earlier + pieceStart m.runOf m.image.scripts j)
        (copiedLength (earlier ++ [m])) run k i
  /-- What starts at load time exists. -/
  autostart : ∀ r ∈ m.image.autostart, m.HasScript r

/-- Modules that can be linked in order. -/
structure Linkable (modules : List ObjectModule) : Prop where
  slots : slotSum modules ≤ maxSlot
  modules : ∀ (i : Nat) (m : ObjectModule), modules[i]? = some m →
    m.LinksAfter (slotSum modules) (modules.take i)

theorem copiedLength_append (ms ns : List ObjectModule) :
    copiedLength (ms ++ ns) = copiedLength ms + copiedLength ns := by
  simp [copiedLength, allRuns]

theorem copiedLength_singleton (m : ObjectModule) :
    copiedLength [m] = (m.image.scripts.flatMap m.runOf).length := by
  rw [copiedLength, allRuns_cons, allRuns_nil, List.append_nil, List.flatMap_def]

/-- Lists of scripts with the same heads have the same first script of a name, up to its head. -/
theorem find?_name_of_heads {ss ts : List Script} (h : ss.map Script.head = ts.map Script.head)
    {name : String} {s : Script} (hs : ss.find? (fun t => t.name == name) = some s) :
    ∃ t, ts.find? (fun t => t.name == name) = some t ∧ t.params = s.params := by
  have hmap := congrArg (List.find? fun x : ScriptHead => x.name == name) h
  rw [List.find?_map, List.find?_map] at hmap
  change (ss.find? fun t => t.name == name).map Script.head =
    (ts.find? fun t => t.name == name).map Script.head at hmap
  rw [hs, Option.map_some, eq_comm, Option.map_eq_some_iff] at hmap
  obtain ⟨t, ht, hhead⟩ := hmap
  exact ⟨t, ht, congrArg ScriptHead.params hhead⟩

namespace Draft

variable {share : Bool} {total : UInt32} {d d' : Draft} {m : ObjectModule} {p : Prepared}
  {cs : List CopiedScript} {ts : List (List UInt8)} {earlier : List ObjectModule}

/-! ### Preparing a module -/

/-- A module that was prepared has all its symbols covered. -/
theorem Prepares.covers (h : Prepares share total d m p) (hd : d.globals.Declared)
    (hm : m.image.globals.Declared) (hstores : d.texts.Stores share ts) :
    p.relocation.Covers total.toNat m := by
  obtain ⟨hdeclared, hvars⟩ := foldlM_declareGlobal hd h.globals
  refine ⟨h.slots, ?_, h.localShift, mapM_length h.importedVars, mapM_length h.importedScripts,
    ?_, ?_⟩
  · have hbounded := hdeclared.consistent.bounded
    have hown := hm.consistent.slots
    have hbefore := hd.consistent.slots
    rw [hvars, slotsOf_append] at hbounded
    rw [h.globalOffset]
    omega
  · intro id
    rw [h.scriptIds]
    constructor
    · rintro ⟨new, hnew⟩
      obtain ⟨⟨s, i⟩, hs, heq⟩ := List.mem_map.mp (List.mem_reverse.mp (mem_of_lookup hnew))
      cases heq
      exact ⟨s, List.mem_of_getElem? (List.mem_zipIdx_iff_getElem?.mp hs), rfl⟩
    · rintro ⟨s, hs, rfl⟩
      obtain ⟨i, hi⟩ := List.mem_iff_getElem?.mp hs
      refine exists_lookup (List.mem_reverse.mpr (List.mem_map.mpr ⟨(s, i), ?_, rfl⟩))
      exact List.mem_zipIdx_iff_getElem?.mpr hi
  · intro offset
    obtain ⟨us, moves, hus, -, hadds, htexts, -⟩ := h.adds hstores
    rw [htexts]
    constructor
    · rintro ⟨new, hnew⟩
      obtain ⟨x, hx, hoffset, hplain, -⟩ := hadds.mem_offsets rfl (mem_of_lookup hnew)
      obtain ⟨he, ht⟩ := (DataSection.mem_zip_texts_iff hus).mp hx
      exact ⟨x.1, he, hoffset, x.2, ht, hplain⟩
    · rintro ⟨e, he, rfl, t, ht, hplain⟩
      obtain ⟨new, hnew⟩ := hadds.exists_offset
        ((DataSection.mem_zip_texts_iff (x := (e, t)) hus).mpr ⟨he, ht⟩) hplain
      exact exists_lookup hnew

/-- Closed runs are not empty, so there are at most as many scripts as instructions. -/
theorem length_le_flatMap {m : ObjectModule} {ss : List Script}
    (h : ∀ s ∈ ss, ∃ run, m.image.scriptCode? s = some run) :
    ss.length ≤ (ss.flatMap m.runOf).length := by
  induction ss with
  | nil => exact Nat.le_refl 0
  | cons s ss ih =>
      obtain ⟨run, hrun⟩ := h s List.mem_cons_self
      have hrest := ih fun t ht => h t (List.mem_cons_of_mem _ ht)
      have hpos := length_pos_of_closedRun? hrun
      rw [List.flatMap_cons, List.length_append, List.length_cons, ObjectModule.runOf, hrun]
      simp only [Option.getD_some]
      omega

/-- A module can be prepared when it declares new names within the slots and its imports resolve. -/
theorem exists_prepare (hd : Merged {} earlier d) (hm : m.image.globals.Declared)
    (hdata : m.image.data.Consistent) (hlinks : m.LinksAfter total.toNat earlier)
    (hslots : slotsOf (allVars earlier) + m.image.globals.slots.toNat ≤ total.toNat)
    (htotal : total.toNat ≤ maxSlot)
    (hids : d.scripts.length + m.image.scripts.length < 0x100000000) :
    ∃ p, d.prepare share total m = .ok p := by
  have hdeclared := hd.sound.declared
  have hvars : d.globals.vars = allVars earlier := hd.vars
  have hscripts : d.scripts.length = (allScripts earlier).length := by
    rw [hd.scripts]
    exact Nat.zero_add _
  have hheads : (allScripts earlier).map Script.head = d.scripts.map Script.head :=
    hd.heads.symm
  have hown := hm.consistent
  have hownSlots := hown.slots
  have hnumbered := hlinks.numbered
  have hcount := Word.toNat_saturate (n := d.scripts.length) (by omega)
  obtain ⟨first, hfirst, hfirstNat⟩ := Word.exists_add (a := Word.saturate d.scripts.length)
    (b := 1) (by rw [UInt32.toNat_one]; omega)
  obtain ⟨us, hus⟩ := hdata.exists_texts
  obtain ⟨vars, hvarIds⟩ : ∃ vars, m.importedVars.mapM (resolveVar d.globals) = .ok vars := by
    refine exists_mapM fun v hv => (exists_resolveVar_iff hdeclared.consistent).mpr ?_
    rw [hvars]
    exact hlinks.importedVars v hv
  obtain ⟨globals, hglobals⟩ : ∃ globals,
      m.image.globals.vars.foldlM declareGlobal d.globals = .ok globals := by
    refine exists_foldlM_declareGlobal hdeclared ?_ ?_
    · rw [List.map_append]
      refine List.nodup_append.mpr ⟨hdeclared.consistent.nodup, hown.nodup, ?_⟩
      rintro name hname name' hname' rfl
      obtain ⟨w, hw, hwname⟩ := List.mem_map.mp hname
      obtain ⟨v, hv, hvname⟩ := List.mem_map.mp hname'
      exact hlinks.names v hv w (hvars ▸ hw) (hwname.trans hvname.symm)
    · rw [slotsOf_append, hvars]
      omega
  obtain ⟨scripts, hscriptIds⟩ : ∃ scripts,
      m.importedScripts.mapM (resolveScript d.scripts) = .ok scripts := by
    refine exists_mapM fun v hv => ?_
    obtain ⟨t, ht, hparams⟩ := hlinks.importedScripts v hv
    obtain ⟨u, hu, huparams⟩ := find?_name_of_heads hheads ht
    exact ⟨u.id, resolveScript_eq_ok_iff.mpr ⟨u, hu, huparams.trans hparams, rfl⟩⟩
  rw [UInt32.toNat_one] at hfirstNat
  obtain ⟨ids, hnewIds⟩ := exists_scriptIds first m.image.scripts (by omega)
  obtain ⟨shift, hshift⟩ : ∃ shift, Word.sub total m.image.globals.slots = .ok shift := by
    refine ⟨total - m.image.globals.slots, Word.sub_eq_ok_iff.mpr ?_⟩
    rw [Word.toNat_sub (by omega)]
    omega
  obtain ⟨⟨texts, moves⟩, hmerge⟩ : ∃ r, d.texts.merge share m.image.data = .ok r :=
    ⟨_, TextPool.merge_eq_ok_iff.mpr ⟨us, hus, rfl⟩⟩
  simp only [prepare, bind_eq_ok, liftM_eq_ok, pure_eq_ok]
  exact ⟨_, first, hfirst, (texts, moves), hmerge, vars, hvarIds, globals, hglobals, scripts,
    hscriptIds, ids, hnewIds, shift, hshift, rfl⟩

/-! ### Copying scripts -/

/-- Each run of a module that has all it needs can be moved to where it comes to stand. -/
theorem exists_movedRun {r : Relocation} (hlinks : m.LinksAfter total.toNat earlier)
    (hcovers : r.Covers total.toNat m) (hm : m.image.globals.Declared)
    (hdata : m.image.data.Consistent) (hown : m.image.code.length < 0x100000000)
    (hcode : copiedLength (earlier ++ [m]) < 0x100000000) {j : Nat} {s : Script}
    (hs : m.image.scripts[j]? = some s) :
    ∃ run ms, m.image.scriptCode? s = some run ∧ r.moveRun m.textPushes s
      (Word.saturate (copiedLength earlier + pieceStart m.runOf m.image.scripts j)) run =
        .ok ms := by
  obtain ⟨run, hrun, hadmits⟩ := hlinks.scripts j s hs
  have hpiece := pieceStart_add_length_le (f := m.runOf) hs
  rw [ObjectModule.runOf, hrun, Option.getD_some] at hpiece
  have hinside := (prefix_of_closedRun? hrun).length_le
  rw [List.length_drop] at hinside
  have hpos := length_pos_of_closedRun? hrun
  have hstop := copiedLength_append earlier [m]
  rw [copiedLength_singleton] at hstop
  obtain ⟨ms, hms⟩ := hcovers.exists_moveRun hm hdata hcode (by omega) (by omega) hadmits
  exact ⟨run, ms, hrun, hms⟩

/-- Scripts can be copied when their runs can be moved to where they come to stand. -/
theorem exists_copyScripts {r : Relocation} {first : UInt32} {i length : Nat} {ss : List Script}
    (hids : first.toNat + i + ss.length ≤ 0x100000000)
    (hruns : ∀ (j : Nat) (s : Script), ss[j]? = some s → ∃ run ms,
      m.image.scriptCode? s = some run ∧
        r.moveRun m.textPushes s (Word.saturate (length + pieceStart m.runOf ss j)) run = .ok ms) :
    ∃ cs, copyScripts r m first i length ss = .ok cs := by
  induction ss generalizing i length with
  | nil => exact ⟨[], rfl⟩
  | cons s ss ih =>
      rw [List.length_cons] at hids
      have hi := Word.toNat_saturate (n := i) (by omega)
      obtain ⟨id, hid, -⟩ := Word.exists_add (a := first) (b := Word.saturate i) (by omega)
      obtain ⟨run, ms, hrun, hmove⟩ := hruns 0 s rfl
      rw [pieceStart_zero, Nat.add_zero] at hmove
      have hlength : ms.length = (m.runOf s).length := by
        rw [Relocation.moveRun_length hmove, ObjectModule.runOf, hrun, Option.getD_some]
      have hrest : ∀ (j : Nat) (t : Script), ss[j]? = some t → ∃ run ms',
          m.image.scriptCode? t = some run ∧ r.moveRun m.textPushes t
            (Word.saturate (length + ms.length + pieceStart m.runOf ss j)) run = .ok ms' := by
        intro j t ht
        obtain ⟨run', ms', hrun', hmove'⟩ := hruns (j + 1) t ht
        rw [pieceStart_cons_succ, ← Nat.add_assoc, ← hlength] at hmove'
        exact ⟨run', ms', hrun', hmove'⟩
      obtain ⟨cs, hcs⟩ := ih (i := i + 1) (by omega) hrest
      have hcopy : ∃ c, copyScript r m id (Word.saturate length) s = .ok c ∧ c.moved = ms := by
        unfold copyScript
        simp only [hrun, bind_eq_ok, pure_eq_ok]
        exact ⟨_, ⟨ms, hmove, rfl⟩, rfl⟩
      obtain ⟨c, hc, hmoved⟩ := hcopy
      refine ⟨c :: cs, ?_⟩
      simp only [copyScripts, bind_eq_ok, liftM_eq_ok, pure_eq_ok]
      exact ⟨id, hid, c, hc, cs, hmoved ▸ hcs, rfl⟩

/-- Jumps of instructions that have all they need stay inside the code. -/
theorem checkJumps_copies {r : Relocation} {first : UInt32} {base stop n : Nat}
    (hfirst : 0 < first.toNat) (h : copyScripts r m first 0 base m.image.scripts = .ok cs)
    (hstop : stop < 0x100000000)
    (hadmits : ∀ (j : Nat) (s : Script), m.image.scripts[j]? = some s → ∃ run,
      m.image.scriptCode? s = some run ∧ ∀ (k : Nat) (i : Instruction), run[k]? = some i →
        m.Admits n s (base + pieceStart m.runOf m.image.scripts j) stop run k i) :
    checkJumps (Word.saturate stop) ((cs.flatMap CopiedScript.moved).filterMap Moved.jump?) =
      .ok () := by
  rw [checkJumps_eq_ok_iff]
  rintro ⟨address, target⟩ hjump
  obtain ⟨mv, hmv, hjump⟩ := List.mem_filterMap.mp hjump
  obtain ⟨c, hc, hmv⟩ := List.mem_flatMap.mp hmv
  obtain ⟨j, hj⟩ := List.mem_iff_getElem?.mp hc
  obtain ⟨k, hk⟩ := List.mem_iff_getElem?.mp hmv
  -- the jump is that of an instruction of a script
  obtain ⟨s, hs⟩ : ∃ s, m.image.scripts[j]? = some s := by
    have hlt := (List.getElem?_eq_some_iff.mp hj).1
    rw [copyScripts_length h] at hlt
    exact ⟨_, List.getElem?_eq_getElem hlt⟩
  obtain ⟨c', run, hc', -, hcopied⟩ := copyScripts_getElem? hfirst h hs
  rw [hj, Option.some.injEq] at hc'
  subst hc'
  rw [pieceStart_congr (copyScripts_lengths hfirst h)] at hcopied
  obtain ⟨run', hrun', hall⟩ := hadmits j s hs
  rw [hcopied.closed, Option.some.injEq] at hrun'
  subst hrun'
  obtain ⟨i, hi, hmoves⟩ := Relocation.moveRun_source hcopied.moved hk
  have hoperand : mv.after.operand = .address target := by
    unfold Moved.jump? at hjump
    split at hjump
    · rename_i t ht
      cases hjump
      exact ht
    · cases hjump
  have hlt := hmoves.target_lt_of_admits (hall k i hi) hoperand
  rw [UInt32.lt_iff_toNat_lt, Word.toNat_saturate hstop]
  exact hlt

/-! ### Merging a module -/

/-- A module that was merged has all it needs. -/
theorem Merges.linksAfter (h : Merges share total d m d' p cs) (hd : Merged {} earlier d)
    (hstores : d.texts.Stores share ts) (hm : m.image.globals.Declared)
    (hdata : m.image.data.Consistent) (hcode : copiedLength (earlier ++ [m]) < 0x100000000) :
    m.LinksAfter total.toNat earlier := by
  have hdeclared := hd.sound.declared
  have hvars : d.globals.vars = allVars earlier := hd.vars
  have hheads : d.scripts.map Script.head = (allScripts earlier).map Script.head := hd.heads
  have hscripts : d.scripts.length = (allScripts earlier).length := by
    rw [hd.scripts]
    exact Nat.zero_add _
  have hcovers := h.prepares.covers hdeclared hm hstores
  have hend := (hd.step h).code_length
  refine ⟨?_, ?_, ?_, ?_, ?_, ?_⟩
  · have hfirst := h.prepares.firstScriptId
    have hlt := p.firstScriptId.toNat_lt
    omega
  · intro v hv w hw heq
    obtain ⟨hdeclared', hvars'⟩ := h.declared hdeclared
    have hnodup := hdeclared'.consistent.nodup
    rw [hvars', hvars, List.map_append] at hnodup
    exact (List.nodup_append.mp hnodup).2.2 _ (List.mem_map_of_mem hw) _ (List.mem_map_of_mem hv)
      heq
  · intro v hv
    obtain ⟨n, hn⟩ := List.mem_iff_getElem?.mp hv
    obtain ⟨id, -, hid⟩ := mapM_getElem? h.prepares.importedVars hn
    rw [← hvars]
    exact (exists_resolveVar_iff hdeclared.consistent).mp ⟨id, hid⟩
  · intro v hv
    obtain ⟨n, hn⟩ := List.mem_iff_getElem?.mp hv
    obtain ⟨id, -, hid⟩ := mapM_getElem? h.prepares.importedScripts hn
    obtain ⟨t, ht, hparams, -⟩ := resolveScript_eq_ok_iff.mp hid
    obtain ⟨u, hu, huparams⟩ := find?_name_of_heads hheads ht
    exact ⟨u, hu, huparams.trans hparams⟩
  · intro j s hs
    obtain ⟨c, run, hc, -, hcopied⟩ := h.copy hs
    rw [hd.code_length, pieceStart_congr h.lengths] at hcopied
    have hpiece := pieceStart_add_length_le (f := m.runOf) hs
    rw [ObjectModule.runOf, hcopied.closed, Option.getD_some] at hpiece
    rw [copiedLength_append, copiedLength_singleton] at hcode
    refine ⟨run, hcopied.closed, ?_⟩
    intro k i hi
    have hk := (List.getElem?_eq_some_iff.mp hi).1
    obtain ⟨mv, hmv, hmoves⟩ := Relocation.moveRun_getElem? hcopied.moved hi
    refine hcovers.admits_of_moves hm hdata (by omega) (by omega) hmoves ?_
    intro b hb
    rw [← hend]
    exact h.target_lt (List.mem_of_getElem? hc) (List.mem_of_getElem? hmv) hb
  · intro r hr
    obtain ⟨ids, hids, -⟩ := h.autostart
    obtain ⟨n, hn⟩ := List.mem_iff_getElem?.mp hr
    obtain ⟨r', -, hresolve⟩ := mapM_getElem? hids hn
    obtain ⟨id, hid, -⟩ := resolveAutostart_eq_ok_iff.mp hresolve
    exact hcovers.exists_scriptId_iff.mp ⟨id, hid⟩

/-- A module that has all it needs can be merged. -/
theorem exists_merge (hd : Merged {} earlier d) (hstores : d.texts.Stores share ts)
    (hm : m.image.globals.Declared) (hdata : m.image.data.Consistent)
    (hown : m.image.code.length < 0x100000000)
    (hcode : copiedLength (earlier ++ [m]) < 0x100000000)
    (hlinks : m.LinksAfter total.toNat earlier)
    (hslots : slotsOf (allVars earlier) + m.image.globals.slots.toNat ≤ total.toNat)
    (htotal : total.toNat ≤ maxSlot) : ∃ d', d.merge share total m = .ok d' := by
  have hbase := hd.code_length
  have hstop := copiedLength_append earlier [m]
  rw [copiedLength_singleton] at hstop
  have hruns : ∀ s ∈ m.image.scripts, ∃ run, m.image.scriptCode? s = some run := by
    intro s hs
    obtain ⟨j, hj⟩ := List.mem_iff_getElem?.mp hs
    obtain ⟨run, hrun, -⟩ := hlinks.scripts j s hj
    exact ⟨run, hrun⟩
  have hcount := length_le_flatMap hruns
  have hbefore : d.scripts.length ≤ d.code.length := by
    rw [← hd.sound.count]
    exact runs_length_le d.code
  obtain ⟨p, hp⟩ : ∃ p, d.prepare share total m = .ok p :=
    exists_prepare hd hm hdata hlinks hslots htotal (by omega)
  have hprepares := prepares_of_prepare hp
  have hcovers := hprepares.covers hd.sound.declared hm hstores
  have hfirst := hprepares.firstScriptId
  obtain ⟨cs, hcs⟩ : ∃ cs, copyScripts p.relocation m p.firstScriptId 0 d.code.length
      m.image.scripts = .ok cs := by
    rw [hbase]
    exact exists_copyScripts (by omega) fun j s =>
      exists_movedRun hlinks hcovers hm hdata hown hcode
  have hlengths := copyScripts_lengths (by omega) hcs
  have hlength : (d.code ++ cs.flatMap CopiedScript.code).length =
      copiedLength (earlier ++ [m]) := by
    rw [List.length_append, List.length_flatMap, hlengths, hbase, hstop, List.length_flatMap]
  have hlinks' := hlinks.scripts
  have hjumps : checkJumps (Word.saturate (d.code ++ cs.flatMap CopiedScript.code).length)
      ((cs.flatMap CopiedScript.moved).filterMap Moved.jump?) = .ok () := by
    rw [hlength]
    rw [← hbase] at hlinks'
    exact checkJumps_copies (by omega) hcs hcode hlinks'
  obtain ⟨ids, hids⟩ : ∃ ids, m.image.autostart.mapM (resolveAutostart p.relocation) =
      .ok ids := by
    refine exists_mapM fun r hr => ?_
    obtain ⟨id, hid⟩ := hcovers.exists_scriptId_iff.mpr (hlinks.autostart r hr)
    exact ⟨.internal id, resolveAutostart_eq_ok_iff.mpr ⟨id, hid, rfl⟩⟩
  simp only [merge, bind_eq_ok, pure_eq_ok]
  exact ⟨_, p, hp, cs, hcs, (), hjumps, ids, hids, rfl⟩

/-! ### Merging modules in order -/

/-- Modules can be merged after others exactly when each has all it needs. -/
theorem exists_mergeAll_iff {rest : List ObjectModule} (hd : Merged {} earlier d)
    (hstores : d.texts.Stores share ts) (hdeclared : ∀ m ∈ rest, m.image.globals.Declared)
    (hdata : ∀ m ∈ rest, m.image.data.Consistent)
    (hown : ∀ m ∈ rest, m.image.code.length < 0x100000000)
    (hcode : copiedLength (earlier ++ rest) < 0x100000000)
    (hslots : slotsOf (allVars earlier) + slotSum rest ≤ total.toNat)
    (htotal : total.toNat ≤ maxSlot) :
    (∃ e, mergeAll share total d rest = .ok e) ↔
      ∀ (i : Nat) (m : ObjectModule), rest[i]? = some m →
        m.LinksAfter total.toNat (earlier ++ rest.take i) := by
  induction rest generalizing d earlier ts with
  | nil => exact iff_of_true ⟨d, rfl⟩ (by simp)
  | cons m ms ih =>
      have hm := hdeclared m List.mem_cons_self
      have hmdata := hdata m List.mem_cons_self
      have happend : earlier ++ m :: ms = earlier ++ [m] ++ ms := by simp
      have hsum : slotSum (m :: ms) = m.image.globals.slots.toNat + slotSum ms := rfl
      have hfirst := copiedLength_append (earlier ++ [m]) ms
      rw [happend] at hcode
      have hslots' : slotsOf (allVars (earlier ++ [m])) + slotSum ms ≤ total.toNat := by
        have hvars : allVars (earlier ++ [m]) = allVars earlier ++ m.image.globals.vars := by
          simp [allVars]
        have hownSlots := hm.consistent.slots
        rw [hvars, slotsOf_append]
        omega
      -- what holds of the modules after this one, once it is merged
      have hrest : ∀ d' p cs, Merges share total d m d' p cs →
          ((∃ e, mergeAll share total d' ms = .ok e) ↔ ∀ (i : Nat) (m' : ObjectModule),
            ms[i]? = some m' → m'.LinksAfter total.toNat (earlier ++ [m] ++ ms.take i)) := by
        intro d' p cs hmerges
        obtain ⟨us, -, hstores', -⟩ := hmerges.stores hstores
        exact ih (hd.step hmerges) hstores'
          (fun m' hm' => hdeclared m' (List.mem_cons_of_mem _ hm'))
          (fun m' hm' => hdata m' (List.mem_cons_of_mem _ hm'))
          (fun m' hm' => hown m' (List.mem_cons_of_mem _ hm')) hcode hslots'
      simp only [mergeAll_cons_eq_ok]
      constructor
      · rintro ⟨e, d', hmerge, he⟩ i m' hm'
        obtain ⟨p, cs, hmerges⟩ := merges_of_merge hmerge
        cases i with
        | zero =>
            cases hm'
            rw [List.take_zero, List.append_nil]
            exact hmerges.linksAfter hd hstores hm hmdata (by omega)
        | succ i =>
            have hlinks := (hrest d' p cs hmerges).mp ⟨e, he⟩ i m' hm'
            rwa [List.append_assoc] at hlinks
      · intro hall
        have hlinks := hall 0 m rfl
        rw [List.take_zero, List.append_nil] at hlinks
        obtain ⟨d', hmerge⟩ := exists_merge hd hstores hm hmdata (hown m List.mem_cons_self)
          (by omega) hlinks (by omega) htotal
        obtain ⟨p, cs, hmerges⟩ := merges_of_merge hmerge
        obtain ⟨e, he⟩ := (hrest d' p cs hmerges).mpr fun i m' hm' => by
          have hlater := hall (i + 1) m' hm'
          rwa [List.take_succ_cons, ← List.singleton_append, ← List.append_assoc] at hlater
        exact ⟨e, d', hmerge, he⟩

end Draft

/-! ### Links -/

end ScriptImage
