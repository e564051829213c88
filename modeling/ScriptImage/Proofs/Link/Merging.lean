import ScriptImage.Proofs.Globals
import ScriptImage.Proofs.Link.Relocation

/-!
One step of a link. A module that is merged appends its globals, its scripts and its code to the
draft; what a success of the step tells about each of them is stated once, and all that is said
of whole links is derived from it.
-/

namespace ScriptImage

/-- The instructions of a copy as they stand in the image. -/
def CopiedScript.code (c : CopiedScript) : List Instruction := Moved.settle c.moved

@[simp] theorem CopiedScript.code_length (c : CopiedScript) : c.code.length = c.moved.length :=
  Moved.settle_length c.moved

/-- What a link leaves of a script as it is. -/
structure ScriptHead where
  name : String
  params : UInt32
  locals : List String
  source : String

def Script.head (s : Script) : ScriptHead := ⟨s.name, s.params, s.locals, s.source⟩

/-- The run of a script of a module, empty when no END closes it. -/
def ObjectModule.runOf (m : ObjectModule) (s : Script) : List Instruction :=
  (m.image.scriptCode? s).getD []

namespace Draft

/-- A draft to which more modules have been merged. -/
structure Grows (d e : Draft) : Prop where
  globals : d.globals.vars <+: e.globals.vars
  scripts : d.scripts <+: e.scripts
  code : d.code <+: e.code
  autostart : d.autostart <+: e.autostart
  inits : d.inits <+: e.inits
  textPushes : d.textPushes <+: e.textPushes

theorem Grows.refl (d : Draft) : Grows d d :=
  ⟨List.prefix_rfl, List.prefix_rfl, List.prefix_rfl, List.prefix_rfl, List.prefix_rfl,
    List.prefix_rfl⟩

theorem Grows.trans {d e f : Draft} (h : Grows d e) (h' : Grows e f) : Grows d f :=
  ⟨h.globals.trans h'.globals, h.scripts.trans h'.scripts, h.code.trans h'.code,
    h.autostart.trans h'.autostart, h.inits.trans h'.inits, h.textPushes.trans h'.textPushes⟩

/-! ### Preparing a module -/

/-- An imported variable is the element asked for of an earlier variable of that name. -/
theorem resolveVar_ok {t : GlobalTable} (ht : t.Consistent) {v : ImportedVar} {id : UInt32}
    (h : resolveVar t v = .ok id) :
    ∃ w ∈ t.vars, w.name = v.name ∧ v.index.toNat < w.span.toNat ∧ id ≤ t.slots ∧
      t.bySlot? id = some (w, v.index) := by
  simp only [resolveVar, bind_eq_ok, liftM_eq_ok] at h
  obtain ⟨found, hfound, h⟩ := h
  cases found with
  | none => simp at h
  | some entry =>
      obtain ⟨first, w⟩ := entry
      obtain ⟨i, hw, hname, hfirst⟩ := GlobalTable.find?_eq_some ht hfound
      have hindex : v.index.toNat < w.span.toNat ∧ id.toNat = first.toNat + v.index.toNat := by
        simp only at h
        split at h
        · rename_i hzero
          rw [liftM_eq_ok, Word.add_eq_ok_iff] at h
          have := GlobalVar.span_pos w
          exact ⟨by rwa [hzero, UInt32.toNat_zero], h.symm⟩
        · split at h
          · simp at h
          · split at h
            · simp at h
            · rename_i hsize
              rw [liftM_eq_ok, Word.add_eq_ok_iff] at h
              rw [UInt32.le_iff_toNat_le] at hsize
              have := GlobalVar.span_toNat w
              exact ⟨by omega, h.symm⟩
      have hslot : id.toNat = slotsOf (t.vars.take i) + v.index.toNat + 1 := by omega
      have hsucc := slotsOf_take_succ hw
      have htotal := slotsOf_take_le t.vars (i + 1)
      have hslots := ht.slots
      refine ⟨w, List.mem_of_getElem? hw, hname, hindex.1,
        UInt32.le_iff_toNat_le.mpr (by omega), ?_⟩
      rw [GlobalTable.bySlot?_of_getElem? ht hw hindex.1 hslot, UInt32.ofNat_toNat]

/-- An imported script is the first earlier one of its name. -/
theorem resolveScript_eq_ok_iff {ss : List Script} {v : ImportedScript} {id : UInt32} :
    resolveScript ss v = .ok id ↔
      ∃ t, ss.find? (fun t => t.name == v.name) = some t ∧ t.params = v.params ∧ t.id = id := by
  unfold resolveScript
  split
  · rename_i h
    simp [h]
  · rename_i t h
    rw [h]
    split
    · rename_i hparams
      simp [hparams]
    · rename_i hparams
      simp [hparams]

/-- The ids of scripts and the new ones they get, which number them on from a count. -/
def newIds (count : Nat) (ss : List Script) : List (UInt32 × UInt32) :=
  ss.zipIdx.map fun (s, i) => (s.id, UInt32.ofNat (count + i + 1))

/-- The new id of an id is that of the last script that has it. -/
theorem lookup_newIds {count : Nat} {ss : List Script} {id new : UInt32}
    (h : (newIds count ss).reverse.lookup id = some new) :
    ∃ j t, ss[j]? = some t ∧ ss.reverse.find? (fun t => t.id == id) = some t ∧
      new = UInt32.ofNat (count + j + 1) := by
  induction ss using List.reverseRecOn with
  | nil => cases h
  | append_singleton ss s ih =>
      have hids : newIds count (ss ++ [s]) =
          newIds count ss ++ [(s.id, UInt32.ofNat (count + ss.length + 1))] := by
        simp [newIds, List.zipIdx_append]
      rw [hids, List.reverse_concat, List.lookup_cons] at h
      rw [List.reverse_concat, List.find?_cons]
      by_cases heq : s.id = id
      · subst heq
        rw [beq_self_eq_true] at h
        cases h
        exact ⟨ss.length, s, List.getElem?_concat_length, by simp, rfl⟩
      · rw [beq_eq_false_iff_ne.mpr (Ne.symm heq)] at h
        obtain ⟨j, t, ht, hfind, hnew⟩ := ih h
        refine ⟨j, t, ?_, by rw [beq_eq_false_iff_ne.mpr heq]; exact hfind, hnew⟩
        rw [List.getElem?_append_left (List.getElem?_eq_some_iff.mp ht).1, ht]

/-- What is known of a module before its scripts are copied. -/
structure Prepares (share : Bool) (total : UInt32) (d : Draft) (m : ObjectModule)
    (p : Prepared) : Prop where
  firstScriptId : p.firstScriptId.toNat = d.scripts.length + 1
  texts : ∃ moves, d.texts.merge share m.image.data = .ok (p.draft.texts, moves) ∧
    p.relocation.texts = moves.offsets ∧ p.hits = moves.hits
  globals : m.image.globals.vars.foldlM declareGlobal d.globals = .ok p.draft.globals
  inits : p.draft.inits = d.inits ++ m.image.inits.drop 1
  scripts : ∀ id new, p.relocation.scripts.lookup id = some new →
    d.scripts.length < new.toNat ∧ new.toNat ≤ d.scripts.length + m.image.scripts.length
  scriptIds : p.relocation.scripts = (newIds d.scripts.length m.image.scripts).reverse
  importedScripts : m.importedScripts.mapM (resolveScript d.scripts) =
    .ok p.relocation.importedScripts
  importedVars : m.importedVars.mapM (resolveVar d.globals) = .ok p.relocation.importedVars
  globalOffset : p.relocation.globalOffset = d.globals.slots
  localShift : total.toNat = m.image.globals.slots.toNat + p.relocation.localShift.toNat
  slots : p.relocation.slots = m.image.globals.slots

/-- New script ids are dealt out in order. -/
theorem lookup_scriptIds {first : UInt32} {ss : List Script} {ids : List (UInt32 × UInt32)}
    (h : (ss.zipIdx.mapM fun (s, i) => do
      return (s.id, ← (liftM (Word.add first (Word.saturate i)) : Except Stop UInt32))) = .ok ids)
    {id new : UInt32} (hl : ids.reverse.lookup id = some new) :
    first.toNat ≤ new.toNat ∧ new.toNat < first.toNat + ss.length := by
  have hmem : (id, new) ∈ ids := List.mem_reverse.mp (mem_of_lookup hl)
  obtain ⟨n, hn⟩ := List.mem_iff_getElem?.mp hmem
  obtain ⟨⟨s, k⟩, hs, hstep⟩ := mapM_source h hn
  simp only [bind_eq_ok, pure_eq_ok, liftM_eq_ok, Word.add_eq_ok_iff, Prod.mk.injEq] at hstep
  obtain ⟨w, hw, -, rfl⟩ := hstep
  have hk : k < ss.length := (List.mem_zipIdx' (List.mem_of_getElem? hs)).1
  have hsat := Word.toNat_saturate_le k
  omega

/-- They can be dealt out while they are words. -/
theorem exists_scriptIds (first : UInt32) (ss : List Script)
    (h : first.toNat + ss.length ≤ 0x100000000) :
    ∃ ids, (ss.zipIdx.mapM fun (s, i) => do
      return (s.id, ← (liftM (Word.add first (Word.saturate i)) : Except Stop UInt32))) =
        .ok ids := by
  refine exists_mapM ?_
  rintro ⟨s, i⟩ hsi
  have hi := (List.getElem?_eq_some_iff.mp (List.mem_zipIdx_iff_getElem?.mp hsi)).1
  have hiNat := Word.toNat_saturate (n := i) (by omega)
  obtain ⟨id, hid, -⟩ := Word.exists_add (a := first) (b := Word.saturate i) (by omega)
  refine ⟨(s.id, id), ?_⟩
  simp only [bind_eq_ok, liftM_eq_ok, pure_eq_ok]
  exact ⟨id, hid, rfl⟩

theorem scriptIds_eq_newIds {first : UInt32} {count : Nat} {ss : List Script}
    {ids : List (UInt32 × UInt32)} (hfirst : first.toNat = count + 1)
    (h : (ss.zipIdx.mapM fun (s, i) => do
      return (s.id, ← (liftM (Word.add first (Word.saturate i)) : Except Stop UInt32))) = .ok ids) :
    ids = newIds count ss := by
  refine mapM_eq_map h ?_
  rintro ⟨s, i⟩ - ⟨id, new⟩ hstep
  simp only [bind_eq_ok, pure_eq_ok, liftM_eq_ok, Word.add_eq_ok_iff, Prod.mk.injEq] at hstep ⊢
  obtain ⟨w, hw, rfl, rfl⟩ := hstep
  -- had the position been cut off, adding the first id would have overflowed
  have hlt := w.toNat_lt
  rw [Word.toNat_saturate_eq] at hw
  refine ⟨rfl, UInt32.toNat_inj.mp ?_⟩
  rw [Word.toNat_ofNat (by omega)]
  omega

theorem prepares_of_prepare {share : Bool} {total : UInt32} {d : Draft} {m : ObjectModule}
    {p : Prepared} (h : d.prepare share total m = .ok p) : Prepares share total d m p := by
  simp only [prepare, bind_eq_ok, liftM_eq_ok, pure_eq_ok] at h
  obtain ⟨first, hfirst, ⟨texts, moves⟩, htexts, vars, hvars, globals, hglobals, scripts, hscripts,
    ids, hids, shift, hshift, rfl⟩ := h
  rw [Word.add_eq_ok_iff, UInt32.toNat_one] at hfirst
  rw [Word.sub_eq_ok_iff] at hshift
  have hcount : first.toNat = d.scripts.length + 1 := by
    have hlt := first.toNat_lt
    rw [Word.toNat_saturate_eq] at hfirst
    omega
  refine ⟨hcount, ⟨moves, htexts, rfl, rfl⟩, hglobals, rfl, ?_, ?_, hscripts, hvars, rfl, hshift,
    rfl⟩
  · intro id new hl
    have hbounds := lookup_scriptIds hids hl
    omega
  · exact congrArg List.reverse (scriptIds_eq_newIds hcount hids)

/-! ### Copying scripts -/

/-- A script copied to a position of the code. -/
structure Copied (r : Relocation) (m : ObjectModule) (s : Script) (start : Nat)
    (run : List Instruction) (c : CopiedScript) : Prop where
  closed : m.image.scriptCode? s = some run
  moved : r.moveRun m.textPushes s (Word.saturate start) run = .ok c.moved
  script : c.script = { s with
    id := c.script.id
    boundary := Word.saturate (s.boundary.toNat + r.localShift.toNat)
    address := Word.saturate start }

theorem Copied.address {r : Relocation} {m : ObjectModule} {s : Script} {start : Nat}
    {run : List Instruction} {c : CopiedScript} (h : Copied r m s start run c) :
    c.script.address = Word.saturate start := by
  rw [h.script]

theorem copyScript_ok {r : Relocation} {m : ObjectModule} {id : UInt32} {start : Nat}
    {s : Script} {c : CopiedScript} (h : copyScript r m id (Word.saturate start) s = .ok c) :
    c.script.id = id ∧ ∃ run, Copied r m s start run c := by
  unfold copyScript at h
  split at h
  · simp at h
  · rename_i run hrun
    simp only [bind_eq_ok, pure_eq_ok] at h
    obtain ⟨moved, hmoved, rfl⟩ := h
    exact ⟨rfl, run, hrun, hmoved, rfl⟩

theorem copyScripts_length {r : Relocation} {m : ObjectModule} {first : UInt32} {i length : Nat}
    {ss : List Script} {cs : List CopiedScript}
    (h : copyScripts r m first i length ss = .ok cs) : cs.length = ss.length := by
  induction ss generalizing i length cs with
  | nil =>
      cases h
      rfl
  | cons s ss ih =>
      simp only [copyScripts, bind_eq_ok, liftM_eq_ok, pure_eq_ok] at h
      obtain ⟨_, _, c, _, cs, hcs, rfl⟩ := h
      rw [List.length_cons, List.length_cons, ih hcs]

/-- Each script is copied behind the copies of those before it, and its id counts them. -/
theorem copyScripts_getElem? {r : Relocation} {m : ObjectModule} {first : UInt32}
    {i length : Nat} {ss : List Script} {cs : List CopiedScript} (hfirst : 0 < first.toNat)
    (h : copyScripts r m first i length ss = .ok cs) {j : Nat} {s : Script}
    (hs : ss[j]? = some s) :
    ∃ c run, cs[j]? = some c ∧ c.script.id.toNat = first.toNat + i + j ∧
      Copied r m s (length + pieceStart CopiedScript.code cs j) run c := by
  induction ss generalizing i length cs j with
  | nil => simp at hs
  | cons s' ss ih =>
      simp only [copyScripts, bind_eq_ok, liftM_eq_ok, pure_eq_ok, Word.add_eq_ok_iff] at h
      obtain ⟨id, hid, c, hc, cs, hcs, rfl⟩ := h
      cases j with
      | zero =>
          rw [List.getElem?_cons_zero, Option.some.injEq] at hs
          subst hs
          obtain ⟨hcid, run, hcopied⟩ := copyScript_ok hc
          refine ⟨c, run, rfl, ?_, by simpa using hcopied⟩
          -- had the count been cut off, adding the first id would have overflowed
          have hlt := id.toNat_lt
          rw [Word.toNat_saturate_eq] at hid
          rw [hcid]
          omega
      | succ j =>
          rw [List.getElem?_cons_succ] at hs
          obtain ⟨c', run, hc', hid', hcopied⟩ := ih hcs hs
          refine ⟨c', run, by simpa using hc', by omega, ?_⟩
          rw [pieceStart_cons_succ, CopiedScript.code_length, ← Nat.add_assoc]
          exact hcopied

/-- What a copy says of its script holds of all copies in order. -/
theorem copyScripts_map_eq {r : Relocation} {m : ObjectModule} {first : UInt32}
    {i length : Nat} {ss : List Script} {cs : List CopiedScript} (hfirst : 0 < first.toNat)
    (h : copyScripts r m first i length ss = .ok cs) {β : Type} {f : CopiedScript → β}
    {g : Script → β} (hfg : ∀ s start run c, Copied r m s start run c → f c = g s) :
    cs.map f = ss.map g := by
  refine List.ext_getElem? fun j => ?_
  rw [List.getElem?_map, List.getElem?_map]
  cases hs : ss[j]? with
  | none =>
      rw [List.getElem?_eq_none_iff, ← copyScripts_length h, ← List.getElem?_eq_none_iff] at hs
      rw [hs]
      rfl
  | some s =>
      obtain ⟨c, run, hc, -, hcopied⟩ := copyScripts_getElem? hfirst h hs
      rw [hc, Option.map_some, Option.map_some, hfg s _ run c hcopied]

theorem copyScripts_lengths {r : Relocation} {m : ObjectModule} {first : UInt32}
    {i length : Nat} {ss : List Script} {cs : List CopiedScript} (hfirst : 0 < first.toNat)
    (h : copyScripts r m first i length ss = .ok cs) :
    cs.map (fun c => c.code.length) = ss.map fun s => (m.runOf s).length := by
  refine copyScripts_map_eq hfirst h fun s start run c hcopied => ?_
  rw [CopiedScript.code_length, Relocation.moveRun_length hcopied.moved, ObjectModule.runOf,
    hcopied.closed, Option.getD_some]

/-! ### Merging a module -/

theorem checkJumps_eq_ok_iff {size : UInt32} {jumps : List (UInt32 × UInt32)} :
    checkJumps size jumps = .ok () ↔ ∀ j ∈ jumps, j.2 < size := by
  unfold checkJumps
  split
  · rename_i address target hj
    have hle := List.find?_some hj
    simp only [decide_eq_true_eq] at hle
    simp only [Stop.refuse_ne_ok, false_iff, not_forall]
    exact ⟨_, List.mem_of_find?_eq_some hj, UInt32.not_lt.mpr hle⟩
  · rename_i hnone
    rw [List.find?_eq_none] at hnone
    simp only [true_iff]
    intro j hj
    have hlt := hnone j hj
    rwa [decide_eq_true_iff, UInt32.not_le] at hlt

theorem resolveAutostart_eq_ok_iff {r : Relocation} {s s' : SymbolRef} :
    resolveAutostart r s = .ok s' ↔ ∃ id, r.scriptId s = .ok id ∧ s' = .internal id := by
  unfold resolveAutostart
  split
  · rename_i id hid
    simp [hid, eq_comm]
  · rename_i kind id hid
    simp [hid]

/-- What is known of a module that has been merged. -/
structure Merges (share : Bool) (total : UInt32) (d : Draft) (m : ObjectModule) (d' : Draft)
    (p : Prepared) (cs : List CopiedScript) : Prop where
  prepares : Prepares share total d m p
  copies : copyScripts p.relocation m p.firstScriptId 0 d.code.length m.image.scripts = .ok cs
  jumps : checkJumps (Word.saturate d'.code.length)
    ((cs.flatMap CopiedScript.moved).filterMap Moved.jump?) = .ok ()
  autostart : ∃ ids, m.image.autostart.mapM (resolveAutostart p.relocation) = .ok ids ∧
    d'.autostart = d.autostart ++ ids
  texts : d'.texts = p.draft.texts
  globals : d'.globals = p.draft.globals
  inits : d'.inits = p.draft.inits
  scripts : d'.scripts = d.scripts ++ cs.map CopiedScript.script
  code : d'.code = d.code ++ cs.flatMap CopiedScript.code
  textPushes : d'.textPushes = d.textPushes ++
    (cs.flatMap CopiedScript.moved).filterMap (Moved.textPush? m.textPushes)
  inputs : d'.inputs = d.inputs ++ [{
    file := m.name
    baseAddress := d.nextAddress
    firstScriptId := p.firstScriptId
    globalOffset := p.relocation.globalOffset
    scripts := m.image.scripts.length
    instructions := (cs.flatMap CopiedScript.moved).length
    dedupHits := p.hits }]

variable {share : Bool} {total : UInt32} {d d' : Draft} {m : ObjectModule} {p : Prepared}
  {cs : List CopiedScript}

theorem merges_of_merge (h : d.merge share total m = .ok d') :
    ∃ p cs, Merges share total d m d' p cs := by
  simp only [merge, bind_eq_ok, pure_eq_ok] at h
  obtain ⟨p, hp, cs, hcs, ⟨⟩, hjumps, ids, hids, rfl⟩ := h
  exact ⟨p, cs, prepares_of_prepare hp, hcs, hjumps, ⟨ids, hids, rfl⟩, rfl, rfl, rfl, rfl, rfl,
    rfl, rfl⟩

namespace Merges

theorem length (h : Merges share total d m d' p cs) : cs.length = m.image.scripts.length :=
  copyScripts_length h.copies

/-- The copy of a script, numbered and placed behind all that is already in the draft. -/
theorem copy (h : Merges share total d m d' p cs) {j : Nat} {s : Script}
    (hs : m.image.scripts[j]? = some s) :
    ∃ c run, cs[j]? = some c ∧ c.script.id.toNat = d.scripts.length + j + 1 ∧
      Copied p.relocation m s (d.code.length + pieceStart CopiedScript.code cs j) run c := by
  have hfirst := h.prepares.firstScriptId
  obtain ⟨c, run, hc, hid, hcopied⟩ := copyScripts_getElem? (by omega) h.copies hs
  exact ⟨c, run, hc, by omega, hcopied⟩

theorem source (h : Merges share total d m d' p cs) {j : Nat} {c : CopiedScript}
    (hc : cs[j]? = some c) : ∃ s, m.image.scripts[j]? = some s := by
  have hj := (List.getElem?_eq_some_iff.mp hc).1
  rw [h.length] at hj
  exact ⟨_, List.getElem?_eq_getElem hj⟩

theorem declared (h : Merges share total d m d' p cs) (hd : d.globals.Declared) :
    d'.globals.Declared ∧ d'.globals.vars = d.globals.vars ++ m.image.globals.vars := by
  rw [h.globals]
  exact foldlM_declareGlobal hd h.prepares.globals

theorem grows (h : Merges share total d m d' p cs) (hd : d.globals.Declared) : Grows d d' := by
  obtain ⟨ids, -, hautostart⟩ := h.autostart
  refine ⟨?_, ?_, ?_, ?_, ?_, ?_⟩
  · exact ⟨_, (h.declared hd).2.symm⟩
  · exact ⟨_, h.scripts.symm⟩
  · exact ⟨_, h.code.symm⟩
  · exact ⟨ids, hautostart.symm⟩
  · exact ⟨_, (h.inits.trans h.prepares.inits).symm⟩
  · exact ⟨_, h.textPushes.symm⟩

/-- What a copy says of its script holds of all copies in order. -/
theorem map_eq (h : Merges share total d m d' p cs) {β : Type} {f : CopiedScript → β}
    {g : Script → β}
    (hfg : ∀ s start run c, Copied p.relocation m s start run c → f c = g s) :
    cs.map f = m.image.scripts.map g := by
  have hfirst := h.prepares.firstScriptId
  exact copyScripts_map_eq (by omega) h.copies hfg

theorem heads (h : Merges share total d m d' p cs) :
    cs.map (fun c => c.script.head) = m.image.scripts.map Script.head := by
  refine h.map_eq fun s start run c hcopied => ?_
  rw [hcopied.script]
  rfl

theorem lengths (h : Merges share total d m d' p cs) :
    cs.map (fun c => c.code.length) = m.image.scripts.map fun s => (m.runOf s).length := by
  have hfirst := h.prepares.firstScriptId
  exact copyScripts_lengths (by omega) h.copies

/-- The copies of closed runs are closed runs. -/
theorem closed (h : Merges share total d m d' p cs) {c : CopiedScript} (hc : c ∈ cs) :
    closedRun? c.code = some c.code := by
  obtain ⟨j, hj⟩ := List.mem_iff_getElem?.mp hc
  obtain ⟨s, hs⟩ := h.source hj
  obtain ⟨c', run, hc', -, hcopied⟩ := h.copy hs
  rw [hj, Option.some.injEq] at hc'
  subst hc'
  exact closedRun?_of_opcodes (Relocation.moveRun_opcodes hcopied.moved)
    (closedRun?_self hcopied.closed)

theorem runs_eq (h : Merges share total d m d' p cs) (hd : (runs d.code).flatten = d.code) :
    runs d'.code = runs d.code ++ cs.map CopiedScript.code ∧
      (runs d'.code).flatten = d'.code := by
  have hruns : runs d'.code = runs d.code ++ cs.map CopiedScript.code := by
    rw [h.code, runs_append_right hd, runs_flatMap fun c => h.closed]
  refine ⟨hruns, ?_⟩
  rw [hruns, List.flatten_append, hd, h.code, List.flatMap_def]

end Merges

end Draft

end ScriptImage
