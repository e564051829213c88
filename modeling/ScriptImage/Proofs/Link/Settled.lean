import ScriptImage.Proofs.Link.Acceptance
import ScriptImage.Proofs.Link.BuildInfo
import ScriptImage.Proofs.Link.TextPushes

/-!
Images that a link leaves as they are. An image whose scripts are numbered and laid out in order,
whose operands have been resolved and whose texts stand as a link writes them is settled: linked
alone, with the same options, every id, address and offset is relocated to itself.
-/

namespace ScriptImage

/-- An image as a module that imports nothing. -/
def Image.asModule (image : Image) (name : String) (textPushes : List UInt32) : ObjectModule :=
  { name, image, textPushes }

/-! ### Relocations that change nothing -/

namespace Relocation

/-- A relocation that keeps every id and offset. -/
structure Fixes (r : Relocation) : Prop where
  importedVars : r.importedVars = []
  importedScripts : r.importedScripts = []
  globalOffset : r.globalOffset = 0
  localShift : r.localShift = 0
  scripts : ∀ id new, r.scripts.lookup id = some new → new = id
  texts : ∀ old new, r.texts.lookup old = some new → new = old

namespace Fixes

variable {r : Relocation} {scope : Scope} {textPushes : List UInt32} {s : Script}
  {run : List Instruction} {ms : List Moved}

theorem newId (h : r.Fixes) {v : SymbolRef} {id : UInt32} (hid : r.NewId scope v id) :
    v = .internal id := by
  cases hid with
  | null => rfl
  | «local» _ _ hid =>
      rw [h.localShift, UInt32.toNat_zero, Nat.add_zero, UInt32.toNat_inj] at hid
      rw [hid]
  | global _ _ _ hid =>
      rw [h.globalOffset, UInt32.toNat_zero, Nat.add_zero, UInt32.toNat_inj] at hid
      rw [hid]
  | imported hp =>
      rw [h.importedVars, List.getElem?_nil] at hp
      cases hp

theorem scriptId (h : r.Fixes) {v : SymbolRef} {id : UInt32} (hid : r.scriptId v = .ok id) :
    v = .internal id := by
  cases v with
  | internal old => rw [h.scripts _ _ (scriptId_internal_eq_ok_iff.mp hid)]
  | external p =>
      rw [scriptId_external_eq_ok_iff, h.importedScripts, List.getElem?_nil] at hid
      cases hid

/-- An operand stays as it is when its script stays where it is. -/
theorem newOperand (h : r.Fixes) {isText : Bool} {start : UInt32} {o o' : Operand}
    (ho : r.NewOperand isText scope start start o o') : o' = o := by
  cases ho with
  | @address a b hb =>
      have hsame : b.toNat = a.toNat := by omega
      rw [UInt32.toNat_inj.mp hsame]
  | script hid => rw [h.scriptId hid]
  | «variable» hid => rw [h.newId hid]
  | @text v new _ hpos hlookup =>
      have hsigned := Word.toInt_saturateSigned new
      have hword := Word.toNat_toUInt32 hpos
      have hlt := v.toInt_lt
      rw [h.texts _ _ hlookup] at hsigned ⊢
      exact congrArg Operand.int (Int32.toInt_inj.mp (by omega))
  | _ => rfl

/-- A run stays as it is when the floats before its references carry exactly the ids they name. -/
theorem settle_eq (h : r.Fixes) (hmoved : r.moveRun textPushes s s.address run = .ok ms)
    (hexact : ∀ (k : Nat) (ins : Instruction), run[k]? = some ins → ins.isReference = true →
      ∃ (p : Instruction) (id : UInt32), run[k - 2]? = some p ∧
        p.floatVariable? = some (.internal id) ∧ p.operand = .float (.ofInt id.toNat)) :
    Moved.settle ms = run := by
  refine List.ext_getElem? fun k => ?_
  rw [Moved.settle_getElem?]
  cases hk : run[k]? with
  | none =>
      rw [List.getElem?_eq_none_iff, ← moveRun_length hmoved, ← List.getElem?_eq_none_iff] at hk
      rw [hk]
      rfl
  | some ins =>
      obtain ⟨mv, hmv, hmoves⟩ := moveRun_getElem? hmoved hk
      have hafter : mv.after = ins := by rw [hmoves.after, h.newOperand hmoves.operand]
      rw [hmv, Option.map_some, Option.some.injEq]
      rcases pairedId_of_moveRun hmoved hk with ⟨-, hnone⟩ | ⟨hfeeds, v, id, hv, hid, hsome⟩
      · rw [hnone, Moved.settled_none, hafter]
      · obtain ⟨later, hlater, href⟩ := hfeeds
        obtain ⟨p, id', hp, hfloat, hoperand⟩ := hexact (k + 2) later hlater href
        rw [Nat.add_sub_cancel, hk, Option.some.injEq] at hp
        subst hp
        rw [hfloat, Option.some.injEq, h.newId hid, SymbolRef.internal.injEq] at hv
        rw [hsome, Moved.settled, hafter, ← hv, ← hoperand]

end Fixes

end Relocation

/-! ### Texts of an image -/

/-- The texts of an image as a link writes them: those that instructions use, and behind them what
was gathered about the build. -/
structure DataSection.Written (data : DataSection) (share debug : Bool) (ts : List (List UInt8))
    (b : BuildInfo) (pushes : List UInt32) : Prop where
  data_eq : data = .ofTexts (ts ++ if debug then (b.metadata pushes).map Utf8.encode else [])
  plain : ∀ t ∈ ts, TextKind.isPlain t = true
  distinct : share = true → ts.Nodup
  info : b.WellFormed

/-- Texts that are distinct, or not shared, are added as they are. -/
theorem addTexts_self {share : Bool} {ts : List (List UInt8)} (h : share = true → ts.Nodup) :
    addTexts share [] ts = (List.range' 0 ts.length, ts) := by
  cases share with
  | false => exact addTexts_false
  | true => exact addTexts_of_nodup (h rfl)

theorem TextPool.plainEntries_append {es : List TextEntry} {ts us : List (List UInt8)}
    (hts : ∀ t ∈ ts, TextKind.isPlain t = true) (hus : ∀ t ∈ us, TextKind.isPlain t = false) :
    plainEntries (es.zip (ts ++ us)) = es.zip ts := by
  induction ts generalizing es with
  | nil =>
      rw [List.nil_append, List.zip_nil_right, plainEntries, List.filter_eq_nil_iff]
      rintro ⟨e, t⟩ hx
      simp [hus t (List.of_mem_zip hx).2]
  | cons t ts ih =>
      cases es with
      | nil => rfl
      | cons e es =>
          have hplain : plainEntries ((e, t) :: es.zip (ts ++ us)) =
              (e, t) :: plainEntries (es.zip (ts ++ us)) :=
            List.filter_cons_of_pos (hts t List.mem_cons_self)
          rw [List.cons_append, List.zip_cons_cons, List.zip_cons_cons, hplain,
            ih fun u hu => hts u (List.mem_cons_of_mem _ hu)]

namespace DataSection.Written

variable {share debug : Bool} {total : UInt32} {ts : List (List UInt8)} {b : BuildInfo}
  {pushes : List UInt32} {m : ObjectModule} {d' : Draft} {p : Prepared} {cs : List CopiedScript}

/-- Merged first, written texts are gathered and placed as they stand. -/
theorem merges (h : m.image.data.Written share debug ts b pushes)
    (hsize : m.image.data.size < 0x100000000) (hm : Draft.Merges share total {} m d' p cs) :
    d'.texts.Stores share ts ∧ (debug = true → d'.texts.info = b) ∧
      ∀ old new, p.relocation.texts.lookup old = some new → new = old := by
  change m.image.data.bytes.length < _ at hsize
  have hdata := h.data_eq
  generalize htail : (if debug then (b.metadata pushes).map Utf8.encode else []) = tail at hdata
  have hnot : ∀ t ∈ tail, TextKind.isPlain t = false := by
    intro t ht
    rw [← htail] at ht
    split at ht
    · exact h.info.metadata_not_isPlain ht
    · cases ht
  have htexts : m.image.data.texts = .ok (ts ++ tail) := by
    rw [hdata] at hsize ⊢
    exact texts_ofTexts hsize
  refine ⟨?_, ?_, ?_⟩
  · obtain ⟨us, hus, hstores, -⟩ := hm.stores (TextPool.stores_empty share)
    rw [htexts, Except.ok.injEq] at hus
    subst hus
    have hfilter : (ts ++ tail).filter TextKind.isPlain = ts := by
      rw [List.filter_append, List.filter_eq_self.mpr h.plain,
        List.filter_eq_nil_iff.mpr fun t ht => by simp [hnot t ht], List.append_nil]
    rwa [hfilter, addTexts_self h.distinct] at hstores
  · intro hdebug
    obtain ⟨us, hus, hinfo⟩ := hm.info
    rw [htexts, Except.ok.injEq] at hus
    subst hus
    rw [hdebug, if_pos rfl] at htail
    rw [hinfo, List.foldl_append, BuildInfo.foldl_gather_of_isPlain h.plain, ← htail]
    exact h.info.foldl_gather_metadata pushes
  · intro old new hlookup
    obtain ⟨us, moves, hus, -, hadds, hmoves, -⟩ :=
      hm.prepares.adds (TextPool.stores_empty share)
    rw [htexts, Except.ok.injEq] at hus
    subst hus
    have hplain : TextPool.plainEntries (m.image.data.entries.zip (ts ++ tail)) =
        m.image.data.entries.zip ts := TextPool.plainEntries_append h.plain hnot
    have hlength : ts.length ≤ m.image.data.entries.length := by
      rw [hdata, entries_ofTexts, List.length_map, List.length_zipIdx, List.length_append]
      exact Nat.le_add_right _ _
    have hmem := mem_of_lookup hlookup
    rw [hmoves, hadds.offsets, TextPool.addEntries, hplain, List.map_snd_zip hlength,
      addTexts_self h.distinct, List.append_nil, List.mem_reverse] at hmem
    -- both are the start of the text at one position
    obtain ⟨⟨⟨e, t⟩, n⟩, hxn, heq⟩ := List.mem_map.mp hmem
    cases heq
    obtain ⟨k, hk⟩ := List.mem_iff_getElem?.mp hxn
    obtain ⟨hx, hn⟩ := List.getElem?_zip_eq_some.mp hk
    obtain ⟨he, ht⟩ := List.getElem?_zip_eq_some.mp hx
    have hlt := (List.getElem?_eq_some_iff.mp ht).1
    rw [List.getElem?_range' hlt, Nat.zero_add, Nat.one_mul, Option.some.injEq] at hn
    subst hn
    have hget : (ts ++ tail)[k]? = some t := by rwa [List.getElem?_append_left hlt]
    have hentry := getElem?_entries_ofTexts hget
    rw [hdata, hentry, Option.some.injEq] at he
    rw [← he, textStart_append tail hlt.le]

end DataSection.Written

/-! ### Settled images -/

namespace Image

/-- What the instruction at position `k` of a run names is there, and the float before a reference
carries exactly the id it is read as. -/
structure Resolved (image : Image) (s : Script) (run : List Instruction) (k : Nat)
    (ins : Instruction) : Prop where
  var : ∀ v, ins.operand = .variable v → ∃ id name, v = .internal id ∧
    image.varName? s id = some name
  script : ∀ v, ins.operand = .script v → ∃ id, v = .internal id ∧ 0 < id.toNat ∧
    id.toNat ≤ image.scripts.length
  reference : ins.isReference = true → ∃ p id name, 2 ≤ k ∧ run[k - 2]? = some p ∧
    p.floatVariable? = some (.internal id) ∧ p.operand = .float (.ofInt id.toNat) ∧
      image.varName? s id = some name

/-- A push at an address that gives the offset of a plain text. -/
def PushesPlain (image : Image) (a : UInt32) : Prop :=
  ∃ ins w t, image.code[a.toNat]? = some ins ∧ ins.opcode = .push ∧ ins.operand = .int w ∧
    image.data.Holds w t ∧ TextKind.isPlain t = true

/-- An image as a link leaves it, with the addresses of its text pushes. -/
structure Settled (image : Image) (share debug : Bool) (textPushes : List UInt32) : Prop where
  version : image.version = formatVersion
  inits : [.null] <+: image.inits
  sound : image.Sound
  placed : ∀ n s, image.scripts[n]? = some s → s.address.toNat = pieceStart id (runs image.code) n ∧
    ∃ run, (runs image.code)[n]? = some run ∧ image.scriptCode? s = some run
  resolved : ∀ (n : Nat) s run, image.scripts[n]? = some s → image.scriptCode? s = some run →
    ∀ (k : Nat) (ins : Instruction), run[k]? = some ins → image.Resolved s run k ins
  pushes : ∀ a ∈ textPushes, image.PushesPlain a
  texts : ∃ ts b listed, image.data.Written share debug ts b listed ∧
    listed.Pairwise (· < ·) ∧ ∀ a, a ∈ listed ↔ a ∈ textPushes

namespace Settled

variable {image : Image} {share debug : Bool} {textPushes : List UInt32}

theorem runOf_scripts (h : image.Settled share debug textPushes) (name : String) :
    image.scripts.map (image.asModule name textPushes).runOf = runs image.code := by
  refine List.ext_getElem? fun n => ?_
  rw [List.getElem?_map]
  cases hs : image.scripts[n]? with
  | none =>
      rw [List.getElem?_eq_none_iff, ← h.sound.count, ← List.getElem?_eq_none_iff] at hs
      rw [hs]
      rfl
  | some s =>
      obtain ⟨-, run, hn, hrun⟩ := h.placed n s hs
      have hclosed : (image.asModule name textPushes).image.scriptCode? s = some run := hrun
      rw [hn, Option.map_some, ObjectModule.runOf, hclosed, Option.getD_some]

/-- Alone, the image has as much code as it has now. -/
theorem copiedLength_eq (h : image.Settled share debug textPushes) (name : String) :
    copiedLength [image.asModule name textPushes] = image.code.length := by
  have hruns := h.runOf_scripts name
  rw [copiedLength_singleton, List.flatMap_def]
  change (List.map _ image.scripts).flatten.length = _
  rw [hruns, h.sound.tiled]

/-- Alone, every script begins where it begins now. -/
theorem pieceStart_eq (h : image.Settled share debug textPushes) (name : String) {n : Nat}
    {s : Script} (hs : image.scripts[n]? = some s) :
    pieceStart (image.asModule name textPushes).runOf image.scripts n = s.address.toNat := by
  rw [(h.placed n s hs).1, ← h.runOf_scripts name, pieceStart_map]

/-- The code at an address of a script is what stands in its run. -/
theorem code_at (h : image.Settled share debug textPushes) {n k : Nat} {s : Script}
    {run : List Instruction} (hs : image.scripts[n]? = some s)
    (hrun : image.scriptCode? s = some run) (hk : k < run.length) :
    image.code[s.address.toNat + k]? = run[k]? := by
  obtain ⟨haddress, run', hn, hrun'⟩ := h.placed n s hs
  rw [hrun, Option.some.injEq] at hrun'
  subst hrun'
  rw [haddress]
  exact h.sound.code_at hn hk

/-- Every position of the code is one of a script. -/
theorem exists_script (h : image.Settled share debug textPushes) {pc : Nat} {ins : Instruction}
    (hpc : image.code[pc]? = some ins) :
    ∃ (n : Nat) (s : Script) (run : List Instruction) (k : Nat),
      image.scripts[n]? = some s ∧ image.scriptCode? s = some run ∧ run[k]? = some ins ∧
        pc = s.address.toNat + k := by
  have htiled : image.code = (runs image.code).flatMap id := by
    rw [List.flatMap_id, h.sound.tiled]
  rw [htiled] at hpc
  obtain ⟨n, run, k, hn, hk, rfl⟩ := exists_piece hpc
  have hlt := (List.getElem?_eq_some_iff.mp hn).1
  rw [h.sound.count] at hlt
  obtain ⟨haddress, run', hn', hrun⟩ := h.placed n _ (List.getElem?_eq_getElem hlt)
  rw [hn, Option.some.injEq] at hn'
  subst hn'
  exact ⟨n, _, run, k, List.getElem?_eq_getElem hlt, hrun, hk, by rw [haddress]⟩

theorem hasScript (h : image.Settled share debug textPushes) (name : String) {id : UInt32}
    (hpos : 0 < id.toNat) (hle : id.toNat ≤ image.scripts.length) :
    (image.asModule name textPushes).HasScript (.internal id) := by
  have hlt : id.toNat - 1 < image.scripts.length := by omega
  have hnumber := h.sound.numbered _ _ (List.getElem?_eq_getElem hlt)
  exact ⟨_, List.getElem_mem hlt, UInt32.toNat_inj.mp (by omega)⟩

theorem resolves {name : String} {s : Script} {id : UInt32} {var : VarName}
    (hvar : image.varName? s id = some var) :
    (image.asModule name textPushes).Resolves image.globals.slots.toNat s (.internal id) := by
  refine ⟨⟨var, hvar⟩, ?_⟩
  rintro v - -
  have hlt := v.toNat_lt
  change v.toNat + image.globals.slots.toNat < _ + image.globals.slots.toNat
  omega

/-- A settled image, taken as a module, has all that a link asks for. -/
theorem linksAfter (h : image.Settled share debug textPushes) (name : String) :
    (image.asModule name textPushes).LinksAfter image.globals.slots.toNat [] := by
  refine ⟨by decide, by simp, ?_, ?_, ?_, ?_⟩
  · intro v hv
    cases hv
  · intro v hv
    cases hv
  · intro n s hs
    obtain ⟨-, run, -, hrun⟩ := h.placed n s hs
    refine ⟨run, hrun, ?_⟩
    intro k ins hk
    have hresolved := h.resolved n s run hs hrun k ins hk
    have hlt := (List.getElem?_eq_some_iff.mp hk).1
    have hat : image.code[s.address.toNat + k]? = some ins := h.code_at hs hrun hlt ▸ hk
    have hstart : copiedLength [] + pieceStart (image.asModule name textPushes).runOf
        (image.asModule name textPushes).image.scripts n = s.address.toNat := by
      rw [← h.pieceStart_eq name hs]
      exact Nat.zero_add _
    have hstop : copiedLength ([] ++ [image.asModule name textPushes]) = image.code.length :=
      h.copiedLength_eq name
    rw [hstart, hstop]
    refine ⟨?_, ?_, ?_, ?_, ?_⟩
    · intro v hv
      obtain ⟨id, var, rfl, hvar⟩ := hresolved.var v hv
      exact resolves hvar
    · intro v hv
      obtain ⟨id, rfl, hpos, hle⟩ := hresolved.script v hv
      exact h.hasScript name hpos hle
    · rintro ⟨-, -, a, ha, haddress⟩
      obtain ⟨ins', w, t, hins', -, hw, hholds, hplain⟩ := h.pushes a ha
      rw [haddress, hat, Option.some.injEq] at hins'
      subst hins'
      exact ⟨w, t, hw, hholds, hplain⟩
    · intro a ha
      have hjump := h.sound.jumps ins (List.mem_of_getElem? hat) a ha
      omega
    · intro href
      obtain ⟨p, id, var, hk2, hp, hfloat, -, hvar⟩ := hresolved.reference href
      exact ⟨p, _, hk2, hp, hfloat, resolves hvar⟩
  · intro r hr
    obtain ⟨id, rfl, hpos, hle⟩ := h.sound.autostart r hr
    exact h.hasScript name hpos hle

/-! ### Linking a settled image -/

section

variable {name : String} {d' : Draft} {p : Prepared} {cs : List CopiedScript}

/-- Merged alone, a settled image is relocated to itself. -/
theorem fixes (h : image.Settled share debug textPushes) (hsize : image.data.size < 0x100000000)
    (hm : Draft.Merges share image.globals.slots {} (image.asModule name textPushes) d' p cs) :
    p.relocation.Fixes := by
  have hvars := mapM_length hm.prepares.importedVars
  have hscripts := mapM_length hm.prepares.importedScripts
  have hshift := hm.prepares.localShift
  obtain ⟨ts, b, listed, hwritten, -⟩ := h.texts
  obtain ⟨-, -, htexts⟩ := DataSection.Written.merges (m := image.asModule name textPushes)
    hwritten hsize hm
  refine ⟨List.eq_nil_of_length_eq_zero hvars, List.eq_nil_of_length_eq_zero hscripts,
    hm.prepares.globalOffset, ?_, ?_, htexts⟩
  · change _ = image.globals.slots.toNat + _ at hshift
    exact UInt32.toNat_inj.mp (by rw [UInt32.toNat_zero]; omega)
  · intro id new hlookup
    obtain ⟨n, s, hs, rfl, -, hnew⟩ :=
      hm.scriptId_internal (Relocation.scriptId_internal_eq_ok_iff.mpr hlookup)
    have hnumber := h.sound.numbered n s hs
    have hcount : ({} : Draft).scripts.length = 0 := rfl
    exact UInt32.toNat_inj.mp (by omega)

/-- Each script is its own copy. -/
theorem copy_eq (h : image.Settled share debug textPushes)
    (hsize : image.data.size < 0x100000000)
    (hm : Draft.Merges share image.globals.slots {} (image.asModule name textPushes) d' p cs)
    {n : Nat} {s : Script} (hs : image.scripts[n]? = some s) :
    ∃ c, cs[n]? = some c ∧ c.script = s ∧ (runs image.code)[n]? = some c.code := by
  have hfixes := h.fixes hsize hm
  obtain ⟨haddress, run, hn, hrun⟩ := h.placed n s hs
  obtain ⟨c, run', hc, hid, hcopied⟩ := hm.copy hs
  have hclosed : image.scriptCode? s = some run' := hcopied.closed
  rw [hrun, Option.some.injEq] at hclosed
  subst hclosed
  have hstart : Word.saturate (({} : Draft).code.length + pieceStart CopiedScript.code cs n) =
      s.address := by
    rw [pieceStart_congr hm.lengths]
    change Word.saturate (0 + pieceStart (image.asModule name textPushes).runOf image.scripts n) = _
    rw [Nat.zero_add, h.pieceStart_eq name hs]
    exact UInt32.toNat_inj.mp (Word.toNat_saturate s.address.toNat_lt)
  have hmoved := hcopied.moved
  have hscript := hcopied.script
  rw [hstart] at hmoved hscript
  refine ⟨c, hc, ?_, ?_⟩
  · have hnumber := h.sound.numbered n s hs
    have hcount : ({} : Draft).scripts.length = 0 := rfl
    have hsame : c.script.id = s.id := UInt32.toNat_inj.mp (by omega)
    have hboundary : Word.saturate (s.boundary.toNat + p.relocation.localShift.toNat) =
        s.boundary := by
      rw [hfixes.localShift]
      exact UInt32.toNat_inj.mp (Word.toNat_saturate s.boundary.toNat_lt)
    rw [hscript, hsame, hboundary]
  · have hsettle := hfixes.settle_eq hmoved fun k ins hk href => by
      obtain ⟨q, id, -, -, hq, hfloat, hoperand, -⟩ :=
        (h.resolved n s run hs hrun k ins hk).reference href
      exact ⟨q, id, hq, hfloat, hoperand⟩
    rw [hn]
    exact congrArg some hsettle.symm

theorem scripts_eq (h : image.Settled share debug textPushes)
    (hsize : image.data.size < 0x100000000)
    (hm : Draft.Merges share image.globals.slots {} (image.asModule name textPushes) d' p cs) :
    d'.scripts = image.scripts ∧ d'.code = image.code := by
  have hlength : cs.length = image.scripts.length := hm.length
  have hnone : ∀ n : Nat, image.scripts[n]? = none →
      cs[n]? = none ∧ (runs image.code)[n]? = none := by
    intro n hn
    have hcount := h.sound.count
    rw [List.getElem?_eq_none_iff] at hn
    exact ⟨List.getElem?_eq_none_iff.mpr (by omega), List.getElem?_eq_none_iff.mpr (by omega)⟩
  constructor
  · have hscripts : d'.scripts = cs.map CopiedScript.script := hm.scripts
    rw [hscripts]
    refine List.ext_getElem? fun n => ?_
    rw [List.getElem?_map]
    cases hs : image.scripts[n]? with
    | none =>
        rw [(hnone n hs).1]
        rfl
    | some s =>
        obtain ⟨c, hc, hscript, -⟩ := h.copy_eq hsize hm hs
        rw [hc, Option.map_some, hscript]
  · have hruns : cs.map CopiedScript.code = runs image.code := by
      refine List.ext_getElem? fun n => ?_
      rw [List.getElem?_map]
      cases hs : image.scripts[n]? with
      | none =>
          rw [(hnone n hs).1, (hnone n hs).2]
          rfl
      | some s =>
          obtain ⟨c, hc, -, hrun⟩ := h.copy_eq hsize hm hs
          rw [hc, Option.map_some, hrun]
    have hcode : d'.code = cs.flatMap CopiedScript.code := hm.code
    rw [hcode, List.flatMap_def, hruns, h.sound.tiled]

theorem globals_eq (h : image.Settled share debug textPushes)
    (hm : Draft.Merges share image.globals.slots {} (image.asModule name textPushes) d' p cs) :
    d'.globals = image.globals := by
  obtain ⟨hdeclared, hvars⟩ := hm.declared .empty
  exact hdeclared.consistent.ext h.sound.declared.consistent hvars

theorem inits_eq (h : image.Settled share debug textPushes)
    (hm : Draft.Merges share image.globals.slots {} (image.asModule name textPushes) d' p cs) :
    d'.inits = image.inits := by
  obtain ⟨rest, hrest⟩ := h.inits
  rw [hm.inits, hm.prepares.inits]
  change [Initializer.null] ++ image.inits.drop 1 = image.inits
  rw [← hrest]
  rfl

theorem autostart_eq (h : image.Settled share debug textPushes)
    (hsize : image.data.size < 0x100000000)
    (hm : Draft.Merges share image.globals.slots {} (image.asModule name textPushes) d' p cs) :
    d'.autostart = image.autostart := by
  have hfixes := h.fixes hsize hm
  obtain ⟨ids, hids, hauto⟩ := hm.autostart
  have hsame : ids = image.autostart.map id := by
    refine mapM_eq_map hids ?_
    rintro r - r' hr
    obtain ⟨new, hnew, rfl⟩ := Draft.resolveAutostart_eq_ok_iff.mp hr
    exact (hfixes.scriptId hnew).symm
  rw [hauto, hsame, List.map_id]
  rfl

/-- The addresses listed again are those listed before. -/
theorem textPushes_eq (h : image.Settled share debug textPushes)
    (hcode : image.code.length < 0x100000000) (hsize : image.data.size < 0x100000000)
    (hm : Draft.Merges share image.globals.slots {} (image.asModule name textPushes) d' p cs)
    (hrun : mergeAll share image.globals.slots {} [image.asModule name textPushes] = .ok d')
    {listed : List UInt32} (hascending : listed.Pairwise (· < ·))
    (hlisted : ∀ a, a ∈ listed ↔ a ∈ textPushes) : d'.textPushes = listed := by
  obtain ⟨hscripts, hcode'⟩ := h.scripts_eq hsize hm
  have hsmall : d'.code.length < 0x100000000 := hcode' ▸ hcode
  have hlists := Draft.lists_of_mergeAll Draft.lists_empty Draft.sound_empty hrun hsmall
  refine hlists.ascending.eq_of_mem_iff hascending fun a => ?_
  rw [hlisted, Draft.mem_textPushes_iff hrun hsmall debug]
  have hindex : ∀ n, copyIndex [image.asModule name textPushes] 0 n = n := Nat.zero_add
  constructor
  · rintro ⟨i, m, n, s, run, k, ins, s', hmarked, hs', ha⟩
    obtain ⟨rfl, rfl⟩ : i = 0 ∧ m = image.asModule name textPushes := by
      have hmodule := hmarked.module
      cases i with
      | zero => exact ⟨rfl, (Option.some.inj hmodule).symm⟩
      | succ i => simp at hmodule
    have hs : image.scripts[n]? = some s := hmarked.script
    change d'.scripts[_]? = _ at hs'
    rw [hscripts, hindex, hs, Option.some.injEq] at hs'
    subst hs'
    obtain ⟨-, -, a', ha', haddress⟩ := hmarked.marked
    rwa [show a = a' from UInt32.toNat_inj.mp (ha.trans haddress.symm)]
  · intro ha
    obtain ⟨ins, w, t, hins, hpush, hw, -⟩ := h.pushes a ha
    obtain ⟨n, s, run, k, hs, hclosed, hk, haddress⟩ := h.exists_script hins
    refine ⟨0, _, n, s, run, k, ins, s, ⟨rfl, hs, hclosed, hk, hpush, ⟨w, hw⟩, a, ha, haddress⟩,
      ?_, haddress⟩
    change d'.scripts[_]? = _
    rw [hscripts, hindex, hs]

/-- A settled image can be merged. -/
theorem exists_merge (h : image.Settled share debug textPushes)
    (hcode : image.code.length < 0x100000000) (hsize : image.data.size < 0x100000000)
    (name : String) : ∃ d',
      ({} : Draft).merge share image.globals.slots (image.asModule name textPushes) = .ok d' := by
  have hconsistent := h.sound.declared.consistent
  have hslots := hconsistent.slots
  have hbounded := hconsistent.bounded
  obtain ⟨ts, b, listed, hwritten, -⟩ := h.texts
  have hdata : image.data.Consistent := by
    change image.data.bytes.length < _ at hsize
    rw [hwritten.data_eq] at hsize ⊢
    exact DataSection.consistent_ofTexts hsize
  refine Draft.exists_merge (.refl Draft.sound_empty) (TextPool.stores_empty _)
    h.sound.declared hdata hcode ?_ (h.linksAfter name) ?_ (by omega)
  · exact (h.copiedLength_eq name).symm ▸ hcode
  · exact (Nat.zero_add _).le

/-- The data written again are those written before. -/
theorem finalData_eq (h : image.Settled share debug textPushes)
    (hcode : image.code.length < 0x100000000) (hsize : image.data.size < 0x100000000)
    (hm : Draft.Merges share image.globals.slots {} (image.asModule name textPushes) d' p cs)
    (hrun : mergeAll share image.globals.slots {} [image.asModule name textPushes] = .ok d') :
    d'.finalData debug = image.data := by
  obtain ⟨ts, b, listed, hwritten, hascending, hlisted⟩ := h.texts
  obtain ⟨hstores, hinfo, -⟩ := DataSection.Written.merges (m := image.asModule name textPushes)
    hwritten hsize hm
  rw [Draft.finalData_eq hstores, hwritten.data_eq, Draft.metadataTexts_eq,
    h.textPushes_eq hcode hsize hm hrun hascending hlisted]
  split
  · rename_i hdebug
    rw [hinfo hdebug]
  · rfl

end

/-- Linked alone with the options it was linked with, a settled image comes out as it is. -/
theorem relink {options : LinkOptions}
    (h : image.Settled options.sharedTexts options.debugMetadata textPushes)
    (hcode : image.code.length < 0x100000000) (hsize : image.data.size < 0x100000000)
    (name : String) : ∃ relinked,
      link options [image.asModule name textPushes] = .ok relinked ∧ relinked.image = image := by
  have hslots := h.sound.declared.consistent.slots
  have hbounded := h.sound.declared.consistent.bounded
  obtain ⟨d', hmerge⟩ := h.exists_merge hcode hsize name
  obtain ⟨p, cs, hm⟩ := Draft.merges_of_merge hmerge
  have hrun : mergeAll options.sharedTexts image.globals.slots {}
      [image.asModule name textPushes] = .ok d' := Draft.mergeAll_cons_eq_ok.mpr ⟨d', hmerge, rfl⟩
  have htotal : totalSlots [image.asModule name textPushes] = .ok image.globals.slots := by
    refine totalSlots_eq_ok_iff.mpr ⟨?_, by omega⟩
    exact (Nat.add_zero _).symm
  obtain ⟨hscripts, hcode'⟩ := h.scripts_eq hsize hm
  refine ⟨_, link_eq_ok_iff.mpr ⟨_, d', htotal, hrun, rfl⟩, ?_⟩
  change d'.toImage options.debugMetadata = image
  rw [Draft.toImage, h.globals_eq hm, hscripts, hcode', h.finalData_eq hcode hsize hm hrun,
    h.autostart_eq hsize hm, h.inits_eq hm, ← h.version]

end Settled

end Image

end ScriptImage
