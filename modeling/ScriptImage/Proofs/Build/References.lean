import ScriptImage.Proofs.Build.Calls
import ScriptImage.Proofs.Distinct
import ScriptImage.Proofs.Sections
import ScriptImage.Proofs.Slots

/-!
What the answers of a builder refer to. An answer is about the module as it stands when the call is
made; that it means the same in the finished module is shown in two steps: what it refers to is
there when it is given, and no later call moves it.
-/

namespace ScriptImage

namespace Builder

/-! ### What a call keeps -/

namespace Effect

variable {b b' : Builder} {c : Call}

theorem declared (h : Effect b c b') (hb : b.image.globals.Declared) :
    b'.image.globals.Declared := by
  rcases h.globals with ⟨hsame, -⟩ | ⟨v, id, -, hd⟩
  · rwa [hsame]
  · exact .declare hb hd

theorem vars (h : Effect b c b') : b'.image.globals.vars = b.image.globals.vars ++ c.vars := by
  rcases h.globals with ⟨hsame, hvars⟩ | ⟨v, id, hvars, hd⟩
  · rw [hsame, hvars, List.append_nil]
  · rw [hvars, GlobalTable.declare_vars hd]

theorem slots_le (h : Effect b c b') (hb : b.image.globals.Declared) :
    b.image.globals.slots ≤ b'.image.globals.slots := by
  have hslots := hb.consistent.slots
  have hslots' := (h.declared hb).consistent.slots
  rw [h.vars, slotsOf_append] at hslots'
  rw [UInt32.le_iff_toNat_le]
  omega

theorem length_patch (c : Call) (code : List Instruction) :
    (c.patch code).length = code.length := by
  cases c with
  | patchJump address target => exact List.length_modify ..
  | _ => rfl

theorem code_length (h : Effect b c b') :
    b'.image.code.length = b.image.code.length + (c.code b).length := by
  rw [h.code, length_patch, List.length_append]

theorem nextAddress_le (h : Effect b c b') : b.image.nextAddress ≤ b'.image.nextAddress := by
  have hlength := h.code_length
  rw [UInt32.le_iff_toNat_le, Image.nextAddress, Image.nextAddress, Word.toNat_saturate_eq,
    Word.toNat_saturate_eq]
  omega

/-- An instruction that is no jump stays where it is and as it is. -/
theorem getElem?_code (h : Effect b c b') {k : Nat} {i : Instruction}
    (hi : b.image.code[k]? = some i) (hjump : ∀ a, i.operand ≠ .address a) :
    b'.image.code[k]? = some i := by
  have hk := (List.getElem?_eq_some_iff.mp hi).1
  have happend : (b.image.code ++ c.code b)[k]? = some i := by
    rw [List.getElem?_append_left hk, hi]
  rw [h.code]
  cases c with
  | patchJump address target =>
      rw [Call.patch, List.getElem?_modify, happend, Option.map_eq_map, Option.map_some]
      split
      · split
        · rename_i a ha
          exact absurd ha (hjump a)
        · rfl
      · rfl
  | _ => exact happend

end Effect

/-! ### The tables of a builder -/

/-- What every state of a builder has in common. -/
structure Sound (b : Builder) : Prop where
  declared : b.image.globals.Declared
  ids : ∀ i s, b.image.scripts[i]? = some s → s.id.toNat = i + 1
  addresses : b.image.scripts.Pairwise fun s s' => s.address ≤ s'.address
  reached : ∀ s ∈ b.image.scripts, s.address ≤ b.image.nextAddress
  boundaries : ∀ s ∈ b.image.scripts, s.boundary ≤ b.image.globals.slots
  importedVars : b.result.importedVars.Nodup
  importedScripts : b.result.importedScripts.Nodup
  textPushes : b.result.textPushes.Pairwise (· < ·)

theorem sound_new (name : String) : (new name).Sound where
  declared := .empty
  ids := by simp [new, image]
  addresses := .nil
  reached := by simp [new, image]
  boundaries := by simp [new, image]
  importedVars := .nil
  importedScripts := .nil
  textPushes := .nil

/-- A script is begun at the current address, with the next id and all slots in sight. -/
theorem scripts_cases {b : Builder} {c : Call} (hfits : b.overflows c = false) :
    c.scripts b = [] ∨ ∃ s, c.scripts b = [s] ∧ s.id.toNat = b.image.scripts.length + 1 ∧
      s.address = b.image.nextAddress ∧ s.boundary = b.image.globals.slots := by
  cases c with
  | beginScript name params locals =>
      have hlength : b.image.scripts.length < 0xFFFFFFFF := by
        simpa [overflows] using hfits
      have hcount := Word.toNat_saturate (n := b.image.scripts.length) (by omega)
      refine .inr ⟨_, rfl, ?_, rfl, rfl⟩
      rw [UInt32.toNat_add, UInt32.toNat_one, hcount, Nat.mod_eq_of_lt (by omega)]
  | _ => exact .inl rfl

theorem Sound.step {b b' : Builder} {c : Call} (h : b.Sound) (he : Effect b c b') : b'.Sound := by
  have hslots := he.slots_le h.declared
  have hnext := he.nextAddress_le
  have hreached : ∀ s ∈ b.image.scripts, s.address ≤ b'.image.nextAddress :=
    fun s hs => UInt32.le_trans (h.reached s hs) hnext
  have hboundaries : ∀ s ∈ b.image.scripts, s.boundary ≤ b'.image.globals.slots :=
    fun s hs => UInt32.le_trans (h.boundaries s hs) hslots
  have hvars : b'.result.importedVars.Nodup := by
    rw [he.importedVars]
    exact nodup_foldl_insertNew h.importedVars _
  have hscripts : b'.result.importedScripts.Nodup := by
    rw [he.importedScripts]
    exact nodup_foldl_insertNew h.importedScripts _
  have hpushes : b'.result.textPushes.Pairwise (· < ·) := by
    rw [he.textPushes]
    exact (foldl_insertAscending_spec _ _ h.textPushes).1
  rcases scripts_cases he.fits with hnone | ⟨s, hone, hid, haddress, hboundary⟩
  · have hsame : b'.image.scripts = b.image.scripts := by
      rw [he.scripts, hnone, List.append_nil]
    exact ⟨he.declared h.declared, hsame ▸ h.ids, hsame ▸ h.addresses, hsame ▸ hreached,
      hsame ▸ hboundaries, hvars, hscripts, hpushes⟩
  · have hmore : b'.image.scripts = b.image.scripts ++ [s] := by rw [he.scripts, hone]
    refine ⟨he.declared h.declared, ?_, ?_, ?_, ?_, hvars, hscripts, hpushes⟩
    · intro i t ht
      rw [hmore, List.getElem?_append] at ht
      split at ht
      · exact h.ids i t ht
      · rename_i hge
        rw [List.getElem?_singleton] at ht
        split at ht
        · cases ht
          omega
        · cases ht
    · rw [hmore]
      refine List.pairwise_append.mpr ⟨h.addresses, List.pairwise_singleton _ _, ?_⟩
      intro t ht u hu
      rw [List.mem_singleton.mp hu, haddress]
      exact h.reached t ht
    · intro t ht
      rw [hmore] at ht
      rcases List.mem_append.mp ht with ht | ht
      · exact hreached t ht
      · rw [List.mem_singleton.mp ht, haddress]
        exact hnext
    · intro t ht
      rw [hmore] at ht
      rcases List.mem_append.mp ht with ht | ht
      · exact hboundaries t ht
      · rw [List.mem_singleton.mp ht, hboundary]
        exact hslots

section Run

variable {calls : List Call} {b b' : Builder} {answers : List Answer}
  (h : b.run calls = .ok (answers, b'))
include h

theorem Sound.run (hb : b.Sound) : b'.Sound :=
  run_invariant Sound (fun _ _ _ _ hs he => hs.step he) hb h

/-! ### What later calls keep -/

theorem scripts_prefix_of_run : b.image.scripts <+: b'.image.scripts :=
  run_invariant (fun b' => b.image.scripts <+: b'.image.scripts)
    (fun _ _ _ _ hp he => hp.trans (he.scripts ▸ List.prefix_append _ _)) (List.prefix_refl _) h

theorem code_length_le_of_run : b.image.code.length ≤ b'.image.code.length :=
  run_invariant (fun b' => b.image.code.length ≤ b'.image.code.length)
    (fun _ _ _ _ hle he => Nat.le_trans hle (he.code_length ▸ Nat.le_add_right _ _))
    (Nat.le_refl _) h

theorem getElem?_code_of_run {k : Nat} {i : Instruction} (hi : b.image.code[k]? = some i)
    (hjump : ∀ a, i.operand ≠ .address a) : b'.image.code[k]? = some i :=
  run_invariant (fun b => b.image.code[k]? = some i)
    (fun _ _ _ _ hi he => he.getElem?_code hi hjump) hi h

theorem getElem?_importedVars_of_run {k : Nat} {v : ImportedVar}
    (hv : b.result.importedVars[k]? = some v) : b'.result.importedVars[k]? = some v := by
  refine run_invariant (fun b => b.result.importedVars[k]? = some v) ?_ hv h
  intro c _ b b' hv he
  rw [he.importedVars]
  exact getElem?_foldl_insertNew hv _

theorem getElem?_importedScripts_of_run {k : Nat} {s : ImportedScript}
    (hs : b.result.importedScripts[k]? = some s) : b'.result.importedScripts[k]? = some s := by
  refine run_invariant (fun b => b.result.importedScripts[k]? = some s) ?_ hs h
  intro c _ b b' hs he
  rw [he.importedScripts]
  exact getElem?_foldl_insertNew hs _

theorem mem_textPushes_of_run {a : UInt32} (ha : a ∈ b.result.textPushes) :
    a ∈ b'.result.textPushes := by
  refine run_invariant (fun b => a ∈ b.result.textPushes) ?_ ha h
  intro c _ b b' ha he
  rw [he.textPushes]
  exact mem_foldl_insertAscending.mpr (.inr ha)

theorem mem_placed_of_run (hb : b.Sound) {id : UInt32} {v : GlobalVar}
    (hmem : (id, v) ∈ b.image.globals.placed) : (id, v) ∈ b'.image.globals.placed := by
  refine (run_invariant (fun b => b.image.globals.Declared ∧ (id, v) ∈ b.image.globals.placed) ?_
    ⟨hb.declared, hmem⟩ h).2
  rintro c - b b' ⟨hdeclared, hmem⟩ he
  refine ⟨he.declared hdeclared, ?_⟩
  rcases he.globals with ⟨hsame, -⟩ | ⟨w, i, -, hd⟩
  · rwa [hsame]
  · rw [GlobalTable.placed_declare hdeclared.consistent hd]
    exact List.mem_append_left _ hmem

/-! ### The scripts and texts of a run -/

theorem scripts_length_of_run :
    b'.image.scripts.length = b.image.scripts.length + calls.countP Call.begins := by
  induction calls generalizing b answers with
  | nil =>
      cases h
      rfl
  | cons c cs ih =>
      obtain ⟨a, b₁, as, hc, hrun, rfl⟩ := run_cons_eq_ok_iff.mp h
      have hone : (c.scripts b).length = if c.begins then 1 else 0 := by cases c <;> rfl
      rw [ih hrun, (effect_of_perform hc).scripts, List.length_append, hone, List.countP_cons]
      omega

/-- The texts of a run, as the data section stores them. -/
theorem data_eq_ofTexts (hb : b.image.data = {}) :
    b'.image.data = .ofTexts ((calls.flatMap Call.texts).map Utf8.encode) := by
  rw [data_of_run h, hb, DataSection.ofTexts, List.foldl_map]
  rfl

end Run

/-! ### What the answers refer to -/

/-- The answers of calls refer to what the finished module holds for them. -/
structure References (calls : List Call) (answers : List Answer) (m : ObjectModule) : Prop where
  scriptIds : ∀ (i : Nat) s, m.image.scripts[i]? = some s → s.id.toNat = i + 1
  addresses : m.image.scripts.Pairwise fun s s' => s.address ≤ s'.address
  boundaries : ∀ s ∈ m.image.scripts, s.boundary ≤ m.image.globals.slots
  /-- A script stands behind those begun before it. -/
  scripts : ∀ (n : Nat) name params locals, calls[n]? = some (.beginScript name params locals) →
    ∃ s, m.image.scripts[(calls.take n).countP Call.begins]? = some s ∧
      answers[n]? = some (.symbol (.internal s.id)) ∧
      s.name = name ∧ s.params = params ∧ s.locals = locals
  globals : ∀ (n : Nat) name, calls[n]? = some (.global name) →
    ∃ id, answers[n]? = some (.symbol (.internal id)) ∧
      m.image.globals.bySlot? id = some (.scalar name, 0)
  arrays : ∀ (n : Nat) name size, calls[n]? = some (.array name size) →
    ∃ id, answers[n]? = some (.symbol (.internal id)) ∧
      m.image.globals.bySlot? id = some (.array name size, 0)
  importedVars : ∀ (n : Nat) name index, calls[n]? = some (.importVar name index) →
    ∃ p, answers[n]? = some (.symbol (.external p)) ∧ m.importedVars[p.toNat]? = some ⟨name, index⟩
  importedScripts : ∀ (n : Nat) name params, calls[n]? = some (.importScript name params) →
    ∃ p, answers[n]? = some (.symbol (.external p)) ∧
      m.importedScripts[p.toNat]? = some ⟨name, params⟩
  /-- Two calls share a placeholder when they ask for the same variable, and only then. -/
  sharedVars : ∀ (n k : Nat) name index name' index', calls[n]? = some (.importVar name index) →
    calls[k]? = some (.importVar name' index') →
    (answers[n]? = answers[k]? ↔ name = name' ∧ index = index')
  sharedScripts : ∀ (n k : Nat) name params name' params',
    calls[n]? = some (.importScript name params) →
    calls[k]? = some (.importScript name' params') →
    (answers[n]? = answers[k]? ↔ name = name' ∧ params = params')
  /-- The script open at a call is the last of those begun before it. -/
  locals : ∀ (n : Nat) name r, calls[n]? = some (.local name) →
    answers[n]? = some (.symbol? (some r)) →
    ∃ id k s, r = .internal id ∧ (calls.take n).countP Call.begins = k + 1 ∧
      m.image.scripts[k]? = some s ∧ m.image.varName? s id = some (.local name)
  pushes : ∀ (n : Nat) s, calls[n]? = some (.pushText s) →
    ∃ a v, answers[n]? = some (.word a) ∧ a ∈ m.textPushes ∧
      m.image.code[a.toNat]? = some (.pushInt v) ∧ 0 ≤ v.toInt ∧
      m.image.data.textAt? v.toUInt32 = .ok (some s)
  /-- Only pushes of texts are recorded. -/
  recorded : ∀ a ∈ m.textPushes, ∃ (n : Nat) (s : String), calls[n]? = some (.pushText s) ∧
    answers[n]? = some (.word a)

section Answers

variable {calls : List Call} {b b' : Builder} {answers : List Answer} {n : Nat}

theorem declare_of_perform {c : Call} {a : Answer} {v : GlobalVar}
    (h : b.perform c = .ok (a, b')) (hv : v ∈ c.vars) :
    ∃ id, a = .symbol (.internal id) ∧
      b.image.globals.declare v = .ok (id, b'.image.globals) := by
  have hanswer : ∀ w name,
      Prod.map Answer.symbol id <$> (b.declare w).mapError (Panic.refused name) = .ok (a, b') →
      ∃ id, a = .symbol (.internal id) ∧
        b.image.globals.declare w = .ok (id, b'.image.globals) := by
    intro w name hd
    simp only [map_eq_ok, mapError_eq_ok, Prod.exists, declare_eq_ok_iff] at hd
    obtain ⟨r, b₁, ⟨i, t, hd, rfl, rfl⟩, heq⟩ := hd
    cases heq
    exact ⟨i, rfl, hd⟩
  cases c with
  | global name =>
      obtain rfl := List.mem_singleton.mp hv
      exact hanswer _ name h
  | array name size =>
      obtain rfl := List.mem_singleton.mp hv
      exact hanswer _ name h
  | _ => cases hv

theorem exists_slot_of_run (hb : b.Sound) (h : b.run calls = .ok (answers, b')) {c : Call}
    {v : GlobalVar} (hc : calls[n]? = some c) (hv : v ∈ c.vars) :
    ∃ id, answers[n]? = some (.symbol (.internal id)) ∧
      b'.image.globals.bySlot? id = some (v, 0) := by
  obtain ⟨b₀, a, b₁, hbefore, hperform, hanswer, hafter⟩ := exists_perform_of_run h hc
  obtain ⟨id, rfl, hd⟩ := declare_of_perform hperform hv
  have hsound₀ := hb.run hbefore
  have hsound₁ := hsound₀.step (effect_of_perform hperform)
  have hmem : (id, v) ∈ b₁.image.globals.placed := by
    rw [GlobalTable.placed_declare hsound₀.declared.consistent hd]
    exact List.mem_append_right _ List.mem_cons_self
  have hslot := GlobalTable.bySlot?_of_mem_placed (hsound₁.run hafter).declared.consistent
    (mem_placed_of_run hafter hsound₁ hmem) (k := 0) v.span_pos
  rw [UInt32.add_zero] at hslot
  exact ⟨id, hanswer, hslot⟩

/-- A position is not cut off when words number the whole table. -/
theorem getElem?_saturate {α : Type} {xs : List α} {k : Nat} {x : α}
    (hsize : xs.length < 0x100000000) (hx : xs[k]? = some x) :
    xs[(Word.saturate k).toNat]? = some x := by
  have hlt := (List.getElem?_eq_some_iff.mp hx).1
  rw [Word.toNat_saturate (by omega)]
  exact hx

theorem exists_importedVar_of_run (h : b.run calls = .ok (answers, b'))
    (hsize : b'.result.importedVars.length < 0x100000000) {name : String} {index : UInt32}
    (hc : calls[n]? = some (.importVar name index)) :
    ∃ p, answers[n]? = some (.symbol (.external p)) ∧
      b'.result.importedVars[p.toNat]? = some ⟨name, index⟩ := by
  obtain ⟨b₀, a, b₁, -, hperform, hanswer, hafter⟩ := exists_perform_of_run h hc
  cases hperform
  have hself := getElem?_insertNew_self b₀.result.importedVars ⟨name, index⟩
  have hkept := getElem?_importedVars_of_run hafter hself
  exact ⟨_, hanswer, getElem?_saturate hsize hkept⟩

theorem exists_importedScript_of_run (h : b.run calls = .ok (answers, b'))
    (hsize : b'.result.importedScripts.length < 0x100000000) {name : String} {params : UInt32}
    (hc : calls[n]? = some (.importScript name params)) :
    ∃ p, answers[n]? = some (.symbol (.external p)) ∧
      b'.result.importedScripts[p.toNat]? = some ⟨name, params⟩ := by
  obtain ⟨b₀, a, b₁, -, hperform, hanswer, hafter⟩ := exists_perform_of_run h hc
  cases hperform
  have hself := getElem?_insertNew_self b₀.result.importedScripts ⟨name, params⟩
  have hkept := getElem?_importedScripts_of_run hafter hself
  exact ⟨_, hanswer, getElem?_saturate hsize hkept⟩

/-- In a table without repetition positions are the same when the elements are. -/
theorem position_eq_iff {α : Type} {xs : List α} (hnodup : xs.Nodup) {p q : UInt32} {x y : α}
    (hx : xs[p.toNat]? = some x) (hy : xs[q.toNat]? = some y) : p = q ↔ x = y := by
  constructor
  · rintro rfl
    rw [hx, Option.some.injEq] at hy
    exact hy
  · rintro rfl
    have hlt := (List.getElem?_eq_some_iff.mp hx).1
    exact UInt32.toNat_inj.mp ((List.getElem?_inj hlt hnodup).mp (hx.trans hy.symm))

/-- The id of a local is found by counting on from the boundary. -/
theorem varName?_of_local? {name : String} {r : SymbolRef}
    (hfits : b.overflows (.local name) = false) (hlocal : b.local? name = some r) :
    ∃ id s, r = .internal id ∧ b.image.scripts.getLast? = some s ∧
      ∀ m : Image, m.varName? s id = some (.local name) := by
  simp only [local?, Option.bind_eq_bind, Option.pure_def, Option.bind_eq_some_iff,
    Option.some.injEq] at hlocal
  obtain ⟨s, hs, i, hi, rfl⟩ := hlocal
  have hsum : s.boundary.toNat + 1 + (Word.saturate i).toNat < 0x100000000 := by
    simpa [overflows, hs, hi] using hfits
  have hcount : (Word.saturate i).toNat = i := by
    have := Word.toNat_saturate_eq i
    omega
  have hid : (s.boundary + 1 + Word.saturate i).toNat = s.boundary.toNat + 1 + i := by
    rw [UInt32.toNat_add, UInt32.toNat_add, UInt32.toNat_one, hcount]
    omega
  obtain ⟨hlt, hname, -⟩ := List.findIdx?_eq_some_iff_getElem.mp hi
  refine ⟨_, s, rfl, hs, fun m => ?_⟩
  have h0 : s.boundary + 1 + Word.saturate i ≠ 0 := Word.toNat_pos.mp (by omega)
  have hle : ¬ s.boundary + 1 + Word.saturate i ≤ s.boundary := by
    rw [UInt32.le_iff_toNat_le]
    omega
  rw [Image.varName?, if_neg h0, if_neg hle, hid,
    show s.boundary.toNat + 1 + i - s.boundary.toNat - 1 = i by omega,
    List.getElem?_eq_getElem hlt, beq_iff_eq.mp hname]
  rfl

theorem exists_script_of_run (h : b.run calls = .ok (answers, b')) (hb : b.image.scripts = [])
    {name : String} {params : UInt32} {locals : List String}
    (hc : calls[n]? = some (.beginScript name params locals)) :
    ∃ s, b'.image.scripts[(calls.take n).countP Call.begins]? = some s ∧
      answers[n]? = some (.symbol (.internal s.id)) ∧
      s.name = name ∧ s.params = params ∧ s.locals = locals := by
  obtain ⟨b₀, a, b₁, hbefore, hperform, hanswer, hafter⟩ := exists_perform_of_run h hc
  have he := effect_of_perform hperform
  have hlength := scripts_length_of_run hbefore
  rw [hb, List.length_nil, Nat.zero_add] at hlength
  obtain ⟨newer, hnewer⟩ := scripts_prefix_of_run hafter
  obtain ⟨s, hs, hid, hheader⟩ : ∃ s, (Call.beginScript name params locals).scripts b₀ = [s] ∧
      (b₀.beginScript name params locals).1 = .internal s.id ∧
      s.name = name ∧ s.params = params ∧ s.locals = locals := ⟨_, rfl, rfl, rfl, rfl, rfl⟩
  have ha : a = .symbol (b₀.beginScript name params locals).1 := by
    rw [perform, if_neg (by simp [he.fits])] at hperform
    cases hperform
    rfl
  refine ⟨s, ?_, ?_, hheader⟩
  · rw [← hnewer, he.scripts, hs, ← hlength, List.append_assoc,
      List.getElem?_append_right (Nat.le_refl _), Nat.sub_self]
    rfl
  · rw [hanswer, ha, hid]

theorem exists_local_of_run (h : b.run calls = .ok (answers, b')) (hb : b.image.scripts = [])
    {name : String} {r : SymbolRef} (hc : calls[n]? = some (.local name))
    (hr : answers[n]? = some (.symbol? (some r))) :
    ∃ id k s, r = .internal id ∧ (calls.take n).countP Call.begins = k + 1 ∧
      b'.image.scripts[k]? = some s ∧ b'.image.varName? s id = some (.local name) := by
  obtain ⟨b₀, a, b₁, hbefore, hperform, hanswer, hafter⟩ := exists_perform_of_run h hc
  have he := effect_of_perform hperform
  have ha : a = .symbol? (b₀.local? name) := by
    rw [perform, if_neg (by simp [he.fits])] at hperform
    cases hperform
    rfl
  rw [hanswer, Option.some.injEq, ha, Answer.symbol?.injEq] at hr
  obtain ⟨id, s, rfl, hs, hname⟩ := varName?_of_local? he.fits hr
  obtain ⟨older, holder⟩ := List.getLast?_eq_some_iff.mp hs
  have hlength := scripts_length_of_run hbefore
  rw [hb, holder, List.length_append, List.length_nil, Nat.zero_add] at hlength
  -- later calls add scripts behind the one that is open
  have hprefix : b₀.image.scripts <+: b'.image.scripts :=
    (he.scripts ▸ List.prefix_append _ _ : b₀.image.scripts <+: b₁.image.scripts).trans
      (scripts_prefix_of_run hafter)
  obtain ⟨newer, hnewer⟩ := hprefix
  refine ⟨id, older.length, s, rfl, hlength.symm, ?_, hname _⟩
  rw [← hnewer, holder, List.append_assoc, List.getElem?_append_right (Nat.le_refl _)]
  simp

/-- A text stands where the texts before it end. -/
theorem texts_of_run (h : b.run calls = .ok (answers, b')) (hb : b.image.data = {}) {b₀ : Builder}
    {before : List Answer} (hbefore : b.run (calls.take n) = .ok (before, b₀)) {c : Call}
    (hc : calls[n]? = some c) {s : String} (hs : c.texts = [s]) :
    ∃ ts k, b'.image.data = .ofTexts ts ∧ ts[k]? = some (Utf8.encode s) ∧
      b₀.image.data.bytes.length = DataSection.textStart ts k := by
  have hsplit : (calls.flatMap Call.texts).map Utf8.encode =
      ((calls.take n).flatMap Call.texts).map Utf8.encode ++
        Utf8.encode s :: ((calls.drop (n + 1)).flatMap Call.texts).map Utf8.encode := by
    rw [flatMap_eq_append hc, hs, List.map_append]
    rfl
  refine ⟨_, (((calls.take n).flatMap Call.texts).map Utf8.encode).length,
    data_eq_ofTexts h hb, ?_, ?_⟩
  · rw [hsplit, List.getElem?_append_right (Nat.le_refl _), Nat.sub_self]
    rfl
  · rw [hsplit, DataSection.textStart_append _ (Nat.le_refl _), DataSection.textStart_length,
      data_eq_ofTexts hbefore hb]

/-- The push of a text carries the offset of it. -/
theorem exists_offset_of_run (h : b.run calls = .ok (answers, b')) (hb : b.image.data = {})
    (hcode : b'.image.code.length < 0x100000000) (hdata : b'.image.data.bytes.length < 0x80000000)
    {s : String} (hc : calls[n]? = some (.pushText s)) :
    ∃ b₀ a v, b.run (calls.take n) = .ok (answers.take n, b₀) ∧ answers[n]? = some (.word a) ∧
      a ∈ b'.result.textPushes ∧ b'.image.code[a.toNat]? = some (.pushInt v) ∧ 0 ≤ v.toInt ∧
      v.toUInt32 = Word.saturate b₀.image.data.bytes.length := by
  obtain ⟨b₀, a, b₁, hbefore, hperform, hanswer, hafter⟩ := exists_perform_of_run h hc
  have he := effect_of_perform hperform
  have hcode₀ : b₀.image.code.length < 0x100000000 := by
    have hlength := he.code_length
    have hle := code_length_le_of_run hafter
    omega
  have haddress : b₀.image.nextAddress.toNat = b₀.image.code.length :=
    Word.toNat_saturate hcode₀
  have hrecorded : b₀.image.nextAddress ∈ b₁.result.textPushes := by
    rw [he.textPushes]
    exact mem_insertAscending.mpr (.inl rfl)
  have hpush : b₁.image.code[b₀.image.code.length]? =
      some (.pushInt (Word.saturateSigned (Word.saturate b₀.image.data.bytes.length))) := by
    rw [he.code]
    exact List.getElem?_concat_length
  -- the text lies in the finished data, so its offset is not cut off
  have hoffset : (Word.saturate b₀.image.data.bytes.length).toNat < 0x80000000 := by
    obtain ⟨ts, k, hts, hk, hstart⟩ := texts_of_run h hb hbefore hc rfl
    have hinside := DataSection.textStart_add_length_lt hk
    have hle := Word.toNat_saturate_le b₀.image.data.bytes.length
    rw [← hts] at hinside
    omega
  obtain ⟨hpos, hword⟩ := Word.toUInt32_saturateSigned hoffset
  refine ⟨b₀, b₀.image.nextAddress, _, hbefore, ?_, mem_textPushes_of_run hafter hrecorded, ?_,
    hpos, hword⟩
  · cases hperform
    exact hanswer
  · rw [haddress]
    exact getElem?_code_of_run hafter hpush (by simp [Instruction.pushInt])

theorem exists_push_of_run (h : b.run calls = .ok (answers, b')) (hb : b.image.data = {})
    (hcode : b'.image.code.length < 0x100000000) (hdata : b'.image.data.bytes.length < 0x80000000)
    {s : String} (hc : calls[n]? = some (.pushText s)) :
    ∃ a v, answers[n]? = some (.word a) ∧ a ∈ b'.result.textPushes ∧
      b'.image.code[a.toNat]? = some (.pushInt v) ∧ 0 ≤ v.toInt ∧
      b'.image.data.textAt? v.toUInt32 = .ok (some s) := by
  obtain ⟨b₀, a, v, hbefore, hanswer, hrecorded, hpush, hpos, hword⟩ :=
    exists_offset_of_run h hb hcode hdata hc
  obtain ⟨ts, k, hts, hk, hstart⟩ := texts_of_run h hb hbefore hc rfl
  have hinside := DataSection.textStart_add_length_lt hk
  rw [← hts] at hinside
  refine ⟨a, v, hanswer, hrecorded, hpush, hpos, ?_⟩
  rw [hword, hstart, hts, DataSection.textAt?_ofTexts hk (by omega), Utf8.decodeLossy_encode]

/-- An address is recorded by the push of a text. -/
theorem exists_push_of_mem {a : UInt32} (h : b.run calls = .ok (answers, b'))
    (ha : a ∈ b'.result.textPushes) : a ∈ b.result.textPushes ∨
      ∃ (n : Nat) (s : String), calls[n]? = some (.pushText s) ∧ answers[n]? = some (.word a) := by
  induction calls generalizing b answers with
  | nil =>
      cases h
      exact .inl ha
  | cons c cs ih =>
      obtain ⟨x, b₁, as, hc, hrun, rfl⟩ := run_cons_eq_ok_iff.mp h
      rcases ih hrun with ha | ⟨n, s, hn, han⟩
      · rw [(effect_of_perform hc).textPushes, mem_foldl_insertAscending] at ha
        rcases ha with ha | ha
        · cases c with
          | pushText s =>
              obtain rfl := List.mem_singleton.mp ha
              cases hc
              exact .inr ⟨0, s, rfl, rfl⟩
          | _ => cases ha
        · exact .inl ha
      · exact .inr ⟨n + 1, s, hn, han⟩

end Answers

/-- Whatever calls are made after an answer was given, it refers to the same in the finished
module. -/
theorem references_of_run {name : String} {calls : List Call} {answers : List Answer} {b : Builder}
    (h : (new name).run calls = .ok (answers, b))
    (hdata : b.image.data.bytes.length < 0x80000000) (hcode : b.image.code.length < 0x100000000)
    (hvars : b.result.importedVars.length < 0x100000000)
    (hscripts : b.result.importedScripts.length < 0x100000000) :
    References calls answers b.result := by
  have hnew := sound_new name
  have hsound := hnew.run h
  exact
    { scriptIds := hsound.ids
      addresses := hsound.addresses
      boundaries := hsound.boundaries
      scripts := fun _ _ _ _ hc => exists_script_of_run h rfl hc
      globals := fun _ _ hc => exists_slot_of_run hnew h hc List.mem_cons_self
      arrays := fun _ _ _ hc => exists_slot_of_run hnew h hc List.mem_cons_self
      importedVars := fun _ _ _ hc => exists_importedVar_of_run h hvars hc
      importedScripts := fun _ _ _ hc => exists_importedScript_of_run h hscripts hc
      sharedVars := by
        intro n k name index name' index' hn hk
        obtain ⟨p, hp, hv⟩ := exists_importedVar_of_run h hvars hn
        obtain ⟨q, hq, hw⟩ := exists_importedVar_of_run h hvars hk
        simp only [hp, hq, Option.some.injEq, Answer.symbol.injEq, SymbolRef.external.injEq,
          position_eq_iff hsound.importedVars hv hw, ImportedVar.mk.injEq]
      sharedScripts := by
        intro n k name params name' params' hn hk
        obtain ⟨p, hp, hs⟩ := exists_importedScript_of_run h hscripts hn
        obtain ⟨q, hq, ht⟩ := exists_importedScript_of_run h hscripts hk
        simp only [hp, hq, Option.some.injEq, Answer.symbol.injEq, SymbolRef.external.injEq,
          position_eq_iff hsound.importedScripts hs ht, ImportedScript.mk.injEq]
      locals := fun _ _ _ hc hr => exists_local_of_run h rfl hc hr
      pushes := fun _ _ hc => exists_push_of_run h rfl hcode hdata hc
      recorded := by
        intro a ha
        exact (exists_push_of_mem h ha).resolve_left (by simp [new]) }

end Builder

namespace Sample

/-- A module whose tables grow between the answers: a global declared and a text pushed after the
script that is begun first, a placeholder asked for twice, and a jump patched in the end. -/
def journal : List Builder.Call :=
  [.global "gold", .importVar "score" 0, .beginScript "main" 1 ["hero"], .pushText "hello",
    .local "hero", .emit (.jump .jmp 0), .array "bag" 3, .importVar "bag" 2, .importVar "score" 0,
    .emit .endRun, .beginScript "tail" 0 [], .pushText "bye", .patchJump 1 2, .emit .endRun]

theorem journal_references : ∃ answers b,
    (Builder.new "journal.txt").run journal = .ok (answers, b) ∧
      Builder.References journal answers b.result := by
  obtain ⟨⟨answers, b⟩, h, hdata, hcode, hvars, hscripts⟩ :=
    exists_ok (x := (Builder.new "journal.txt").run journal)
      (p := fun r => r.2.image.data.bytes.length < 0x80000000 ∧
        r.2.image.code.length < 0x100000000 ∧ r.2.result.importedVars.length < 0x100000000 ∧
        r.2.result.importedScripts.length < 0x100000000) (by decide +kernel)
  exact ⟨answers, b, h, Builder.references_of_run h hdata hcode hvars hscripts⟩

end Sample

end ScriptImage
