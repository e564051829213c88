import ScriptImage.Proofs.Agreement
import ScriptImage.Proofs.Singles
import ScriptImage.Proofs.Link.Placement

/-!
Two links of the same modules, step by step. They may differ in whether texts are shared and in how
many slots there are in all, which is how far locals are moved. The first has `n` slots more than
the second: unless `n` is 0 it may be refused where the second is not, and apart from that both are
refused for the same reason or give drafts that differ in their texts and by `n` in the boundaries
of their scripts.
-/

namespace ScriptImage

/-- A script whose locals begin further up. -/
def Script.raise (n : Nat) (s : Script) : Script :=
  { s with boundary := Word.saturate (s.boundary.toNat + n) }

theorem Alike.liftM {α β : Type} {lax : Prop} {R : α → β → Prop} {x : Except Fault α}
    {y : Except Fault β} (h : Alike lax R x y) :
    Alike lax R (liftM x : Except Stop α) (liftM y) :=
  h.mapError Stop.fault

namespace Relocation

/-- Two relocations of one module that know the same texts; the first moves locals further. -/
structure Ahead (n : Nat) (r r' : Relocation) : Prop where
  scripts : r.scripts = r'.scripts
  importedScripts : r.importedScripts = r'.importedScripts
  importedVars : r.importedVars = r'.importedVars
  texts : r.texts.map Prod.fst = r'.texts.map Prod.fst
  globalOffset : r.globalOffset = r'.globalOffset
  localShift : r.localShift.toNat = r'.localShift.toNat + n
  slots : r.slots = r'.slots

variable {n : Nat} {r r' : Relocation}

namespace Ahead

theorem scriptId (h : r.Ahead n r') (s : SymbolRef) : r.scriptId s = r'.scriptId s := by
  cases s with
  | internal id => simp only [Relocation.scriptId, h.scripts]
  | external p => simp only [Relocation.scriptId, h.importedScripts]

theorem localVariable (h : r.Ahead n r') (v : UInt32) (scope : Scope) (address : UInt32) :
    Alike (n ≠ 0) (fun _ _ => True) (r.localVariable v scope address)
      (r'.localVariable v scope address) := by
  have hshift := h.localShift
  unfold Relocation.localVariable
  refine .bind_same fun past _ => .bind_same fun i _ => ?_
  split
  · exact .error _
  · by_cases hn : n = 0
    · have heq : r.localShift = r'.localShift := UInt32.toNat_inj.mp (by omega)
      rw [heq]
      exact .refl (fun _ => trivial) _
    · cases hadd : Word.add v r.localShift with
      | error e => exact .alone hn
      | ok id =>
          obtain ⟨id', hid', -⟩ := Word.exists_add (a := v) (b := r'.localShift) (by
            have := Word.add_eq_ok_iff.mp hadd
            have := id.toNat_lt
            omega)
          rw [hid']
          exact .ok trivial

theorem varRef (h : r.Ahead n r') (v : SymbolRef) (scope : Scope) (address : UInt32) :
    Alike (n ≠ 0) (fun _ _ => True) (r.varRef v scope address) (r'.varRef v scope address) := by
  unfold Relocation.varRef
  cases v with
  | internal v =>
      simp only [h.slots, h.globalOffset]
      split
      · exact .ok trivial
      · split
        · exact h.localVariable v scope address
        · exact .refl (fun _ => trivial) _
  | external p =>
      simp only [h.importedVars]
      exact .refl (fun _ => trivial) _

theorem textOffset (h : r.Ahead n r') (offset : Int32) (address : UInt32) :
    Alike (n ≠ 0) (fun _ _ => True) (r.textOffset offset address)
      (r'.textOffset offset address) := by
  have hkeys : (r.texts.lookup offset.toUInt32).isSome =
      (r'.texts.lookup offset.toUInt32).isSome := by
    rw [Bool.eq_iff_iff, lookup_isSome_iff, lookup_isSome_iff, h.texts]
  unfold Relocation.textOffset
  split
  · cases hr : r.texts.lookup offset.toUInt32 with
    | none =>
        rw [hr, Option.isSome_none, eq_comm, Option.isSome_eq_false_iff, Option.isNone_iff_eq_none]
          at hkeys
        rw [hkeys]
        exact .error _
    | some new =>
        rw [hr, Option.isSome_some, eq_comm, Option.isSome_iff_exists] at hkeys
        obtain ⟨new', hr'⟩ := hkeys
        rw [hr']
        exact .ok trivial
  · exact .error _

theorem operand (h : r.Ahead n r') (i : Instruction) (isText : Bool) (scope : Scope)
    (start newStart address : UInt32) :
    Alike (n ≠ 0) (fun o o' => ∀ t, o = .address t ↔ o' = .address t)
      (r.operand i isText scope start newStart address)
      (r'.operand i isText scope start newStart address) := by
  unfold Relocation.operand
  split
  · exact .refl (fun _ _ => Iff.rfl) _
  · rw [scriptRef, scriptRef, h.scriptId]
    exact .refl (fun _ _ => Iff.rfl) _
  · exact (h.varRef _ scope address).map (by simp)
  · split
    · exact (h.textOffset _ address).map (by simp)
    · exact .refl (fun _ _ => Iff.rfl) _
  · exact .refl (fun _ _ => Iff.rfl) _

theorem pairedVariable (h : r.Ahead n r') (paired : Option Instruction) (scope : Scope)
    (address : UInt32) :
    Alike (n ≠ 0) (fun _ _ => True) (r.pairedVariable paired scope address)
      (r'.pairedVariable paired scope address) := by
  unfold Relocation.pairedVariable
  split
  · exact .error _
  · exact .bind_same fun earlier _ => h.varRef _ scope earlier

theorem move (h : r.Ahead n r') (textPushes : List UInt32) (s : Script) (newStart : UInt32)
    (run : List Instruction) (k : Nat) (i : Instruction) :
    Alike (n ≠ 0) (fun m m' => m.jump? = m'.jump?) (r.move textPushes s newStart run k i)
      (r'.move textPushes s newStart run k i) := by
  unfold Relocation.move
  refine .bind_same fun old _ => .bind_same fun new _ => ?_
  refine (h.operand i _ s.scope s.address newStart old).bind fun o o' ho => ?_
  have hjump : ∀ id id', Moved.jump? ⟨old, new, i, { i with operand := o }, id⟩ =
      Moved.jump? ⟨old, new, i, { i with operand := o' }, id'⟩ := by
    intro id id'
    unfold Moved.jump?
    cases o <;> cases o' <;> simp_all
  simp only
  split
  · have hpaired := h.pairedVariable (if 2 ≤ k then run[k - 2]? else none) s.scope old
    exact (hpaired.map fun _ _ _ => trivial).bind fun id id' (_ : True) => .ok (hjump id id')
  · exact .ok (hjump none none)

theorem moveRun (h : r.Ahead n r') (textPushes : List UInt32) (s : Script) (newStart : UInt32)
    (run : List Instruction) :
    Alike (n ≠ 0) (fun ms ms' => ms.map Moved.jump? = ms'.map Moved.jump?)
      (r.moveRun textPushes s newStart run) (r'.moveRun textPushes s newStart run) := by
  have hsteps : Alike (n ≠ 0) (List.Forall₂ fun m m' => m.jump? = m'.jump?)
      (r.moveRun textPushes s newStart run) (r'.moveRun textPushes s newStart run) :=
    .mapM fun _ _ => h.move textPushes s newStart run _ _
  refine hsteps.mono fun ms ms' hms => ?_
  rwa [← List.forall₂_eq_eq_eq, List.forall₂_map_left_iff, List.forall₂_map_right_iff]

end Ahead

end Relocation

/-! ### Instructions -/

/-- A reference to a local of a script with this boundary. -/
def SymbolRef.IsLocal (v : SymbolRef) (boundary : UInt32) : Prop :=
  ∃ w, v = .internal w ∧ boundary < w

@[simp] theorem SymbolRef.isLocal_internal {w boundary : UInt32} :
    (SymbolRef.internal w).IsLocal boundary ↔ boundary < w := by
  simp [IsLocal]

@[simp] theorem SymbolRef.not_isLocal_external {p boundary : UInt32} :
    ¬ (SymbolRef.external p).IsLocal boundary := by
  simp [IsLocal]

/-- What `n` slots more change in the copy of the instruction at position `k` of a run: a variable
operand or the float before a reference that names a local, and nothing else. The ids are read back
from such floats as long as they are at most 2 ^ 24. -/
inductive Raised (n : Nat) (s : Script) (run : List Instruction) (k : Nat) (ins : Instruction) :
    Instruction → Instruction → Prop
  | variable {v : SymbolRef} {id id' : UInt32} : ins.operand = .variable v →
      v.IsLocal s.boundary → id'.toNat = id.toNat + n →
      Raised n s run k ins { ins with operand := .variable (.internal id) }
        { ins with operand := .variable (.internal id') }
  | carried {v : SymbolRef} {id id' : UInt32} : FeedsReference run k →
      ins.floatVariable? = some v → v.IsLocal s.boundary → id'.toNat = id.toNat + n →
      (id'.toNat ≤ 0x1000000 → (ins.carrying id).floatVariable? = some (.internal id) ∧
        (ins.carrying id').floatVariable? = some (.internal id')) →
      Raised n s run k ins (ins.carrying id) (ins.carrying id')
  | same {ins' : Instruction} :
      (∀ v, ins.operand = .variable v → ¬ v.IsLocal s.boundary) →
      (FeedsReference run k → ∀ v, ins.floatVariable? = some v → ¬ v.IsLocal s.boundary) →
      Raised n s run k ins ins' ins'

/-- No slots more change nothing. -/
theorem Raised.eq_of_zero {s : Script} {run : List Instruction} {k : Nat}
    {ins ins' ins'' : Instruction} (h : Raised 0 s run k ins ins' ins'') : ins' = ins'' := by
  cases h with
  | «variable» _ _ hid => rw [UInt32.toNat_inj.mp hid]
  | carried _ _ _ hid _ => rw [UInt32.toNat_inj.mp hid]
  | same => rfl

/-- The new operands that two relocations give for one operand, of which the first moves locals by
`n` slots more: they differ where it names a local, and may differ where it is the offset of a
text. -/
inductive Relocation.NewOperands (n : Nat) (r r' : Relocation) (isText : Bool) (boundary : UInt32)
    (o : Operand) : Operand → Operand → Prop
  | same {p : Operand} : (∀ v, o = .variable v → ¬ v.IsLocal boundary) →
      (isText = true → ∀ v, o ≠ .int v) → NewOperands n r r' isText boundary o p p
  | local {v : SymbolRef} {id id' : UInt32} : o = .variable v → v.IsLocal boundary →
      id.toNat = id'.toNat + n → NewOperands n r r' isText boundary o
        (.variable (.internal id)) (.variable (.internal id'))
  | text {v : Int32} {new new' : UInt32} : isText = true → o = .int v → 0 ≤ v.toInt →
      r.texts.lookup v.toUInt32 = some new → r'.texts.lookup v.toUInt32 = some new' →
        NewOperands n r r' isText boundary o (.int (Word.saturateSigned new))
          (.int (Word.saturateSigned new'))

namespace Relocation.Ahead

variable {n : Nat} {r r' : Relocation} {m : ObjectModule} {s : Script} {newStart : UInt32}
  {run : List Instruction} {ms ms' : List Moved} {k : Nat} {ins : Instruction}

/-- A local is `n` slots further up, and every other variable is where it was. -/
theorem newId (h : r.Ahead n r') {scope : Scope} {v : SymbolRef} {id id' : UInt32}
    (hid : r.NewId scope v id) (hid' : r'.NewId scope v id') :
    v.IsLocal scope.boundary ∧ id.toNat = id'.toNat + n ∨
      ¬ v.IsLocal scope.boundary ∧ id = id' := by
  have hshift := h.localShift
  cases hid with
  | null =>
      have hnot : ¬ (SymbolRef.internal 0).IsLocal scope.boundary := fun hlocal =>
        Word.ne_zero_of_lt (SymbolRef.isLocal_internal.mp hlocal) rfl
      cases hid' with
      | null => exact Or.inr ⟨hnot, rfl⟩
      | «local» hlt => exact absurd rfl (Word.ne_zero_of_lt hlt)
      | global h0 => exact absurd rfl h0
  | «local» hlt _ hid =>
      cases hid' with
      | null => exact absurd rfl (Word.ne_zero_of_lt hlt)
      | «local» _ _ hid' => exact Or.inl ⟨SymbolRef.isLocal_internal.mpr hlt, by omega⟩
      | global _ hle => exact absurd hlt (UInt32.not_lt.mpr hle)
  | global h0 hle _ hid =>
      cases hid' with
      | null => exact absurd rfl h0
      | «local» hlt => exact absurd hlt (UInt32.not_lt.mpr hle)
      | global _ _ _ hid' =>
          exact Or.inr ⟨SymbolRef.isLocal_internal.not.mpr (UInt32.not_lt.mpr hle),
            UInt32.toNat_inj.mp (by rw [hid, hid', h.globalOffset])⟩
  | imported hp =>
      cases hid' with
      | imported hp' =>
          rw [h.importedVars, hp', Option.some.injEq] at hp
          exact Or.inr ⟨SymbolRef.not_isLocal_external, hp.symm⟩

theorem raised_of_feedsReference (h : r.Ahead n r')
    (hms : r.moveRun m.textPushes s newStart run = .ok ms)
    (hms' : r'.moveRun m.textPushes s newStart run = .ok ms') (hins : run[k]? = some ins)
    (hk : FeedsReference run k) :
    ∃ i i', (Moved.settle ms)[k]? = some i ∧ (Moved.settle ms')[k]? = some i' ∧
      Raised n s run k ins i' i := by
  obtain ⟨v, id, hv, hid, hat⟩ := carried_of_moveRun hms hins hk
  obtain ⟨v', id', hv', hid', hat'⟩ := carried_of_moveRun hms' hins hk
  cases hv.symm.trans hv'
  refine ⟨_, _, hat, hat', ?_⟩
  rcases h.newId hid hid' with ⟨hlocal, heq⟩ | ⟨hnot, rfl⟩
  · have hpush := (Instruction.opcode_of_floatVariable? hv).1
    exact .carried hk hv hlocal heq fun hle =>
      ⟨Instruction.floatVariable?_carrying hpush (by omega),
        Instruction.floatVariable?_carrying hpush hle⟩
  · refine .same ?_ fun _ w hw => ?_
    · intro w hw
      obtain ⟨-, x, hx⟩ := Instruction.opcode_of_floatVariable? hv
      cases hx.symm.trans hw
    · cases hv.symm.trans hw
      exact hnot

theorem newOperand (h : r.Ahead n r') {isText : Bool} {scope : Scope} {start : UInt32}
    {o p p' : Operand} (hp : r.NewOperand isText scope start newStart o p)
    (hp' : r'.NewOperand isText scope start newStart o p') :
    NewOperands n r r' isText scope.boundary o p p' := by
  cases hp with
  | none =>
      cases hp'
      exact .same (by simp) (by simp)
  | int hnot =>
      cases hp' with
      | int => exact .same (by simp) (by simp [hnot])
      | text htext => exact absurd (htext.symm.trans hnot) (by simp)
  | text htext hpos hlookup =>
      cases hp' with
      | int hnot => exact absurd (htext.symm.trans hnot) (by simp)
      | text _ _ hlookup' => exact .text htext rfl hpos hlookup hlookup'
  | float =>
      cases hp'
      exact .same (by simp) (by simp)
  | bool =>
      cases hp'
      exact .same (by simp) (by simp)
  | @address _ b ha =>
      cases hp' with
      | @address _ b' ha' =>
          obtain rfl : b = b' := UInt32.toNat_inj.mp (by omega)
          exact .same (by simp) (by simp)
  | script hid =>
      cases hp' with
      | script hid' =>
          rw [h.scriptId, hid', Except.ok.injEq] at hid
          subst hid
          exact .same (by simp) (by simp)
  | «variable» hid =>
      cases hp' with
      | «variable» hid' =>
          rcases h.newId hid hid' with ⟨hlocal, heq⟩ | ⟨hnot, rfl⟩
          · exact .«local» rfl hlocal heq
          · refine .same ?_ (by simp)
            rintro w ⟨⟩
            exact hnot

/-- What the two copies of an instruction have in common. A marked push gives in each the offset to
which its text has gone there. -/
theorem raised_of_moveRun (h : r.Ahead n r')
    (hms : r.moveRun m.textPushes s newStart run = .ok ms)
    (hms' : r'.moveRun m.textPushes s newStart run = .ok ms') (hins : run[k]? = some ins) :
    ∃ i i', (Moved.settle ms)[k]? = some i ∧ (Moved.settle ms')[k]? = some i' ∧
      (¬ m.PushesText s (Word.saturate k).toNat ins ∧ Raised n s run k ins i' i ∨
        m.PushesText s (Word.saturate k).toNat ins ∧ ∃ v new new', ins.operand = .int v ∧
          0 ≤ v.toInt ∧ r.texts.lookup v.toUInt32 = some new ∧
          r'.texts.lookup v.toUInt32 = some new' ∧
          i = { ins with operand := .int (Word.saturateSigned new) } ∧
          i' = { ins with operand := .int (Word.saturateSigned new') }) := by
  by_cases hk : FeedsReference run k
  · obtain ⟨i, i', hat, hat', hraised⟩ := h.raised_of_feedsReference hms hms' hins hk
    refine ⟨i, i', hat, hat', Or.inl ⟨?_, hraised⟩⟩
    rintro ⟨-, ⟨v, hv⟩, -⟩
    exact not_feedsReference hms hins (by simp [hv]) hk
  · obtain ⟨mv, hmoves, hat⟩ := settle_of_moveRun hms hins hk
    obtain ⟨mv', hmoves', hat'⟩ := settle_of_moveRun hms' hins hk
    have hmarked := hmoves.marked_iff
    have hold : mv'.oldAddress = mv.oldAddress :=
      UInt32.toNat_inj.mp (hmoves'.oldAddress.trans hmoves.oldAddress.symm)
    have hoperand' := hmoves'.operand
    rw [hold] at hoperand'
    rw [hmoves.after] at hat
    rw [hmoves'.after] at hat'
    refine ⟨_, _, hat, hat', ?_⟩
    have hoperands := h.newOperand hmoves.operand hoperand'
    generalize mv.after.operand = o at hoperands ⊢
    generalize mv'.after.operand = o' at hoperands ⊢
    cases hoperands with
    | same hlocal hint =>
        refine Or.inl ⟨?_, .same hlocal fun hfeeds => absurd hfeeds hk⟩
        rintro ⟨hpush, ⟨v, hv⟩, hlisted⟩
        exact hint (hmarked.mpr ⟨hpush, hlisted⟩) v hv
    | «local» hv hlocal hid =>
        refine Or.inl ⟨?_, .«variable» hv hlocal hid⟩
        rintro ⟨-, ⟨w, hw⟩, -⟩
        cases hv.symm.trans hw
    | text htext hv hpos hnew hnew' =>
        obtain ⟨hpush, hlisted⟩ := hmarked.mp htext
        exact Or.inr ⟨⟨hpush, ⟨_, hv⟩, hlisted⟩, _, _, _, hv, hpos, hnew, hnew', rfl, rfl⟩

end Relocation.Ahead

/-! ### Scripts -/

theorem Script.raise_zero (s : Script) : s.raise 0 = s := by
  have h : Word.saturate (s.boundary.toNat + 0) = s.boundary :=
    UInt32.toNat_inj.mp (Word.toNat_saturate s.boundary.toNat_lt)
  rw [raise, h]

/-- Merging texts fails alike whatever the pool holds, and the same offsets are moved. -/
theorem TextPool.merge_alike (lax : Prop) (share share' : Bool) (p p' : TextPool)
    (d : DataSection) :
    Alike lax (fun x y => x.2.offsets.map Prod.fst = y.2.offsets.map Prod.fst) (p.merge share d)
      (p'.merge share' d) := by
  unfold merge
  refine .foldlM rfl fun e _ x y hxy => ?_
  unfold mergeEntry
  refine .bind_same fun bs _ => ?_
  cases TextKind.ofBytes bs with
  | plain => exact .ok (congrArg (e.offset :: ·) hxy)
  | _ => exact .ok hxy

/-- Two copies of one script of which the first has its locals further up. -/
structure CopiedScript.Ahead (n : Nat) (c c' : CopiedScript) : Prop where
  script : c.script = c'.script.raise n
  jumps : c.moved.map Moved.jump? = c'.moved.map Moved.jump?

namespace Draft

variable {n : Nat} {r r' : Relocation}

theorem copyScript_alike (h : r.Ahead n r') (m : ObjectModule) (id newStart : UInt32)
    (s : Script) :
    Alike (n ≠ 0) (CopiedScript.Ahead n) (copyScript r m id newStart s)
      (copyScript r' m id newStart s) := by
  unfold copyScript
  split
  · exact .error _
  · refine (h.moveRun m.textPushes s newStart _).bind fun ms ms' hms => .ok ⟨?_, ?_⟩
    · simp only [Script.raise, Word.saturate_add, h.localShift, Nat.add_assoc]
    · exact hms

theorem copyScripts_alike (h : r.Ahead n r') (m : ObjectModule) (first : UInt32)
    (i length : Nat) (ss : List Script) :
    Alike (n ≠ 0) (List.Forall₂ (CopiedScript.Ahead n)) (copyScripts r m first i length ss)
      (copyScripts r' m first i length ss) := by
  induction ss generalizing i length with
  | nil => exact .ok .nil
  | cons s ss ih =>
      unfold copyScripts
      refine .bind_same fun id _ => ?_
      refine (copyScript_alike h m id (Word.saturate length) s).bind fun c c' hc => ?_
      have hlength : c.moved.length = c'.moved.length := by
        simpa using congrArg List.length hc.jumps
      rw [hlength]
      exact (ih _ _).bind fun cs cs' hcs => .ok (.cons hc hcs)

/-- All copies of a module. -/
theorem copies_ahead {cs cs' : List CopiedScript}
    (h : List.Forall₂ (CopiedScript.Ahead n) cs cs') :
    cs.map CopiedScript.script = (cs'.map CopiedScript.script).map (Script.raise n) ∧
      (cs.flatMap CopiedScript.moved).map Moved.jump? =
        (cs'.flatMap CopiedScript.moved).map Moved.jump? := by
  induction h with
  | nil => exact ⟨rfl, rfl⟩
  | cons hc _ ih =>
      simp only [List.map_cons, List.flatMap_cons, List.map_append, hc.script, hc.jumps, ih.1, ih.2,
        and_self]

/-! ### Modules -/

/-- Two drafts of one link, of which the first has the boundaries of its scripts further up. -/
structure Ahead (n : Nat) (d d' : Draft) : Prop where
  globals : d.globals = d'.globals
  scripts : d.scripts = d'.scripts.map (Script.raise n)
  code : d.code.length = d'.code.length
  autostart : d.autostart = d'.autostart
  inits : d.inits = d'.inits

theorem Ahead.empty (n : Nat) : Ahead n {} {} := ⟨rfl, rfl, rfl, rfl, rfl⟩

theorem resolveScript_raise (n : Nat) (ss : List Script) (s : ImportedScript) :
    resolveScript (ss.map (Script.raise n)) s = resolveScript ss s := by
  have hfind : (ss.map (Script.raise n)).find? (fun t => t.name == s.name) =
      (ss.find? fun t => t.name == s.name).map (Script.raise n) := List.find?_map ..
  unfold resolveScript
  rw [hfind]
  cases ss.find? fun t => t.name == s.name with
  | none => rfl
  | some t => rfl

/-- What is prepared for one module. -/
structure Prepared.Ahead (n : Nat) (p p' : Prepared) : Prop where
  globals : p.draft.globals = p'.draft.globals
  inits : p.draft.inits = p'.draft.inits
  relocation : p.relocation.Ahead n p'.relocation
  firstScriptId : p.firstScriptId = p'.firstScriptId

theorem resolveAutostart_eq (h : r.Ahead n r') (s : SymbolRef) :
    resolveAutostart r s = resolveAutostart r' s := by
  rw [resolveAutostart, resolveAutostart, h.scriptId]

variable {share share' : Bool} {total total' : UInt32} {d d' : Draft} {m : ObjectModule}

theorem prepare_alike (h : Ahead n d d') (htotal : total.toNat = total'.toNat + n)
    (hslots : m.image.globals.slots ≤ total') :
    Alike (n ≠ 0) (Prepared.Ahead n) (d.prepare share total m) (d'.prepare share' total' m) := by
  have hcount : d.scripts.length = d'.scripts.length := by rw [h.scripts, List.length_map]
  unfold prepare
  rw [hcount, h.globals, h.inits, h.scripts]
  refine .bind_same fun first _ => ?_
  refine (Alike.liftM (TextPool.merge_alike _ share share' d.texts d'.texts _)).bind ?_
  rintro ⟨texts, moves⟩ ⟨texts', moves'⟩ hmoves
  refine .bind_same fun vars _ => .bind_same fun globals _ => ?_
  rw [funext (resolveScript_raise n d'.scripts)]
  refine .bind_same fun scripts _ => .bind_same fun ids _ => ?_
  have hle := UInt32.le_iff_toNat_le.mp hslots
  obtain ⟨shift, hshift, htotal₁⟩ :=
    Word.exists_sub (a := total) (b := m.image.globals.slots) (by omega)
  obtain ⟨shift', hshift', htotal₂⟩ := Word.exists_sub hle
  rw [hshift, hshift']
  exact .ok ⟨rfl, rfl, ⟨rfl, rfl, rfl, hmoves, rfl, by simp only; omega, rfl⟩, rfl⟩

theorem merge_alike (h : Ahead n d d') (htotal : total.toNat = total'.toNat + n)
    (hslots : m.image.globals.slots ≤ total') :
    Alike (n ≠ 0) (Ahead n) (d.merge share total m) (d'.merge share' total' m) := by
  unfold merge
  refine (prepare_alike h htotal hslots).bind fun p p' hp => ?_
  rw [hp.firstScriptId, h.code]
  refine (copyScripts_alike hp.relocation m _ _ _ _).bind fun cs cs' hcs => ?_
  obtain ⟨hscripts, hjumps⟩ := copies_ahead hcs
  have hmoved : (cs.flatMap CopiedScript.moved).filterMap Moved.jump? =
      (cs'.flatMap CopiedScript.moved).filterMap Moved.jump? := by
    have hfilter := congrArg (List.filterMap id) hjumps
    rwa [List.filterMap_map, List.filterMap_map, Function.id_comp] at hfilter
  have hcode : (d.code ++ cs.flatMap fun c => Moved.settle c.moved).length =
      (d'.code ++ cs'.flatMap fun c => Moved.settle c.moved).length := by
    have hlength := congrArg List.length hjumps
    simp only [List.length_map, List.length_flatMap] at hlength
    simp only [List.length_append, List.length_flatMap, Moved.settle_length, h.code, hlength]
  dsimp only
  rw [hmoved, hcode]
  refine .bind_same fun _ _ => ?_
  rw [funext (resolveAutostart_eq hp.relocation)]
  refine .bind_same fun ids _ => .ok ⟨hp.globals, ?_, hcode, ?_, hp.inits⟩
  · simp only [h.scripts, hscripts, List.map_append]
  · simp only [h.autostart]

/-- Merging modules in order. -/
theorem mergeAll_alike {modules : List ObjectModule} (h : Ahead n d d')
    (htotal : total.toNat = total'.toNat + n)
    (hslots : ∀ m ∈ modules, m.image.globals.slots ≤ total') :
    Alike (n ≠ 0) (Ahead n) (mergeAll share total d modules) (mergeAll share' total' d' modules) :=
  .foldlM h fun m hm _ _ h => (merge_alike h htotal (hslots m hm)).mapError _

theorem Prepares.ahead {p p' : Prepared} (h : Ahead n d d')
    (htotal : total.toNat = total'.toNat + n) (hp : Prepares share total d m p)
    (hp' : Prepares share' total' d' m p') : p.relocation.Ahead n p'.relocation := by
  have hshift := hp.localShift
  have hshift' := hp'.localShift
  have hcount : d.scripts.length = d'.scripts.length := by rw [h.scripts, List.length_map]
  obtain ⟨moves, hmoves, htexts, -⟩ := hp.texts
  obtain ⟨moves', hmoves', htexts', -⟩ := hp'.texts
  obtain ⟨b, hb, hkeys⟩ :=
    (TextPool.merge_alike False share share' d.texts d'.texts _).exists_ok hmoves
  cases hb.symm.trans hmoves'
  have hscripts := hp.importedScripts
  rw [h.scripts, funext (resolveScript_raise n d'.scripts), hp'.importedScripts,
    Except.ok.injEq] at hscripts
  have hvars := hp.importedVars
  rw [h.globals, hp'.importedVars, Except.ok.injEq] at hvars
  refine ⟨?_, hscripts.symm, hvars.symm, ?_, ?_, by omega, hp.slots.trans hp'.slots.symm⟩
  · rw [hp.scriptIds, hp'.scriptIds, hcount]
  · rw [htexts, htexts']
    exact hkeys
  · rw [hp.globalOffset, hp'.globalOffset, h.globals]

/-- The relocations of one module in two links that begin with the same modules. -/
theorem Step.ahead {modules modules' : List ObjectModule} {e e' b b' a a' : Draft} {i : Nat}
    {p p' : Prepared} {cs cs' : List CopiedScript} (htotal : total.toNat = total'.toNat + n)
    (hslots : ∀ m ∈ modules', m.image.globals.slots ≤ total')
    (htake : modules.take i = modules'.take i) (h : Step share total modules e i m b a p cs)
    (h' : Step share' total' modules' e' i m b' a' p' cs') :
    p.relocation.Ahead n p'.relocation := by
  have hrun := h.runBefore
  rw [htake] at hrun
  obtain ⟨d, hd, hahead⟩ := (mergeAll_alike (.empty n) htotal
    fun m hm => hslots m (List.mem_of_mem_take hm)).exists_ok hrun
  cases hd.symm.trans h'.runBefore
  exact Prepares.ahead hahead htotal h.merges.prepares h'.merges.prepares

/-- The two copies of one instruction in two links that begin with the same modules. -/
theorem raised_of_origin {modules modules' : List ObjectModule} {e e' : Draft} {i j pc : Nat}
    (htotal : total.toNat = total'.toNat + n)
    (hslots : ∀ m ∈ modules', m.image.globals.slots ≤ total')
    (htake : modules.take i = modules'.take i) (h : mergeAll share total {} modules = .ok e)
    (h' : mergeAll share' total' {} modules' = .ok e') {o : Origin} (ho : o.At modules i j pc)
    (ho' : o.At modules' i j pc) :
    ∃ b a p cs b' a' p' cs' ins ins', Step share total modules e i o.module b a p cs ∧
      Step share' total' modules' e' i o.module b' a' p' cs' ∧
      e.code[pc]? = some ins ∧ e'.code[pc]? = some ins' ∧
      (¬ o.Marked ∧ Raised n o.script o.run o.position o.instruction ins' ins ∨
        o.Marked ∧ ∃ v new new', o.instruction.operand = .int v ∧ 0 ≤ v.toInt ∧
          p.relocation.texts.lookup v.toUInt32 = some new ∧
          p'.relocation.texts.lookup v.toUInt32 = some new' ∧
          ins = { o.instruction with operand := .int (Word.saturateSigned new) } ∧
          ins' = { o.instruction with operand := .int (Word.saturateSigned new') }) := by
  obtain ⟨b, a, p, cs, c, hstep, hcopied, hat⟩ := copy_of_origin h ho
  obtain ⟨b', a', p', cs', c', hstep', hcopied', hat'⟩ := copy_of_origin h' ho'
  have hstart : copyStart modules i j = copyStart modules' i j := by
    have hpc := ho.pc
    have hpc' := ho'.pc
    omega
  have hmoved' := hcopied'.moved
  rw [← hstart] at hmoved'
  obtain ⟨ins, ins', hins, hins', hcases⟩ :=
    (hstep.ahead htotal hslots htake hstep').raised_of_moveRun hcopied.moved hmoved' ho.instruction
  exact ⟨b, a, p, cs, b', a', p', cs', ins, ins', hstep, hstep', hat.trans hins,
    hat'.trans hins', hcases⟩

end Draft

end ScriptImage
