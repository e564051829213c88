import ScriptImage.Proofs.Codec.Modules
import ScriptImage.Proofs.Compare.Ending
import ScriptImage.Proofs.Link.Acceptance

/-!
Links that fault. Each index, difference and sum of a link faults where it leaves its table or its
word, and what is known of modules that have been read keeps all of them inside but two. The address
of a copied instruction counts the code so far, and the id of a script the scripts so far; neither
has a bound in the modules, and the link faults when one of them is no word any more.
-/

namespace ScriptImage

/-- A computation that can only fault by overflow, and under a condition. -/
def FaultsOnlyIf {α : Type} (P : Prop) (x : Except Stop α) : Prop :=
  ∀ f, x = .error (.fault f) → f = .overflow ∧ P

theorem Stop.eq_fault_of_inModule {α : Type} {x : Except Stop α} {name : String} {f : Fault}
    (h : x.mapError (inModule name) = .error (.fault f)) : x = .error (.fault f) := by
  cases x with
  | error e =>
      cases e with
      | refused cause => cases h
      | fault g =>
          cases h
          rfl
  | ok a => cases h

namespace FaultsOnlyIf

variable {P : Prop} {α β : Type} {x : Except Stop α}

theorem ok (a : α) : FaultsOnlyIf P (.ok a) := fun _ h => nomatch h

theorem refuse (cause : LinkCause) : FaultsOnlyIf P (Stop.refuse cause : Except Stop α) :=
  fun _ h => nomatch h

theorem bind (h : FaultsOnlyIf P x) {f : α → Except Stop β}
    (hf : ∀ a, x = .ok a → FaultsOnlyIf P (f a)) : FaultsOnlyIf P (x >>= f) := by
  intro g hg
  rcases bind_eq_error.mp hg with hx | ⟨a, ha, hfa⟩
  · exact h g hx
  · exact hf a ha g hfa

theorem map (h : FaultsOnlyIf P x) (f : α → β) : FaultsOnlyIf P (f <$> x) := by
  rw [map_eq_pure_bind]
  exact h.bind fun a _ => .ok (f a)

/-- What ends well, whether it could have faulted or not. -/
theorem of_exists {y : Except Fault α} (h : ∃ a, y = .ok a) :
    FaultsOnlyIf P (liftM y : Except Stop α) := by
  obtain ⟨a, rfl⟩ := h
  exact .ok a

theorem add {a b : UInt32} (h : 0x100000000 ≤ a.toNat + b.toNat → P) :
    FaultsOnlyIf P (liftM (Word.add a b) : Except Stop UInt32) := by
  rcases Nat.lt_or_ge (a.toNat + b.toNat) 0x100000000 with hlt | hge
  · obtain ⟨c, hc, -⟩ := Word.exists_add hlt
    exact .of_exists ⟨c, hc⟩
  · rw [Word.add, if_neg (Nat.not_lt.mpr hge)]
    rintro f ⟨⟩
    exact ⟨rfl, h hge⟩

theorem sub {a b : UInt32} (h : b.toNat ≤ a.toNat) :
    FaultsOnlyIf P (liftM (Word.sub a b) : Except Stop UInt32) :=
  .of_exists ((Word.exists_sub h).imp fun _ => And.left)

theorem mapM {f : β → Except Stop α} {xs : List β} (h : ∀ x ∈ xs, FaultsOnlyIf P (f x)) :
    FaultsOnlyIf P (xs.mapM f) := by
  induction xs with
  | nil => exact .ok []
  | cons x xs ih =>
      rw [List.mapM_cons]
      refine (h x List.mem_cons_self).bind fun y _ => ?_
      exact (ih fun z hz => h z (List.mem_cons_of_mem _ hz)).bind fun ys _ => .ok _

theorem foldlM {f : α → β → Except Stop α} {xs : List β} (h : ∀ a x, FaultsOnlyIf P (f a x))
    (a : α) : FaultsOnlyIf P (xs.foldlM f a) := by
  induction xs generalizing a with
  | nil => exact .ok a
  | cons x xs ih =>
      rw [List.foldlM_cons]
      exact (h a x).bind fun b _ => ih b

end FaultsOnlyIf

variable {P : Prop}

/-! ### Moving instructions -/

namespace Relocation

variable {r : Relocation}

/-- The id of a local lies past the boundary, so counting from there leaves no word. -/
theorem localVariable_faults {v address : UInt32} {scope : Scope} (hv : scope.boundary < v) :
    FaultsOnlyIf P (r.localVariable v scope address) := by
  have hlt := UInt32.lt_iff_toNat_lt.mp hv
  unfold localVariable
  refine FaultsOnlyIf.bind (.sub hlt.le) fun past hpast => ?_
  rw [liftM_eq_ok, Word.sub_eq_ok_iff] at hpast
  refine FaultsOnlyIf.bind (.sub (by rw [UInt32.toNat_one]; omega)) fun i _ => ?_
  split
  · exact .refuse _
  · split
    · exact .ok _
    · exact .refuse _

/-- The id of a global stays among the slots of its module and of those before. -/
theorem varRef_faults (hslots : r.slots.toNat + r.globalOffset.toNat < 0x100000000)
    (v : SymbolRef) (scope : Scope) (address : UInt32) :
    FaultsOnlyIf P (r.varRef v scope address) := by
  cases v with
  | internal v =>
      unfold varRef
      dsimp only
      split
      · exact .ok 0
      · split
        · rename_i hv
          exact localVariable_faults hv
        · split
          · exact .refuse _
          · rename_i hle
            have hle := UInt32.le_iff_toNat_le.mp (UInt32.not_lt.mp hle)
            exact .add fun hge => absurd hge (by omega)
  | external q =>
      unfold varRef
      dsimp only
      split
      · exact .ok _
      · exact .refuse _

theorem scriptRef_faults (v : SymbolRef) (address : UInt32) :
    FaultsOnlyIf P (r.scriptRef v address) := by
  unfold scriptRef
  split
  · exact .ok _
  · exact .refuse _

theorem target_faults (a start newStart address : UInt32) :
    FaultsOnlyIf P (target a start newStart address) := by
  unfold target
  dsimp only
  split
  · exact .ok _
  · exact .refuse _

theorem textOffset_faults (offset : Int32) (address : UInt32) :
    FaultsOnlyIf P (r.textOffset offset address) := by
  unfold textOffset
  split
  · split
    · exact .ok _
    · exact .refuse _
  · exact .refuse _

theorem operand_faults (hslots : r.slots.toNat + r.globalOffset.toNat < 0x100000000)
    (i : Instruction) (isText : Bool) (scope : Scope) (start newStart address : UInt32) :
    FaultsOnlyIf P (r.operand i isText scope start newStart address) := by
  unfold operand
  split
  · exact (target_faults _ _ _ _).map _
  · exact (scriptRef_faults _ _).map _
  · exact (varRef_faults hslots _ _ _).map _
  · split
    · exact (textOffset_faults _ _).map _
    · exact .ok _
  · exact .ok _

/-- A reference with an instruction two before it does not stand at the first two addresses. -/
theorem pairedVariable_faults (hslots : r.slots.toNat + r.globalOffset.toNat < 0x100000000)
    {paired : Option Instruction} {address : UInt32} (scope : Scope)
    (haddress : paired.isSome = true → 2 ≤ address.toNat) :
    FaultsOnlyIf P (r.pairedVariable paired scope address) := by
  unfold pairedVariable
  split
  · exact .refuse _
  · rename_i v hv
    obtain ⟨i, hi, -⟩ := Option.bind_eq_some_iff.mp hv
    have htwo : (2 : UInt32).toNat ≤ address.toNat := haddress (by rw [hi]; rfl)
    refine FaultsOnlyIf.bind (.sub htwo) fun earlier _ => ?_
    exact varRef_faults hslots _ _ _

variable {textPushes : List UInt32} {s : Script} {newStart : UInt32} {run : List Instruction}

/-- Moving an instruction of its module faults only where its new address is no word. -/
theorem move_faults (hslots : r.slots.toNat + r.globalOffset.toNat < 0x100000000) {k : Nat}
    (hold : s.address.toNat + k < 0x100000000) (hnew : 0x100000000 ≤ newStart.toNat + k → P)
    (i : Instruction) : FaultsOnlyIf P (r.move textPushes s newStart run k i) := by
  have hk := Word.toNat_saturate (n := k) (by omega)
  unfold move
  refine FaultsOnlyIf.bind (.add fun hge => absurd hge (by omega)) fun oldAddress haddress => ?_
  refine FaultsOnlyIf.bind (.add fun hge => hnew (by omega)) fun newAddress _ => ?_
  refine FaultsOnlyIf.bind (operand_faults hslots _ _ _ _ _ _) fun operand _ => ?_
  dsimp only
  split
  · refine FaultsOnlyIf.bind ((pairedVariable_faults hslots _ fun hsome => ?_).map _)
      fun pairedId _ => .ok _
    rw [liftM_eq_ok, Word.add_eq_ok_iff] at haddress
    -- an instruction two before this one is there only from the third on
    split at hsome
    · omega
    · cases hsome
  · exact .ok _

theorem moveRun_faults (hslots : r.slots.toNat + r.globalOffset.toNat < 0x100000000)
    (hold : s.address.toNat + run.length ≤ 0x100000000)
    (hnew : 0x100000000 < newStart.toNat + run.length → P) :
    FaultsOnlyIf P (r.moveRun textPushes s newStart run) := by
  refine .mapM ?_
  rintro ⟨i, k⟩ hik
  have hk := (List.getElem?_eq_some_iff.mp (List.mem_zipIdx_iff_getElem?.mp hik)).1
  exact move_faults hslots (by omega) (fun hge => hnew (by omega)) i

end Relocation

namespace Draft

/-! ### Preparing a module -/

/-- A variable that is found lies in the slots, and so does each of its elements. -/
theorem resolveVar_faults {t : GlobalTable} (ht : t.Consistent) (v : ImportedVar) :
    FaultsOnlyIf P (resolveVar t v) := by
  unfold resolveVar
  refine FaultsOnlyIf.bind (.of_exists (ht.exists_search v.name)) fun found hfound => ?_
  cases found with
  | none => exact .refuse _
  | some entry =>
      obtain ⟨first, w⟩ := entry
      obtain ⟨i, hi, -, hfirst⟩ := GlobalTable.find?_eq_some ht (liftM_eq_ok.mp hfound)
      have hsucc := slotsOf_take_succ hi
      have htotal := slotsOf_take_le t.vars (i + 1)
      have hbounded := ht.bounded
      have hmax : maxSlot = 0x7FFFFFFF := rfl
      have hsum : v.index.toNat < w.span.toNat →
          FaultsOnlyIf P (liftM (Word.add first v.index) : Except Stop UInt32) :=
        fun hlt => .add fun hge => absurd hge (by omega)
      dsimp only
      split
      · rename_i hzero
        exact hsum (GlobalVar.lt_span_iff.mpr (.inl hzero))
      · split
        · exact .refuse _
        · rename_i harray
          split
          · exact .refuse _
          · rename_i hsize
            refine hsum (GlobalVar.lt_span_iff.mpr (.inr ⟨?_, UInt32.not_le.mp hsize⟩))
            simpa using harray

theorem declareGlobal_faults (t : GlobalTable) (v : GlobalVar) :
    FaultsOnlyIf P (declareGlobal t v) := by
  unfold declareGlobal
  split
  · exact .ok _
  · exact .refuse _
  · exact .refuse _

theorem resolveScript_faults (ss : List Script) (v : ImportedScript) :
    FaultsOnlyIf P (resolveScript ss v) := by
  unfold resolveScript
  split
  · exact .refuse _
  · split
    · exact .ok _
    · exact .refuse _

variable {share : Bool} {total : UInt32} {d : Draft} {m : ObjectModule}

/-- Before scripts are copied only the numbering of scripts can fault. -/
theorem prepare_faults (hd : d.globals.Consistent) (hdata : m.image.data.Consistent)
    (hslots : m.image.globals.slots.toNat ≤ total.toNat)
    (hids : 0xFFFFFFFF ≤ d.scripts.length + m.image.scripts.length → P) :
    FaultsOnlyIf P (d.prepare share total m) := by
  have hcount := Word.toNat_saturate_le d.scripts.length
  obtain ⟨us, hus⟩ := hdata.exists_texts
  unfold prepare
  refine FaultsOnlyIf.bind (.add fun hge => hids ?_) fun first hfirst => ?_
  · rw [UInt32.toNat_one] at hge
    omega
  rw [liftM_eq_ok, Word.add_eq_ok_iff, UInt32.toNat_one] at hfirst
  refine FaultsOnlyIf.bind (.of_exists ⟨_, TextPool.merge_eq_ok_iff.mpr ⟨us, hus, rfl⟩⟩)
    fun texts _ => ?_
  refine FaultsOnlyIf.bind (.mapM fun v _ => resolveVar_faults hd v) fun vars _ => ?_
  refine FaultsOnlyIf.bind (.foldlM declareGlobal_faults _) fun globals _ => ?_
  refine FaultsOnlyIf.bind (.mapM fun v _ => resolveScript_faults _ v) fun scripts _ => ?_
  refine FaultsOnlyIf.bind (.mapM ?_) fun ids _ => ?_
  · rintro ⟨s, i⟩ hsi
    have hi := (List.getElem?_eq_some_iff.mp (List.mem_zipIdx_iff_getElem?.mp hsi)).1
    have hiNat := Word.toNat_saturate_le i
    exact FaultsOnlyIf.bind (.add fun hge => hids (by omega)) fun id _ => .ok _
  exact FaultsOnlyIf.bind (.sub hslots) fun shift _ => .ok _

/-! ### Copying scripts -/

/-- A script is copied from inside the code of its module, and faults where its copy leaves the
words. -/
theorem copyScript_faults {r : Relocation} {id : UInt32} {length : Nat} {s : Script}
    (hslots : r.slots.toNat + r.globalOffset.toNat < 0x100000000)
    (hown : m.image.code.length < 0x100000000)
    (hlength : 0x100000000 < length + (m.runOf s).length → P) :
    FaultsOnlyIf P (copyScript r m id (Word.saturate length) s) := by
  unfold copyScript
  cases hrun : m.image.scriptCode? s with
  | none => exact .refuse _
  | some run =>
      rw [ObjectModule.runOf, hrun, Option.getD_some] at hlength
      have hinside := (prefix_of_closedRun? hrun).length_le
      rw [List.length_drop] at hinside
      have hpos := length_pos_of_closedRun? hrun
      have hstart := Word.toNat_saturate_le length
      exact (Relocation.moveRun_faults hslots (by omega) fun hgt => hlength (by omega)).bind
        fun moved _ => .ok _

theorem copyScripts_faults {r : Relocation} {first : UInt32} {i length : Nat} {ss : List Script}
    (hslots : r.slots.toNat + r.globalOffset.toNat < 0x100000000)
    (hown : m.image.code.length < 0x100000000)
    (hlength : 0x100000000 < length + (ss.flatMap m.runOf).length → P)
    (hids : 0x100000000 < first.toNat + i + ss.length → P) :
    FaultsOnlyIf P (copyScripts r m first i length ss) := by
  induction ss generalizing i length with
  | nil => exact .ok []
  | cons s ss ih =>
      rw [List.flatMap_cons, List.length_append] at hlength
      rw [List.length_cons] at hids
      have hi := Word.toNat_saturate_le i
      refine FaultsOnlyIf.bind (.add fun hge => hids (by omega)) fun id _ => ?_
      refine FaultsOnlyIf.bind (copyScript_faults hslots hown fun hgt => hlength (by omega))
        fun c hc => ?_
      obtain ⟨-, run, hcopied⟩ := copyScript_ok hc
      have hmoved : c.moved.length = (m.runOf s).length := by
        rw [Relocation.moveRun_length hcopied.moved, ObjectModule.runOf, hcopied.closed,
          Option.getD_some]
      exact FaultsOnlyIf.bind (ih (fun hgt => hlength (by omega)) fun hge => hids (by omega))
        fun cs _ => .ok _

theorem checkJumps_faults (size : UInt32) (jumps : List (UInt32 × UInt32)) :
    FaultsOnlyIf P (checkJumps size jumps) := by
  unfold checkJumps
  split
  · exact .refuse _
  · exact .ok _

theorem resolveAutostart_faults (r : Relocation) (v : SymbolRef) :
    FaultsOnlyIf P (resolveAutostart r v) := by
  unfold resolveAutostart
  split
  · exact .ok _
  · exact .refuse _

/-! ### Merging modules -/

/-- A module that has been read is merged without a fault while its code is addressed and its
scripts are numbered by words. -/
theorem merge_faults (hd : d.globals.Consistent) (hm : m.image.globals.Consistent)
    (hdata : m.image.data.Consistent) (hown : m.image.code.length < 0x100000000)
    (hslots : m.image.globals.slots.toNat ≤ total.toNat)
    (hcode : 0x100000000 < d.code.length + (m.image.scripts.flatMap m.runOf).length → P)
    (hids : 0xFFFFFFFF ≤ d.scripts.length + m.image.scripts.length → P) :
    FaultsOnlyIf P (d.merge share total m) := by
  have hmax : maxSlot = 0x7FFFFFFF := rfl
  have hbefore := hd.slots ▸ hd.bounded
  have hadded := hm.slots ▸ hm.bounded
  unfold merge
  refine (prepare_faults hd hdata hslots hids).bind fun p hp => ?_
  have hprepares := prepares_of_prepare hp
  have hfirst := hprepares.firstScriptId
  refine FaultsOnlyIf.bind (copyScripts_faults ?_ hown hcode fun hge => hids (by omega))
    fun copied _ => ?_
  · rw [hprepares.slots, hprepares.globalOffset]
    omega
  refine (checkJumps_faults _ _).bind fun _ _ => ?_
  exact FaultsOnlyIf.bind (.mapM fun v _ => resolveAutostart_faults _ v) fun ids _ => .ok _

/-- Modules that have been read are merged in order without a fault while code is addressed and
scripts are numbered by words. -/
theorem mergeAll_faults {earlier rest : List ObjectModule} (hd : Merged {} earlier d)
    (hdeclared : ∀ m ∈ rest, m.image.globals.Consistent)
    (hdata : ∀ m ∈ rest, m.image.data.Consistent)
    (hown : ∀ m ∈ rest, m.image.code.length < 0x100000000)
    (hslots : ∀ m ∈ rest, m.image.globals.slots.toNat ≤ total.toNat) {f : Fault}
    (h : mergeAll share total d rest = .error (.fault f)) :
    f = .overflow ∧ (0x100000000 < copiedLength (earlier ++ rest) ∨
      0xFFFFFFFF ≤ (allScripts (earlier ++ rest)).length) := by
  induction rest generalizing d earlier with
  | nil => cases h
  | cons m ms ih =>
      -- the draft is what the earlier modules make, so they count its code and its scripts
      have happend : earlier ++ m :: ms = earlier ++ [m] ++ ms := by simp
      have hscripts : d.scripts.length = (allScripts earlier).length :=
        hd.scripts.trans (Nat.zero_add _)
      have hall : (allScripts (earlier ++ m :: ms)).length =
          (allScripts earlier).length + (m.image.scripts.length + (allScripts ms).length) := by
        simp [allScripts]
      have hlength := copiedLength_append (earlier ++ [m]) ms
      rw [copiedLength_append earlier, copiedLength_singleton, ← happend] at hlength
      have hmerge : FaultsOnlyIf (0x100000000 < copiedLength (earlier ++ m :: ms) ∨
          0xFFFFFFFF ≤ (allScripts (earlier ++ m :: ms)).length) (d.merge share total m) :=
        merge_faults hd.sound.declared.consistent (hdeclared m List.mem_cons_self)
          (hdata m List.mem_cons_self) (hown m List.mem_cons_self) (hslots m List.mem_cons_self)
          (fun hgt => .inl (by rw [hd.code_length] at hgt; omega)) fun hge => .inr (by omega)
      rw [mergeAll, List.foldlM_cons] at h
      rcases bind_eq_error.mp h with hthis | ⟨d', hd', h⟩
      · exact hmerge f (Stop.eq_fault_of_inModule hthis)
      · obtain ⟨p, cs, hmerges⟩ := merges_of_merge (mapError_eq_ok.mp hd')
        rw [happend]
        exact ih (hd.step hmerges) (fun m' hm' => hdeclared m' (List.mem_cons_of_mem _ hm'))
          (fun m' hm' => hdata m' (List.mem_cons_of_mem _ hm'))
          (fun m' hm' => hown m' (List.mem_cons_of_mem _ hm'))
          (fun m' hm' => hslots m' (List.mem_cons_of_mem _ hm')) h

end Draft

/-! ### Links -/

theorem totalSlots_ne_fault (modules : List ObjectModule) (f : Fault) :
    totalSlots modules ≠ .error (.fault f) := by
  unfold totalSlots
  generalize (0 : UInt32) = sum
  induction modules generalizing sum with
  | nil => exact fun h => nomatch h
  | cons m ms ih =>
      rw [List.foldlM_cons]
      dsimp only
      split
      · exact ih _
      · exact fun h => nomatch h

/-- A link of modules that have been read faults only when the code it copies can no longer be
addressed, or its scripts no longer be numbered. -/
theorem link_faults {options : LinkOptions} {modules : List ObjectModule}
    (hread : ∀ m ∈ modules, m.Storable) {f : Fault}
    (h : link options modules = .error (.fault f)) :
    f = .overflow ∧ (0x100000000 < copiedLength modules ∨
      0xFFFFFFFF ≤ (allScripts modules).length) := by
  rcases bind_eq_error.mp h with htotal | ⟨total, htotal, h⟩
  · exact absurd htotal (totalSlots_ne_fault modules f)
  · rcases bind_eq_error.mp h with hmerge | ⟨d, -, h⟩
    · exact Draft.mergeAll_faults (.refl Draft.sound_empty)
        (fun m hm => (hread m hm).image.globals.declared.consistent)
        (fun m hm => (hread m hm).image.data ▸
          DataSection.consistent_ofBytes (hread m hm).image.bytes)
        (fun m hm => (hread m hm).image.code.length)
        (fun m hm => UInt32.le_iff_toNat_le.mp (slots_le_of_totalSlots htotal hm)) hmerge
    · cases h

end ScriptImage
