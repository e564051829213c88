import ScriptImage.Proofs.Codec.Canonical
import ScriptImage.Proofs.Link.Acceptance

/-!
Links that leave the words. The address of a copied instruction is a word, and so is the id of a
script. Scripts may share one run of instructions, of which each gets a copy of its own, so few
instructions of a module can become more than there are addresses; and so can few instructions be
run by more scripts than there are ids. The sums of such a link fault.
-/

namespace ScriptImage

variable {e : Stop}

theorem Word.eq_overflow_of_add {a b : UInt32}
    (h : (liftM (add a b) : Except Stop UInt32) = .error e) : e = .fault .overflow := by
  unfold add at h
  split at h
  · cases h
  · cases h
    rfl

/-- An instruction that names nothing: it has no operand, and no float before it tells its
variable. -/
structure Instruction.NamesNothing (i : Instruction) : Prop where
  operand : i.operand = .none
  direct : i.isReference = false

/-! ### Moving instructions -/

namespace Relocation

variable {r : Relocation} {textPushes : List UInt32} {s : Script} {newStart : UInt32}
  {run : List Instruction}

/-- An instruction that names nothing can always be moved, unless its addresses are no words. -/
theorem eq_overflow_of_move {k : Nat} {i : Instruction} (hi : i.NamesNothing)
    (h : r.move textPushes s newStart run k i = .error e) : e = .fault .overflow := by
  unfold move at h
  rcases bind_eq_error.mp h with h | ⟨old, -, h⟩
  · exact Word.eq_overflow_of_add h
  rcases bind_eq_error.mp h with h | ⟨new, -, h⟩
  · exact Word.eq_overflow_of_add h
  simp only [operand, hi.operand, hi.direct, ok_bind] at h
  cases h

theorem eq_overflow_of_moveRun (hrun : ∀ i ∈ run, i.NamesNothing)
    (h : r.moveRun textPushes s newStart run = .error e) : e = .fault .overflow := by
  obtain ⟨⟨i, k⟩, hik, h⟩ := mapM_eq_error h
  exact eq_overflow_of_move (hrun i (List.mem_of_getElem? (List.mem_zipIdx_iff_getElem?.mp hik))) h

/-- A run that was moved ends inside the words, wherever it started. -/
theorem lt_of_moveRun {ms : List Moved} (h : r.moveRun textPushes s newStart run = .ok ms)
    {k : Nat} (hk : k < run.length) (hword : k < 0x100000000) :
    newStart.toNat + k < 0x100000000 := by
  obtain ⟨m, -, hmoves⟩ := moveRun_getElem? h (List.getElem?_eq_getElem hk)
  have haddress := hmoves.newAddress
  have hlt := m.newAddress.toNat_lt
  rw [Word.toNat_saturate hword] at haddress
  omega

end Relocation

namespace Draft

/-! ### Copying scripts -/

variable {r : Relocation} {m : ObjectModule} {first : UInt32} {i length : Nat} {ss : List Script}

theorem eq_overflow_of_copyScripts
    (hruns : ∀ s ∈ ss, ∃ run, m.image.scriptCode? s = some run ∧ ∀ i ∈ run, i.NamesNothing)
    (h : copyScripts r m first i length ss = .error e) : e = .fault .overflow := by
  induction ss generalizing i length with
  | nil => cases h
  | cons s ss ih =>
      obtain ⟨run, hrun, hnothing⟩ := hruns s List.mem_cons_self
      rcases bind_eq_error.mp h with hid | ⟨id, -, h⟩
      · exact Word.eq_overflow_of_add hid
      rcases bind_eq_error.mp h with hcopy | ⟨c, -, h⟩
      · simp only [copyScript, hrun] at hcopy
        rcases bind_eq_error.mp hcopy with hmove | ⟨ms, -, hdone⟩
        · exact Relocation.eq_overflow_of_moveRun hnothing hmove
        · cases hdone
      rcases bind_eq_error.mp h with hrest | ⟨cs, -, hdone⟩
      · exact ih (fun t ht => hruns t (List.mem_cons_of_mem _ ht)) hrest
      · cases hdone

/-- Scripts of two instructions or more are copied inside the words. A script of one instruction
may come to stand behind them, at the last address. -/
theorem length_le_of_copyScripts {cs : List CopiedScript}
    (h : copyScripts r m first i length ss = .ok cs)
    (hown : m.image.code.length < 0x100000000) (hlong : ∀ s ∈ ss, 2 ≤ (m.runOf s).length)
    (hlength : length ≤ 0x100000000) :
    length + (ss.flatMap m.runOf).length ≤ 0x100000000 := by
  induction ss generalizing i length cs with
  | nil => exact hlength
  | cons s ss ih =>
      simp only [copyScripts, bind_eq_ok, liftM_eq_ok, pure_eq_ok] at h
      obtain ⟨id, -, c, hc, cs, hcs, -⟩ := h
      obtain ⟨-, run, hcopied⟩ := copyScript_ok hc
      have hrun : m.runOf s = run := by rw [ObjectModule.runOf, hcopied.closed, Option.getD_some]
      have htwo : 2 ≤ run.length := hrun ▸ hlong s List.mem_cons_self
      have hinside := (prefix_of_closedRun? hcopied.closed).length_le
      rw [List.length_drop] at hinside
      -- the last instruction of the copy has an address
      have hlast := Relocation.lt_of_moveRun hcopied.moved (k := run.length - 1) (by omega)
        (by omega)
      rw [Word.toNat_saturate_eq] at hlast
      rw [Relocation.moveRun_length hcopied.moved] at hcs
      have hrest := ih hcs (fun t ht => hlong t (List.mem_cons_of_mem _ ht)) (by omega)
      rw [List.flatMap_cons, List.length_append, hrun]
      omega

/-! ### Merging modules -/

variable {share : Bool} {total : UInt32} {d : Draft} {earlier : List ObjectModule}

/-- A module that lacks nothing, of scripts that name nothing, faults when the copies of their
instructions do not find room in the words. -/
theorem merge_overflow_of_code (hd : Merged {} earlier d) (hm : m.Storable)
    (hlinks : m.LinksAfter total.toNat earlier)
    (hslots : slotsOf (allVars earlier) + m.image.globals.slots.toNat ≤ total.toNat)
    (htotal : total.toNat ≤ maxSlot)
    (hids : d.scripts.length + m.image.scripts.length < 0x100000000)
    (hnothing : ∀ i ∈ m.image.code, i.NamesNothing)
    (hlong : ∀ s ∈ m.image.scripts, 2 ≤ (m.runOf s).length)
    (hbefore : copiedLength earlier ≤ 0x100000000)
    (hcode : 0x100000000 < copiedLength (earlier ++ [m])) :
    d.merge share total m = .error (.fault .overflow) := by
  have hdata : m.image.data.Consistent :=
    hm.image.data ▸ DataSection.consistent_ofBytes hm.image.bytes
  obtain ⟨p, hp⟩ : ∃ p, d.prepare share total m = .ok p :=
    exists_prepare hd hm.image.globals.declared hdata hlinks hslots htotal hids
  rw [copiedLength_append, copiedLength_singleton, ← hd.code_length] at hcode
  rw [← hd.code_length] at hbefore
  rw [merge, hp, ok_bind]
  cases hcopy : copyScripts p.relocation m p.firstScriptId 0 d.code.length m.image.scripts with
  | ok cs =>
      have hfits := length_le_of_copyScripts hcopy hm.image.code.length hlong hbefore
      omega
  | error e =>
      obtain rfl : e = .fault .overflow := by
        refine eq_overflow_of_copyScripts (fun s hs => ?_) hcopy
        obtain ⟨j, hj⟩ := List.mem_iff_getElem?.mp hs
        obtain ⟨run, hrun, -⟩ := hlinks.scripts j s hj
        exact ⟨run, hrun, fun i hi => hnothing i
          (List.mem_of_mem_drop ((prefix_of_closedRun? hrun).subset hi))⟩
      rfl

/-- Behind the last id no module can be merged, not even one without scripts. -/
theorem merge_overflow_of_scripts (h : 0xFFFFFFFF ≤ d.scripts.length) :
    d.merge share total m = .error (.fault .overflow) := by
  have hadd : Word.add (Word.saturate d.scripts.length) 1 = .error .overflow := by
    rw [Word.add, if_neg (by rw [Word.toNat_saturate_eq, UInt32.toNat_one]; omega)]
  rw [merge, prepare, hadd]
  rfl

end Draft

/-! ### Links -/

/-- A link faults with the first of its modules that does. -/
theorem link_overflow {options : LinkOptions} (earlier : List ObjectModule)
    {rest : List ObjectModule} {m : ObjectModule} {total : UInt32} {d : Draft}
    (htotal : totalSlots (earlier ++ m :: rest) = .ok total)
    (hd : mergeAll options.sharedTexts total {} earlier = .ok d)
    (hm : d.merge options.sharedTexts total m = .error (.fault .overflow)) :
    link options (earlier ++ m :: rest) = .error (.fault .overflow) := by
  have hmerge : mergeAll options.sharedTexts total {} (earlier ++ m :: rest) =
      .error (.fault .overflow) := by
    rw [mergeAll] at hd ⊢
    rw [List.foldlM_append, hd, ok_bind, List.foldlM_cons, hm]
    rfl
  rw [link, htotal, ok_bind, hmerge]
  rfl

/-! ### Scripts that share their code -/

namespace Sample

/-- Scripts that all run the same operations up to an END. -/
def sharing (scripts operations : Nat) : ObjectModule where
  name := "sharing"
  image := {
    scripts := List.replicate scripts ⟨1, "", 0, 0, [], 0, ""⟩
    code := List.replicate operations (.op .nop) ++ [.endRun] }

variable {n k : Nat}

theorem namesNothing_of_mem_sharing : ∀ i ∈ (sharing n k).image.code, i.NamesNothing := by
  intro i hi
  rcases List.mem_append.mp hi with hi | hi
  · obtain rfl := List.eq_of_mem_replicate hi
    exact ⟨rfl, rfl⟩
  · obtain rfl := List.mem_singleton.mp hi
    exact ⟨rfl, rfl⟩

theorem sharing_storable (hn : n < 0x100000000) (hk : k + 1 < 0x100000000) :
    (sharing n k).Storable := by
  have hscripts : ListFits Script.Storable (sharing n k).image.scripts := by
    refine ⟨by rwa [sharing, List.length_replicate], fun s hs => ?_⟩
    obtain rfl := List.eq_of_mem_replicate hs
    exact ⟨by decide, ⟨by decide, nofun⟩, by decide⟩
  have hcode : ListFits Instruction.Storable (sharing n k).image.code := by
    refine ⟨by simpa [sharing] using hk, fun i hi => ?_⟩
    rcases List.mem_append.mp hi with hi | hi
    · obtain rfl := List.eq_of_mem_replicate hi
      rfl
    · obtain rfl := List.mem_singleton.mp hi
      rfl
  have hinits : ListFits Initializer.Storable [.null] := by
    refine ⟨by decide, fun x hx => ?_⟩
    obtain rfl := List.mem_singleton.mp hx
    exact ⟨by decide, nofun⟩
  have hempty : 0 < 0x100000000 := by decide
  have hname : TextFits "sharing" := by decide
  have himage : (sharing n k).image.Storable :=
    ⟨⟨.empty, nofun⟩, hscripts, hcode, hempty, rfl, ⟨hempty, nofun⟩, hinits⟩
  exact ⟨hname, himage, ⟨hempty, nofun⟩, .nil, ⟨hempty, nofun⟩, .nil, .nil, hempty⟩

theorem closedRun?_operations :
    closedRun? (List.replicate k (.op .nop) ++ [.endRun]) =
      some (List.replicate k (.op .nop) ++ [.endRun]) := by
  induction k with
  | zero => rfl
  | succ k ih =>
      rw [List.replicate_succ, List.cons_append]
      exact (closedRun?_cons_of_ne (by decide)).mpr ⟨_, ih, rfl⟩

theorem scriptCode?_sharing {s : Script} (hs : s ∈ (sharing n k).image.scripts) :
    (sharing n k).image.scriptCode? s = some (sharing n k).image.code := by
  obtain rfl := List.eq_of_mem_replicate hs
  exact closedRun?_operations

theorem runOf_sharing {s : Script} (hs : s ∈ (sharing n k).image.scripts) :
    (sharing n k).runOf s = (sharing n k).image.code := by
  rw [ObjectModule.runOf, scriptCode?_sharing hs, Option.getD_some]

theorem sharing_code_length : (sharing n k).image.code.length = k + 1 := by
  rw [sharing, List.length_append, List.length_replicate, List.length_singleton]

theorem sharing_scripts_length : (sharing n k).image.scripts.length = n := List.length_replicate

/-- Every script has a copy of the code. -/
theorem copiedLength_sharing : copiedLength [sharing n k] = n * (k + 1) := by
  have hruns : ∀ s ∈ (sharing n k).image.scripts, ((sharing n k).runOf s).length = k + 1 :=
    fun s hs => by rw [runOf_sharing hs, sharing_code_length]
  rw [copiedLength_singleton, List.length_flatMap, List.map_congr_left hruns, List.map_const',
    List.sum_replicate_nat, sharing_scripts_length]

/-- The scripts lack nothing that a link could ask of them. -/
theorem sharing_linksAfter (total : Nat) : (sharing n k).LinksAfter total [] := by
  refine ⟨by decide, nofun, nofun, nofun, ?_, nofun⟩
  intro j s hs
  refine ⟨_, scriptCode?_sharing (List.mem_of_getElem? hs), fun k i hi => ?_⟩
  obtain ⟨hoperand, hdirect⟩ := namesNothing_of_mem_sharing i (List.mem_of_getElem? hi)
  exact ⟨by simp [hoperand], by simp [hoperand], nofun, by simp [hoperand], by simp [hdirect]⟩

variable {options : LinkOptions} {rest : List ObjectModule}

/-- They take no slots. -/
theorem exists_totalSlots_sharing (hslots : slotSum rest ≤ maxSlot) :
    ∃ total, totalSlots (sharing n k :: rest) = .ok total := by
  have hmax : maxSlot = 0x7FFFFFFF := rfl
  have hsum : slotSum (sharing n k :: rest) = slotSum rest := Nat.zero_add _
  have hnat : (UInt32.ofNat (slotSum rest)).toNat = slotSum rest := Word.toNat_ofNat (by omega)
  exact ⟨_, totalSlots_eq_ok_iff.mpr ⟨hnat.trans hsum.symm, hnat.trans_le hslots⟩⟩

/-- Scripts that share more than single instructions fault as soon as their copies leave the
words. -/
theorem link_sharing_overflow (hn : n < 0x100000000) (hk : k + 1 < 0x100000000) (hpos : 0 < k)
    (hcode : 0x100000000 < n * (k + 1)) (hslots : slotSum rest ≤ maxSlot) :
    link options (sharing n k :: rest) = .error (.fault .overflow) := by
  obtain ⟨total, htotal⟩ := exists_totalSlots_sharing (n := n) (k := k) hslots
  refine link_overflow [] htotal rfl ?_
  refine Draft.merge_overflow_of_code (.refl Draft.sound_empty) (sharing_storable hn hk)
    (sharing_linksAfter _) (Nat.zero_le _) (totalSlots_eq_ok_iff.mp htotal).2 ?_
    namesNothing_of_mem_sharing ?_ (Nat.zero_le _) ?_
  · rw [sharing_scripts_length]
    exact (Nat.zero_add n).trans_lt hn
  · intro s hs
    rw [runOf_sharing hs, sharing_code_length]
    omega
  · rwa [List.nil_append, copiedLength_sharing]

/-- Scripts of one END take all ids before they take all addresses, and leave none to a module
behind them. -/
theorem link_crowd_overflow {m : ObjectModule} (hslots : slotSum (m :: rest) ≤ maxSlot) :
    link options (sharing 0xFFFFFFFF 0 :: m :: rest) = .error (.fault .overflow) := by
  obtain ⟨total, htotal⟩ := exists_totalSlots_sharing (n := 0xFFFFFFFF) (k := 0) hslots
  have hstorable : (sharing 0xFFFFFFFF 0).Storable := sharing_storable (by decide) (by decide)
  obtain ⟨d, hd⟩ : ∃ d, ({} : Draft).merge options.sharedTexts total (sharing 0xFFFFFFFF 0) =
      .ok d :=
    Draft.exists_merge (.refl Draft.sound_empty) (TextPool.stores_empty _) .empty
      DataSection.consistent_empty hstorable.image.code.length
      (by rw [List.nil_append, copiedLength_sharing]; decide) (sharing_linksAfter _)
      (Nat.zero_le _) (totalSlots_eq_ok_iff.mp htotal).2
  have hrun : mergeAll options.sharedTexts total {} [sharing 0xFFFFFFFF 0] = .ok d :=
    Draft.mergeAll_cons_eq_ok.mpr ⟨d, hd, rfl⟩
  refine link_overflow [_] htotal hrun (Draft.merge_overflow_of_scripts ?_)
  have hscripts := (Draft.merged_of_mergeAll Draft.sound_empty hrun).scripts
  rw [allScripts_cons, allScripts_nil, List.append_nil, sharing_scripts_length] at hscripts
  exact hscripts.ge.trans' (Nat.le_add_left _ _)

end Sample

end ScriptImage
