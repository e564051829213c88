import ScriptImage.Compare.Code
import ScriptImage.Proofs.Runs

/-!
Code in which a comparison finds nothing. The walk over two scripts finds nothing exactly when it
reaches END on both sides at once and each pair before it matches. Outside loose mode no instruction
is passed over, so the pairs are those at equal positions of two runs of one length.
-/

namespace ScriptImage

/-- What counts as a mismatch refutes. -/
theorem FindingKind.refutes_of_counts {k : FindingKind} (h : k.counts = true) :
    k.refutes = true := by
  unfold refutes
  split
  · rfl
  · exact h

theorem Entry.mem_findings_iff {es : List Entry} {f : Finding} :
    f ∈ es.filterMap finding? ↔ .finding f ∈ es := by
  rw [List.mem_filterMap]
  constructor
  · rintro ⟨e, he, hf⟩
    cases e with
    | visited => cases hf
    | finding g =>
        cases hf
        exact he
  · exact fun hf => ⟨_, hf, rfl⟩

/-- Two offsets at which two images hold the same text. -/
def Image.SameText (a b : Image) (x y : Int32) : Prop :=
  0 ≤ x.toInt ∧ 0 ≤ y.toInt ∧ ∃ text, a.data.textAt? x.toUInt32 = .ok (some text) ∧
    b.data.textAt? y.toUInt32 = .ok (some text)

/-- A comparison that ends and finds nothing. -/
def FindsNothing (r : Except Fault (List Entry)) : Prop :=
  ∃ es, r = .ok es ∧ es.filterMap Entry.finding? = []

@[simp] theorem findsNothing_ok_iff {es : List Entry} :
    FindsNothing (.ok es) ↔ es.filterMap Entry.finding? = [] := by
  simp [FindsNothing]

@[simp] theorem findsNothing_pure_iff {es : List Entry} :
    FindsNothing (pure es) ↔ es.filterMap Entry.finding? = [] :=
  findsNothing_ok_iff

theorem findsNothing_bind_iff {α : Type} {x : Except Fault α} {f : α → Except Fault (List Entry)} :
    FindsNothing (x >>= f) ↔ ∃ a, x = .ok a ∧ FindsNothing (f a) := by
  simp only [FindsNothing, bind_eq_ok]
  constructor
  · rintro ⟨es, ⟨a, ha, hes⟩, hnone⟩
    exact ⟨a, ha, es, hes, hnone⟩
  · rintro ⟨a, ha, es, hes, hnone⟩
    exact ⟨es, ⟨a, ha, hes⟩, hnone⟩

theorem findsNothing_append_iff {es : List Entry} {x : Except Fault (List Entry)} :
    FindsNothing (do return es ++ (← x)) ↔ es.filterMap Entry.finding? = [] ∧ FindsNothing x := by
  rw [findsNothing_bind_iff]
  constructor
  · rintro ⟨rest, hrest, h⟩
    rw [findsNothing_pure_iff, List.filterMap_append, List.append_eq_nil_iff] at h
    exact ⟨h.1, rest, hrest, h.2⟩
  · rintro ⟨hes, rest, hrest, h⟩
    refine ⟨rest, hrest, ?_⟩
    rw [findsNothing_pure_iff, List.filterMap_append, hes, h, List.append_nil]

/-- Entries of which each finding has a property. -/
def EachFinding (P : Finding → Prop) (es : List Entry) : Prop := ∀ f, .finding f ∈ es → P f

theorem EachFinding.append {P : Finding → Prop} {es es' : List Entry} (h : EachFinding P es)
    (h' : EachFinding P es') : EachFinding P (es ++ es') := by
  intro f hf
  rcases List.mem_append.mp hf with hf | hf
  · exact h f hf
  · exact h' f hf

theorem eachFinding_map {P : Finding → Prop} {script : Option String} {ks : List FindingKind}
    (h : ∀ k ∈ ks, P ⟨script, k⟩) : EachFinding P (ks.map fun k => .finding ⟨script, k⟩) := by
  intro f hf
  obtain ⟨k, hk, heq⟩ := List.mem_map.mp hf
  cases heq
  exact h k hk

/-- Entries of which each finding counts as a mismatch. -/
abbrev AllCount (es : List Entry) : Prop := EachFinding (fun f => f.counts = true) es

/-- Entries of which each finding refutes that the images are equal. -/
abbrev AllRefute (es : List Entry) : Prop := EachFinding (fun f => f.refutes = true) es

theorem AllCount.allRefute {es : List Entry} (h : AllCount es) : AllRefute es := fun f hf =>
  FindingKind.refutes_of_counts (h f hf)

/-- Without refutation such entries hold no finding at all. -/
theorem AllRefute.findings_eq_nil {es : List Entry} (h : AllRefute es)
    (hnone : ∀ f ∈ es.filterMap Entry.finding?, ¬ f.refutes = true) :
    es.filterMap Entry.finding? = [] :=
  List.eq_nil_iff_forall_not_mem.mpr fun f hf => hnone f hf (h f (Entry.mem_findings_iff.mp hf))

namespace ScriptPair

variable {p : ScriptPair} {mode : CompareMode} {ta tb ra rb : List Instruction}
  {ia ib : Instruction}

/-! ### One pair of instructions -/

theorem matches_of_step {s : Step} (h : p.step mode ta tb ia ib = .ok s) (hs : s.found = none) :
    s = { conversion := s.conversion } := by
  unfold step at h
  simp only at h
  split at h
  · cases h
    rfl
  · split at h
    · cases h
      cases hs
    · split at h
      · cases h
        split
        · rfl
        · rename_i hne
          rw [if_neg hne] at hs
          cases hs
      · obtain ⟨o, -, ho⟩ := bind_eq_ok.mp h
        cases o <;> cases ho
        · rfl
        · cases hs
        · cases hs

/-- A conversion is looked for in loose mode only, before all else. -/
theorem conversion_eq_of_step {s : Step} (h : p.step mode ta tb ia ib = .ok s) :
    s.conversion = if mode = .loose then conversion? ta tb else none := by
  unfold step at h
  simp only at h
  split at h
  · rename_i c hc
    cases h
    exact hc.symm
  · rename_i hnone
    rw [hnone]
    split at h
    · cases h
      rfl
    · split at h
      · cases h
        split <;> rfl
      · obtain ⟨o, -, ho⟩ := bind_eq_ok.mp h
        cases o <;> cases ho <;> rfl

theorem conversion?_eq_of_step {s : Step} (h : p.step mode ta tb ia ib = .ok s) {c : Conversion}
    (hc : s.conversion = some c) : conversion? ta tb = some c := by
  rw [conversion_eq_of_step h] at hc
  split at hc
  · exact hc
  · cases hc

theorem conversion_of_step {s : Step} (h : p.step mode ta tb ia ib = .ok s)
    (hmode : mode ≠ .loose) : s.conversion = none := by
  rw [conversion_eq_of_step h, if_neg hmode]

/-- A pair is found different, or an operand of it does not resolve. -/
theorem found_of_step {s : Step} (h : p.step mode ta tb ia ib = .ok s) {k : FindingKind}
    (hs : s.found = some k) : k = .instruction (p.location (some ia) (some ib)) ia ib ∨
      ∃ kind, p.matchOperands ta tb ia ib = .ok (.unresolved kind) ∧
        k = .unresolved (p.location (some ia) (some ib)) kind ia ib := by
  unfold step at h
  simp only at h
  split at h
  · cases h
    cases hs
  · split at h
    · cases h
      cases hs
      exact .inl rfl
    · split at h
      · cases h
        split at hs <;> cases hs
        exact .inl rfl
      · obtain ⟨o, ho, h⟩ := bind_eq_ok.mp h
        cases o <;> cases h <;> cases hs
        · exact .inl rfl
        · exact .inr ⟨_, ho, rfl⟩

/-- A finding about a pair counts. -/
theorem counts_of_step {s : Step} (h : p.step mode ta tb ia ib = .ok s) {k : FindingKind}
    (hs : s.found = some k) : k.counts = true := by
  rcases found_of_step h hs with rfl | ⟨kind, -, rfl⟩ <;> rfl

/-- By meaning a pair matches when all but the operands is the same and the operands match, and no
conversion stands in between. -/
theorem step_eq_ok_iff (hmode : mode ≠ .strict)
    (hconversion : mode = .loose → conversion? ta tb = none) :
    p.step mode ta tb ia ib = .ok {} ↔ ia.opcode = ib.opcode ∧ ia.mode = ib.mode ∧
      ia.type = ib.type ∧ p.matchOperands ta tb ia ib = .ok .same := by
  have hnone : (if mode = .loose then conversion? ta tb else none) = none := by
    split
    · exact hconversion ‹_›
    · rfl
  unfold step
  simp only [hnone]
  split
  · rename_i hdiffer
    simp only [pure_eq_ok, Step.mk.injEq, reduceCtorEq, false_and, false_iff]
    rintro ⟨hop, hm, ht, -⟩
    rcases hdiffer with h | h | h
    · exact h hop
    · exact h hm
    · exact h ht
  · rename_i hsame
    simp only [not_or, not_not] at hsame
    simp only [hsame, true_and, bind_eq_ok]
    constructor
    · rintro ⟨o, ho, h⟩
      cases o
      · exact ho
      · cases h
      · cases h
    · intro h
      exact ⟨_, h, rfl⟩

theorem sameText_eq_ok_iff {x y : Int32} :
    p.sameText x y = .ok true ↔ p.imageA.SameText p.imageB x y := by
  unfold sameText Image.SameText
  split
  · rename_i hpos
    simp only [hpos, true_and, bind_eq_ok]
    constructor
    · rintro ⟨s, hs, t, ht, h⟩
      split at h
      · simp only [pure_eq_ok, beq_iff_eq] at h
        exact ⟨_, hs, h ▸ ht⟩
      · cases h
    · rintro ⟨text, hs, ht⟩
      exact ⟨_, hs, _, ht, by simp⟩
  · rename_i hneg
    refine iff_of_false (by simp) fun h => hneg ⟨h.1, h.2.1⟩

/-- Numbers match when they are the same or the offsets of the same text. -/
theorem matchOperands_int {x y : Int32} (ha : ia.operand = .int x) (hb : ib.operand = .int y) :
    p.matchOperands ta tb ia ib = .ok .same ↔ x = y ∨ p.imageA.SameText p.imageB x y := by
  unfold matchOperands
  rw [ha, hb]
  simp only
  split
  · rename_i heq
    exact iff_of_true rfl (Or.inl heq)
  · rename_i hne
    rw [← sameText_eq_ok_iff, map_eq_ok, or_iff_right hne]
    constructor
    · rintro ⟨same, hsame, h⟩
      cases same
      · cases h
      · exact hsame
    · intro h
      exact ⟨true, h, rfl⟩

/-! ### Two tails -/

/-- Tails that the walk goes through up to END on both sides without finding anything. -/
inductive Agrees (p : ScriptPair) (mode : CompareMode) :
    List Instruction → List Instruction → Prop
  | ended {ia ib : Instruction} {ra rb : List Instruction} : ia.opcode = .endRun →
      ib.opcode = .endRun → Agrees p mode (ia :: ra) (ib :: rb)
  | step {ia ib : Instruction} {ra rb : List Instruction} {conversion : Option Conversion} :
      ia.opcode ≠ .endRun → ib.opcode ≠ .endRun →
      p.step mode (ia :: ra) (ib :: rb) ia ib = .ok { conversion } →
      Agrees p mode (ra.drop (if conversion = some .first then 1 else 0))
        (rb.drop (if conversion = some .second then 1 else 0)) →
      Agrees p mode (ia :: ra) (ib :: rb)

theorem findsNothing_compareTails_iff {pa pb : Nat} :
    FindsNothing (p.compareTails mode pa pb ta tb) ↔ p.Agrees mode ta tb := by
  fun_induction compareTails p mode pa pb ta tb with
  | case1 pa pb ia ra ib rb visited hend =>
      simp only [findsNothing_ok_iff]
      exact iff_of_true rfl (.ended hend.1 hend.2)
  | case2 pa pb ia ra ib rb visited hboth hone =>
      simp only [findsNothing_ok_iff]
      refine iff_of_false (by simp [visited, finding, Entry.finding?]) ?_
      intro h
      cases h with
      | ended ha hb => exact hboth ⟨ha, hb⟩
      | step ha hb => exact hone.elim ha hb
  | case3 pa pb ia ra ib rb visited hboth hone ih =>
      rw [not_or] at hone
      simp only [dite_eq_ite] at ih
      rw [findsNothing_bind_iff]
      constructor
      · rintro ⟨s, hs, hrest⟩
        cases hfound : s.found with
        | some k =>
            -- an entry for the finding is there whether or not the walk goes on
            rw [hfound] at hrest
            split at hrest
            · simp [visited, finding, Entry.finding?] at hrest
            · simp only [findsNothing_append_iff] at hrest
              simp [visited, finding, Entry.finding?] at hrest
        | none =>
            have hmatch := matches_of_step hs hfound
            rw [hmatch] at hs hrest
            simp only [Bool.false_eq_true, if_false, findsNothing_append_iff] at hrest
            exact .step hone.1 hone.2 hs ((ih s).mp hrest.2)
      · intro h
        cases h with
        | ended ha => exact absurd ha hone.1
        | @step _ _ _ _ conversion _ _ hs hrest =>
            refine ⟨_, hs, ?_⟩
            simp only [Bool.false_eq_true, if_false, findsNothing_append_iff]
            exact ⟨rfl, (ih { conversion }).mpr hrest⟩
  | case4 pa pb ta tb hcons =>
      simp only [findsNothing_ok_iff]
      refine iff_of_false (by simp [finding, Entry.finding?]) ?_
      intro h
      cases h with
      | ended => exact hcons _ _ _ _ rfl rfl
      | step => exact hcons _ _ _ _ rfl rfl

/-- Findings about code all count. -/
theorem allCount_of_compareTails {pa pb : Nat} {es : List Entry}
    (h : p.compareTails mode pa pb ta tb = .ok es) : AllCount es := by
  revert es
  fun_induction compareTails p mode pa pb ta tb with
  | case1 pa pb ia ra ib rb visited =>
      rintro es ⟨⟩
      simp [EachFinding, visited]
  | case2 pa pb ia ra ib rb visited =>
      rintro es ⟨⟩
      simp [EachFinding, visited, finding, Finding.counts, FindingKind.counts, FindingKind.severity]
  | case3 pa pb ia ra ib rb visited hboth hone =>
      rename_i ih
      intro es h
      obtain ⟨s, hs, h⟩ := bind_eq_ok.mp h
      have hhere : AllCount (visited :: (s.found.map p.finding).toList) := by
        intro f hf
        cases hfound : s.found with
        | none => simp [hfound, visited] at hf
        | some k =>
            have hf : f = ⟨some p.a.name, k⟩ := by simpa [hfound, visited, finding] using hf
            exact hf ▸ counts_of_step hs hfound
      split at h
      · cases h
        exact hhere
      · obtain ⟨rest, hrest, h⟩ := bind_eq_ok.mp h
        cases h
        simp only [dite_eq_ite] at ih
        exact hhere.append (ih s hrest)
  | case4 =>
      rintro es ⟨⟩
      simp [EachFinding, finding, Finding.counts, FindingKind.counts, FindingKind.severity]

/-! ### Two runs -/

/-- Closed runs of one length of which every pair before END matches. -/
structure Matches (p : ScriptPair) (mode : CompareMode) (ta tb run run' : List Instruction) :
    Prop where
  closedA : closedRun? ta = some run
  closedB : closedRun? tb = some run'
  length : run.length = run'.length
  step : ∀ k ia ib, run[k]? = some ia → run'[k]? = some ib → ia.opcode ≠ .endRun →
    ib.opcode ≠ .endRun → p.step mode (ta.drop k) (tb.drop k) ia ib = .ok {}

theorem Matches.agrees {run run' : List Instruction} (h : p.Matches mode ta tb run run') :
    p.Agrees mode ta tb := by
  induction ta generalizing tb run run' with
  | nil => exact absurd h.closedA (by simp [closedRun?])
  | cons ia ra ih =>
      cases tb with
      | nil => exact absurd h.closedB (by simp [closedRun?])
      | cons ib rb =>
          have hA := h.closedA
          have hB := h.closedB
          have hlength := h.length
          by_cases ha : ia.opcode = .endRun <;> by_cases hb : ib.opcode = .endRun
          · exact .ended ha hb
          · -- runs of one length end together
            rw [closedRun?_cons_of_eq ha] at hA
            obtain ⟨rest, hrest, rfl⟩ := (closedRun?_cons_of_ne hb).mp hB
            cases hA
            have hpos := length_pos_of_closedRun? hrest
            have hzero : 0 = rest.length := Nat.succ_inj.mp hlength
            omega
          · rw [closedRun?_cons_of_eq hb] at hB
            obtain ⟨rest, hrest, rfl⟩ := (closedRun?_cons_of_ne ha).mp hA
            cases hB
            have hpos := length_pos_of_closedRun? hrest
            have hzero : rest.length = 0 := Nat.succ_inj.mp hlength
            omega
          · obtain ⟨rest, hrest, rfl⟩ := (closedRun?_cons_of_ne ha).mp hA
            obtain ⟨rest', hrest', rfl⟩ := (closedRun?_cons_of_ne hb).mp hB
            refine .step ha hb (h.step 0 ia ib rfl rfl ha hb) (ih ⟨hrest, hrest', ?_, ?_⟩)
            · exact Nat.succ_inj.mp hlength
            · exact fun k => h.step (k + 1)

/-- Before END each instruction of the one run stands across from one of the other. -/
theorem Matches.exists_step {run run' : List Instruction} (h : p.Matches mode ta tb run run')
    {k : Nat} (hk : run[k]? = some ia) (hne : ia.opcode ≠ .endRun) :
    ∃ ib, run'[k]? = some ib ∧ (ta.drop k).head? = some ia ∧ (tb.drop k).head? = some ib ∧
      p.step mode (ta.drop k) (tb.drop k) ia ib = .ok {} := by
  have hlt := lt_of_closedRun? (closedRun?_self h.closedA) hk hne
  rw [h.length] at hlt
  have hk' := List.getElem?_eq_getElem (Nat.lt_of_succ_lt hlt)
  have hne' := ne_endRun_of_lt (closedRun?_self h.closedB) hk' hlt
  exact ⟨_, hk', head?_drop_of_closedRun? h.closedA hk, head?_drop_of_closedRun? h.closedB hk',
    h.step k _ _ hk hk' hne hne'⟩

/-- Outside loose mode no instruction is passed over, so tails that agree have matching runs. -/
theorem Agrees.exists_matches (h : p.Agrees mode ta tb) (hmode : mode ≠ .loose) :
    ∃ run run', p.Matches mode ta tb run run' := by
  induction h with
  | @ended ia ib ra rb ha hb =>
      refine ⟨[ia], [ib], closedRun?_cons_of_eq ha ra, closedRun?_cons_of_eq hb rb, rfl, ?_⟩
      intro k ja jb hja hjb hne
      rw [List.mem_singleton.mp (List.mem_of_getElem? hja)] at hne
      exact absurd ha hne
  | @step ia ib ra rb conversion ha hb hstep _ ih =>
      obtain ⟨run, run', hrun⟩ := ih
      obtain rfl := conversion_of_step hstep hmode
      refine ⟨ia :: run, ib :: run', (closedRun?_cons_of_ne ha).mpr ⟨run, hrun.closedA, rfl⟩,
        (closedRun?_cons_of_ne hb).mpr ⟨run', hrun.closedB, rfl⟩, congrArg Nat.succ hrun.length, ?_⟩
      intro k ja jb hja hjb
      cases k with
      | zero =>
          cases hja
          cases hjb
          exact fun _ _ => hstep
      | succ k => exact hrun.step k ja jb hja hjb

end ScriptPair

end ScriptImage
