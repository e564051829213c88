import ScriptImage.Proofs.Compare.Verdict

/-!
When two operands agree by meaning. The relation has a rule for each kind of operand, and operands
are found the same exactly when it holds. It relates no operands of different kinds, so that where
it holds no conversion is looked for.
-/

namespace ScriptImage

/-- A float compares as equal to itself, be it a number or not. -/
theorem Binary32.numericEq_or_isNaN (x : Binary32) :
    x.numericEq x = true ∨ x.isNaN = true ∧ x.isNaN = true := by
  rw [numericEq_self_iff, and_self]
  exact (Bool.eq_false_or_eq_true x.isNaN).symm

namespace ScriptPair

variable {p : ScriptPair} {mode : CompareMode} {ta tb : List Instruction} {ia ib : Instruction}

/-- Operands that stand for the same in their scripts. The tails `ta` and `tb` of the two codes
begin with the instructions; they tell whether a reference takes its variable from a float. -/
inductive OperandsAgree (p : ScriptPair) (ta tb : List Instruction) (ia ib : Instruction) : Prop
  | none : ia.operand = .none → ib.operand = .none → OperandsAgree p ta tb ia ib
  | bool {x : Bool} : ia.operand = .bool x → ib.operand = .bool x → OperandsAgree p ta tb ia ib
  | int {x : Int32} : ia.operand = .int x → ib.operand = .int x → OperandsAgree p ta tb ia ib
  | text {x y : Int32} : ia.operand = .int x → ib.operand = .int y →
      p.imageA.SameText p.imageB x y → OperandsAgree p ta tb ia ib
  | jump {x y : UInt32} : ia.operand = .address x → ib.operand = .address y →
      (x.toNat : Int) - p.a.address.toNat = y.toNat - p.b.address.toNat →
        OperandsAgree p ta tb ia ib
  | script {r r' : SymbolRef} {name : String} : ia.operand = .script r → ib.operand = .script r' →
      p.imageA.scriptName? r = some name → p.imageB.scriptName? r' = some name →
        OperandsAgree p ta tb ia ib
  | variable {r r' : SymbolRef} {name : VarName} : ia.operand = .variable r →
      ib.operand = .variable r' → p.imageA.refName? p.a r = some name →
        p.imageB.refName? p.b r' = some name → OperandsAgree p ta tb ia ib
  /-- Floats that name one variable to a reference on either side. -/
  | carried {x y : Binary32} {name : VarName} : feedsReference ta = true →
      feedsReference tb = true → ia.operand = .float x → ib.operand = .float y →
        p.imageA.floatVarName? p.a ia = some name → p.imageB.floatVarName? p.b ib = some name →
          OperandsAgree p ta tb ia ib
  /-- Where a float that should name a variable names none, its bits count. -/
  | unnamed {x : Binary32} : feedsReference ta = true → feedsReference tb = true →
      ia.operand = .float x → ib.operand = .float x →
        p.imageA.floatVarName? p.a ia = .none ∨ p.imageB.floatVarName? p.b ib = .none →
          OperandsAgree p ta tb ia ib
  | float {x y : Binary32} : ¬ (feedsReference ta = true ∧ feedsReference tb = true) →
      ia.operand = .float x → ib.operand = .float y →
        x.numericEq y = true ∨ x.isNaN = true ∧ y.isNaN = true → OperandsAgree p ta tb ia ib

theorem ofBool_eq_same_iff {c : Bool} : OperandMatch.ofBool c = .same ↔ c = true := by
  cases c <;> simp [OperandMatch.ofBool]

theorem ofMeanings_eq_same_iff {α : Type} [DecidableEq α] {kind : ResolvedKind} {x y : Option α} :
    OperandMatch.ofMeanings kind x y = .same ↔ ∃ m, x = some m ∧ y = some m := by
  cases x with
  | none => simp [OperandMatch.ofMeanings]
  | some m =>
      cases y with
      | none => simp [OperandMatch.ofMeanings]
      | some n =>
          rw [OperandMatch.ofMeanings, ofBool_eq_same_iff, decide_eq_true_iff]
          simp [eq_comm]

theorem operandsAgree_of_match (h : p.matchOperands ta tb ia ib = .ok .same) :
    p.OperandsAgree ta tb ia ib := by
  unfold matchOperands at h
  split at h
  · rename_i x y hx hy
    exact .jump hx hy (by simpa [ofBool_eq_same_iff] using h)
  · rename_i r r' hr hr'
    obtain ⟨name, hname, hname'⟩ := ofMeanings_eq_same_iff.mp (pure_eq_ok.mp h)
    exact .script hr hr' hname hname'
  · rename_i r r' hr hr'
    obtain ⟨name, hname, hname'⟩ := ofMeanings_eq_same_iff.mp (pure_eq_ok.mp h)
    exact .variable hr hr' hname hname'
  · rename_i x y hx hy
    have hint : p.matchOperands ta tb ia ib = .ok .same := by
      rw [matchOperands, hx, hy]
      exact h
    rcases (matchOperands_int hx hy).mp hint with rfl | htext
    · exact .int hx hy
    · exact .text hx hy htext
  · rename_i x y hx hy
    split at h
    · rename_i hfed
      rw [Bool.and_eq_true] at hfed
      split at h
      · rename_i m n hm hn
        rw [pure_eq_ok, ofBool_eq_same_iff, decide_eq_true_iff] at h
        exact .carried hfed.1 hfed.2 hx hy hm (h ▸ hn)
      · rename_i hnone
        rw [pure_eq_ok, ofBool_eq_same_iff, decide_eq_true_iff] at h
        refine .unnamed hfed.1 hfed.2 hx (h ▸ hy) ?_
        by_contra hboth
        rw [not_or] at hboth
        obtain ⟨⟨m, hm⟩, ⟨n, hn⟩⟩ :=
          hboth.imp Option.ne_none_iff_exists'.mp Option.ne_none_iff_exists'.mp
        exact hnone m n hm hn
    · rename_i hfed
      rw [Bool.and_eq_true] at hfed
      refine .float hfed hx hy ?_
      simpa [ofBool_eq_same_iff] using h
  · rename_i hjump hscript hvariable hint hfloat
    rw [pure_eq_ok, ofBool_eq_same_iff, beq_iff_eq] at h
    -- what is left are operands of other kinds, which match when they are equal
    cases ha : ia.operand with
    | none => exact .none ha (h ▸ ha)
    | bool x => exact .bool ha (h ▸ ha)
    | int x => exact (hint x x ha (h ▸ ha)).elim
    | float x => exact (hfloat x x ha (h ▸ ha)).elim
    | address x => exact (hjump x x ha (h ▸ ha)).elim
    | script r => exact (hscript r r ha (h ▸ ha)).elim
    | «variable» r => exact (hvariable r r ha (h ▸ ha)).elim

theorem matchOperands_of_agree (h : p.OperandsAgree ta tb ia ib) :
    p.matchOperands ta tb ia ib = .ok .same := by
  cases h with
  | none ha hb => simp [matchOperands, ha, hb, OperandMatch.ofBool]
  | bool ha hb => simp [matchOperands, ha, hb, OperandMatch.ofBool]
  | int ha hb => exact (matchOperands_int ha hb).mpr (Or.inl rfl)
  | text ha hb htext => exact (matchOperands_int ha hb).mpr (Or.inr htext)
  | jump ha hb hdistance => simp [matchOperands, ha, hb, hdistance, OperandMatch.ofBool]
  | script ha hb hname hname' =>
      simp [matchOperands, ha, hb, hname, hname', OperandMatch.ofMeanings, OperandMatch.ofBool]
  | «variable» ha hb hname hname' =>
      simp [matchOperands, ha, hb, hname, hname', OperandMatch.ofMeanings, OperandMatch.ofBool]
  | carried hfa hfb ha hb hname hname' =>
      simp [matchOperands, ha, hb, hfa, hfb, hname, hname', OperandMatch.ofBool]
  | unnamed hfa hfb ha hb hnone =>
      rcases hnone with hnone | hnone
      · simp [matchOperands, ha, hb, hfa, hfb, hnone, OperandMatch.ofBool]
      · simp [matchOperands, ha, hb, hfa, hfb, hnone, OperandMatch.ofBool]
  | float hfed ha hb hsame =>
      rw [← Bool.and_eq_true] at hfed
      simp [matchOperands, ha, hb, hfed, hsame, OperandMatch.ofBool]

/-- An integer agrees with itself and as the offset of a text. -/
theorem OperandsAgree.int_of_int (h : p.OperandsAgree ta tb ia ib) {x : Int32}
    (hx : ia.operand = .int x) :
    ∃ y, ib.operand = .int y ∧ (x = y ∨ p.imageA.SameText p.imageB x y) := by
  cases h with
  | int ha hb =>
      cases hx.symm.trans ha
      exact ⟨x, hb, .inl rfl⟩
  | text ha hb htext =>
      cases hx.symm.trans ha
      exact ⟨_, hb, .inr htext⟩
  | none ha | bool ha | jump ha | script ha | «variable» ha | carried _ _ ha | unnamed _ _ ha
  | float _ ha => cases hx.symm.trans ha

/-- Operands that agree are of one kind, so no conversion is looked for. -/
theorem conversion?_of_agree (h : p.OperandsAgree ta tb ia ib)
    (ha : ta.head? = some ia) (hb : tb.head? = some ib) : conversion? ta tb = none := by
  simp only [conversion?, ha, hb]
  split
  · cases h with
    | none hx hy | bool hx hy | int hx hy | text hx hy | jump hx hy | script hx hy
    | «variable» hx hy | unnamed _ _ hx hy | float _ hx hy | carried _ _ hx hy => rw [hx, hy]
  · rfl

end ScriptPair

/-! ### One pair of instructions -/

theorem Instruction.sameEncoding_iff {i j : Instruction} : i.sameEncoding j = true ↔
    i.opcode = j.opcode ∧ i.mode = j.mode ∧ i.type = j.type ∧ i.operand = j.operand := by
  simp only [sameEncoding, Bool.and_eq_true, beq_iff_eq, and_assoc]

namespace ScriptPair

variable {p : ScriptPair} {mode : CompareMode} {ta tb : List Instruction} {ia ib : Instruction}

/-- Strict mode compares all that is stored of an instruction but its line. -/
theorem step_strict_iff : p.step .strict ta tb ia ib = .ok {} ↔ ia.sameEncoding ib = true := by
  rw [Instruction.sameEncoding_iff]
  unfold step
  simp only [reduceCtorEq, if_false, if_true]
  split
  · rename_i hdiffer
    simp only [pure_eq_ok, Step.mk.injEq, reduceCtorEq, false_and, false_iff]
    tauto
  · rename_i hsame
    simp only [not_or, not_not] at hsame
    simp only [hsame, true_and, pure_eq_ok]
    split <;> simp_all

theorem conversion?_of_step (h : p.step mode ta tb ia ib = .ok {}) (hmode : mode = .loose) :
    conversion? ta tb = none := by
  have hconversion := conversion_eq_of_step h
  rw [if_pos hmode] at hconversion
  exact hconversion.symm

/-- By meaning the fields are compared and the operands have to agree. -/
theorem step_meaning_iff (hmode : mode ≠ .strict) (ha : ta.head? = some ia)
    (hb : tb.head? = some ib) : p.step mode ta tb ia ib = .ok {} ↔ ia.opcode = ib.opcode ∧
      ia.mode = ib.mode ∧ ia.type = ib.type ∧ p.OperandsAgree ta tb ia ib := by
  constructor
  · intro h
    obtain ⟨hop, hm, ht, hoperands⟩ := (step_eq_ok_iff hmode (conversion?_of_step h)).mp h
    exact ⟨hop, hm, ht, operandsAgree_of_match hoperands⟩
  · rintro ⟨hop, hm, ht, hagree⟩
    exact (step_eq_ok_iff hmode fun _ => conversion?_of_agree hagree ha hb).mpr
      ⟨hop, hm, ht, matchOperands_of_agree hagree⟩

end ScriptPair

end ScriptImage
