import ScriptImage.Proofs.Compare.Operands
import ScriptImage.Proofs.Link.Copies

/-!
System calls behind an equal verdict. A call carries its number the way a push carries an integer,
and strict mode tells any two numbers apart. In normal mode integers also match as the offsets of
one text, whatever instruction carries them, so there two calls can differ when their numbers start
the same text.
-/

namespace ScriptImage

/-- When strict or normal mode finds two images equal, each script has a partner whose run is as
long, and a system call stands at the same positions of both. The numbers are the same or, in normal
mode only, the offsets of one text. -/
theorem compare_system_calls {o : CompareOptions} {a b : Image} {c : Comparison}
    (hmode : o.mode ≠ .loose) (hall : o.scripts = none) (hc : compareImages o a b = .ok c)
    (hequal : c.equal = true) {s : Script} (hs : s ∈ a.scripts) :
    ∃ t run run', b.scriptByName? s.name = some t ∧ a.scriptCode? s = some run ∧
      b.scriptCode? t = some run' ∧ run.length = run'.length ∧
      ∀ (k : Nat) (ins : Instruction) (x : Int32), run[k]? = some ins → ins.opcode = .sys →
        ins.operand = .int x → ∃ ins' y, run'[k]? = some ins' ∧ ins'.opcode = .sys ∧
          ins'.operand = .int y ∧ (x = y ∨ o.mode = .normal ∧ a.SameText b x y) := by
  have haccepts := CompareOptions.accepts_of_equal hc hequal
  obtain ⟨t, run, run', ht, -, hmatches⟩ :=
    haccepts.exists_matches hmode hs (CompareOptions.includes_of_none hall s.name)
  refine ⟨t, run, run', ht, hmatches.closedA, hmatches.closedB, hmatches.length, ?_⟩
  intro k ins x hins hsys hx
  obtain ⟨ins', hins', hhead, hhead', hstep⟩ := hmatches.exists_step hins (by simp [hsys])
  cases hm : o.mode with
  | strict =>
      rw [hm, ScriptPair.step_strict_iff, Instruction.sameEncoding_iff] at hstep
      obtain ⟨hop, -, -, hoperand⟩ := hstep
      exact ⟨ins', x, hins', hop ▸ hsys, hoperand ▸ hx, Or.inl rfl⟩
  | normal =>
      rw [hm, ScriptPair.step_meaning_iff (by decide) hhead hhead'] at hstep
      obtain ⟨hop, -, -, hagree⟩ := hstep
      obtain ⟨y, hy, hsame⟩ := hagree.int_of_int hx
      exact ⟨ins', y, hins', hop ▸ hsys, hy, hsame.imp_right fun h => ⟨rfl, h⟩⟩
  | loose => exact absurd hm hmode

namespace Sample

/-- Pushes the text `hi`, which starts its data, and makes system call 0. -/
def usher : ObjectModule where
  name := "usher"
  image := {
    scripts := [{ main with boundary := 0, locals := [] }]
    code := [.pushInt 0, .sys 0, .endRun]
    data := .ofBytes [104, 105, 0] }
  textPushes := [0]

/-- Pushes the text `hi`, which follows `x` in its data, and makes system call 2. -/
def crier : ObjectModule where
  name := "crier"
  image := {
    scripts := [{ main with boundary := 0, locals := [] }]
    code := [.pushInt 2, .sys 2, .endRun]
    data := .ofBytes [120, 0, 104, 105, 0] }
  textPushes := [0]

theorem usher_equals_crier : ∃ c, compareImages {} usher.image crier.image = .ok c ∧
    c.equal = true := exists_ok (by decide +kernel)

/-- The numbers 0 and 2 are taken for the offsets at which `hi` starts. -/
theorem system_calls : ∃ c, compareImages {} usher.image crier.image = .ok c ∧ c.equal = true ∧
    usher.image.SameText crier.image 0 2 := by
  obtain ⟨c, hc, hequal⟩ := usher_equals_crier
  obtain ⟨t, run, run', ht, hrun, hrun', -, hcalls⟩ := compare_system_calls (by decide) rfl hc
    hequal (List.mem_singleton_self _)
  cases ht
  cases hrun
  cases hrun'
  obtain ⟨ins', y, hins', -, hy, hsame⟩ := hcalls 1 (.sys 0) 0 rfl rfl rfl
  cases hins'
  cases hy
  rcases hsame with hsame | ⟨-, hsame⟩
  · cases hsame
  · exact ⟨c, hc, hequal, hsame⟩

/-- Linked images that make the system calls 0 and 2 compare equal. -/
theorem system_calls_confused : ∃ la lb c, link {} [usher] = .ok la ∧ link {} [crier] = .ok lb ∧
    compareImages {} la.image lb.image = .ok c ∧ c.equal = true ∧
      ∃ s t run run', s ∈ la.image.scripts ∧ lb.image.scriptByName? s.name = some t ∧
        la.image.scriptCode? s = some run ∧ lb.image.scriptCode? t = some run' ∧
          run[1]? = some (.sys 0) ∧ run'[1]? = some (.sys 2) := by
  obtain ⟨la, ha, hla⟩ : ∃ la, link {} [usher] = .ok la ∧ la.image = usher.image :=
    exists_ok (by decide +kernel)
  obtain ⟨lb, hb, hlb⟩ : ∃ lb, link {} [crier] = .ok lb ∧ lb.image = crier.image :=
    exists_ok (by decide +kernel)
  obtain ⟨c, hc, hequal⟩ := usher_equals_crier
  refine ⟨la, lb, c, ha, hb, by rw [hla, hlb]; exact hc, hequal, ?_⟩
  rw [hla, hlb]
  exact ⟨_, _, usher.image.code, crier.image.code, List.mem_cons_self, rfl, rfl, rfl, rfl, rfl⟩

end Sample

end ScriptImage
