import ScriptImage.Proofs.Compare.Verdict
import ScriptImage.Proofs.Link.TextPushes

/-!
Texts behind an equal verdict. In normal mode two pushed offsets match when they are the same number
or start the same text, so images that compare equal push the same texts except where one offset
starts different texts on the two sides.
-/

namespace ScriptImage

/-- When normal mode finds two images equal, each script has a partner whose run is as long, and two
integers that the runs push at one position are the offsets of the same text, exactly if they are so
when they are one and the same number. -/
theorem compare_pushed_texts {o : CompareOptions} {a b : Image} {c : Comparison}
    (hmode : o.mode = .normal) (hall : o.scripts = none) (hc : compareImages o a b = .ok c)
    (hequal : c.equal = true) {s : Script} (hs : s ∈ a.scripts) :
    ∃ t run run', b.scriptByName? s.name = some t ∧ a.scriptCode? s = some run ∧
      b.scriptCode? t = some run' ∧ run.length = run'.length ∧
      ∀ (k : Nat) (ins ins' : Instruction) (x y : Int32), run[k]? = some ins →
        run'[k]? = some ins' → ins.opcode = .push → ins'.opcode = .push → ins.operand = .int x →
          ins'.operand = .int y → (a.SameText b x y ↔ (x = y → a.SameText b x x)) := by
  have haccepts := CompareOptions.accepts_of_equal hc hequal
  have hincluded : o.includes s.name = true := by rw [CompareOptions.includes, hall]
  obtain ⟨-, hnothing⟩ := haccepts.scripts s hs hincluded
  obtain ⟨t, ht, hcompare⟩ := CompareOptions.findsNothing_scriptEntries_iff.mp hnothing
  obtain ⟨-, hagrees⟩ := ScriptPair.findsNothing_compare_iff.mp hcompare
  rw [hmode] at hagrees
  obtain ⟨run, run', hmatches⟩ := hagrees.exists_matches (by decide)
  refine ⟨t, run, run', ht, hmatches.closedA, hmatches.closedB, hmatches.length, ?_⟩
  intro k ins ins' x y hins hins' hpush hpush' hx hy
  have hstep := hmatches.step k ins ins' hins hins' (by simp [hpush]) (by simp [hpush'])
  rw [ScriptPair.step_eq_ok_iff (by decide) (by simp)] at hstep
  obtain ⟨-, -, -, hoperands⟩ := hstep
  rcases (ScriptPair.matchOperands_int hx hy).mp hoperands with rfl | hsame
  · exact ⟨fun h _ => h, fun h => h rfl⟩
  · exact iff_of_true hsame fun heq => by rwa [← heq] at hsame

namespace Sample

/-- Pushes its only text, which is `hi`. -/
def greeter : ObjectModule where
  name := "greeter"
  image := {
    scripts := [{ main with boundary := 0, locals := [] }]
    code := [.pushInt 0, .sys 1, .endRun]
    data := .ofBytes [104, 105, 0] }
  textPushes := [0]

/-- The text `ho` is found the same at both of its offsets. -/
theorem pushed_texts : ∃ c, compareImages {} speaker.image echo.image = .ok c ∧ c.equal = true ∧
    speaker.image.SameText echo.image 3 0 := by
  obtain ⟨c, hc, hequal⟩ : ∃ c, compareImages {} speaker.image echo.image = .ok c ∧
      c.equal = true := exists_ok (by decide +kernel)
  obtain ⟨t, run, run', ht, hrun, hrun', -, htexts⟩ :=
    compare_pushed_texts rfl rfl hc hequal (List.mem_singleton_self _)
  cases ht
  cases hrun
  cases hrun'
  exact ⟨c, hc, hequal, (htexts 0 _ _ 3 0 rfl rfl rfl rfl rfl rfl).mpr (absurd · (by decide))⟩

/-- Linked images that push `hi` and `ho` at one offset compare equal. -/
theorem texts_confused : ∃ la lb c, link {} [greeter] = .ok la ∧ link {} [echo] = .ok lb ∧
    compareImages {} la.image lb.image = .ok c ∧ c.equal = true ∧
      IsTextPush [greeter] la.image 0 ∧ IsTextPush [echo] lb.image 0 ∧
      ∃ s t run run', s ∈ la.image.scripts ∧ lb.image.scriptByName? s.name = some t ∧
        la.image.scriptCode? s = some run ∧ lb.image.scriptCode? t = some run' ∧
        s.address = 0 ∧ t.address = 0 ∧ run[0]? = some (.pushInt 0) ∧
        run'[0]? = some (.pushInt 0) ∧
        la.image.data.textAt? 0 = .ok (some "hi") ∧ lb.image.data.textAt? 0 = .ok (some "ho") := by
  obtain ⟨la, ha, hla⟩ : ∃ la, link {} [greeter] = .ok la ∧ la.image = greeter.image :=
    exists_ok (by decide +kernel)
  obtain ⟨lb, hb, hlb⟩ : ∃ lb, link {} [echo] = .ok lb ∧ lb.image = echo.image :=
    exists_ok (by decide +kernel)
  obtain ⟨c, hc, hequal⟩ : ∃ c, compareImages {} greeter.image echo.image = .ok c ∧
      c.equal = true := exists_ok (by decide +kernel)
  refine ⟨la, lb, c, ha, hb, by rw [hla, hlb]; exact hc, hequal, ?_, ?_, ?_⟩
  · exact ⟨0, greeter, 0, _, greeter.image.code, 0, .pushInt 0, _,
      ⟨rfl, rfl, rfl, rfl, rfl, ⟨0, rfl⟩, 0, List.mem_cons_self, rfl⟩, by rw [hla]; rfl, rfl⟩
  · exact ⟨0, echo, 0, _, echo.image.code, 0, .pushInt 0, _,
      ⟨rfl, rfl, rfl, rfl, rfl, ⟨0, rfl⟩, 0, List.mem_cons_self, rfl⟩, by rw [hlb]; rfl, rfl⟩
  · rw [hla, hlb]
    exact ⟨_, _, greeter.image.code, echo.image.code, List.mem_cons_self, rfl, rfl, rfl, rfl, rfl,
      rfl, rfl, toOption_eq_some.mp (by decide +kernel), toOption_eq_some.mp (by decide +kernel)⟩

end Sample

end ScriptImage
