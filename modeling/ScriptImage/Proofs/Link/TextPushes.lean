import ScriptImage.Proofs.Link.Sharing

/-!
Which pushes of an image give the offset of a text. A link lists their addresses in the order of
the code, and the list holds the addresses to which marked pushes of the modules were moved, and no
others.
-/

namespace ScriptImage

/-- The instruction at position `k` of script `j` of module `i` is marked as the offset of a
text. -/
structure MarkedPush (modules : List ObjectModule) (i : Nat) (m : ObjectModule) (j : Nat)
    (s : Script) (run : List Instruction) (k : Nat) (ins : Instruction) : Prop where
  module : modules[i]? = some m
  script : m.image.scripts[j]? = some s
  closed : m.image.scriptCode? s = some run
  instruction : run[k]? = some ins
  marked : m.PushesText s k ins

/-- An address of the image of a link to which a marked push was moved. -/
def IsTextPush (modules : List ObjectModule) (image : Image) (a : UInt32) : Prop :=
  ∃ i m j s run k ins s', MarkedPush modules i m j s run k ins ∧
    image.scripts[copyIndex modules i j]? = some s' ∧ a.toNat = s'.address.toNat + k

theorem Relocation.Moves.textPush?_eq_some {r : Relocation} {m : ObjectModule} {s : Script}
    {newStart : UInt32} {run : List Instruction} {k : Nat} {i : Instruction} {mv : Moved}
    (h : r.Moves m.textPushes s newStart run k i mv) {a : UInt32} :
    mv.textPush? m.textPushes = some a ↔
      m.PushesText s (Word.saturate k).toNat i ∧ a = mv.newAddress := by
  have hmarked := h.marked_iff
  unfold Moved.textPush? ObjectModule.PushesText
  rw [h.before]
  cases hi : i.operand with
  | int v =>
      simp only [Operand.int.injEq, exists_eq', true_and, ← hmarked]
      split
      · rename_i htext
        rw [Option.some.injEq, eq_comm]
        exact (and_iff_right htext).symm
      · rename_i htext
        exact iff_of_false (by simp) fun hmoved => htext hmoved.1
  | _ => simp

theorem Relocation.Moves.textPush?_eq_some_iff {r : Relocation} {m : ObjectModule} {s : Script}
    {newStart : UInt32} {run : List Instruction} {k : Nat} {i : Instruction} {mv : Moved}
    (h : r.Moves m.textPushes s newStart run k i mv) (hk : k < 0x100000000) {a : UInt32} :
    mv.textPush? m.textPushes = some a ↔
      m.PushesText s k i ∧ a.toNat = newStart.toNat + k := by
  have hnew := h.newAddress
  rw [Word.toNat_saturate hk] at hnew
  rw [h.textPush?_eq_some, Word.toNat_saturate hk, ← UInt32.toNat_inj, hnew]

namespace Draft

/-- Addresses of text pushes ascend and lie in the code. -/
structure Lists (d : Draft) : Prop where
  ascending : d.textPushes.Pairwise (· < ·)
  inside : ∀ a ∈ d.textPushes, a.toNat < d.code.length

theorem lists_empty : Lists {} := ⟨.nil, by simp⟩

variable {share : Bool} {total : UInt32} {d d' e : Draft} {m : ObjectModule} {p : Prepared}
  {cs : List CopiedScript} {modules : List ObjectModule}

/-- A copy lies in the code with which its module ends. -/
theorem Merges.inside (h : Merges share total d m d' p cs) {j : Nat} {c : CopiedScript}
    (hc : cs[j]? = some c) :
    d.code.length + pieceStart CopiedScript.code cs j + c.moved.length ≤ d'.code.length := by
  have hpiece := pieceStart_add_length_le (f := CopiedScript.code) hc
  rw [CopiedScript.code_length] at hpiece
  rw [h.code, List.length_append]
  omega

theorem pieceStart_moved (cs : List CopiedScript) (j : Nat) :
    pieceStart CopiedScript.moved cs j = pieceStart CopiedScript.code cs j :=
  pieceStart_congr (List.map_congr_left fun c _ => (CopiedScript.code_length c).symm) j

/-- The instruction that a moved one comes from, and its new address. -/
theorem Merges.moved_source (h : Merges share total d m d' p cs) {n : Nat} {mv : Moved}
    (hn : (cs.flatMap CopiedScript.moved)[n]? = some mv) :
    ∃ j s c run k ins, m.image.scripts[j]? = some s ∧ cs[j]? = some c ∧
      Copied p.relocation m s (d.code.length + pieceStart CopiedScript.code cs j) run c ∧
      run[k]? = some ins ∧ n = pieceStart CopiedScript.code cs j + k ∧
      p.relocation.Moves m.textPushes s
        (Word.saturate (d.code.length + pieceStart CopiedScript.code cs j)) run k ins mv := by
  obtain ⟨j, c, k, hc, hk, rfl⟩ := exists_piece hn
  obtain ⟨s, hs⟩ := h.source hc
  obtain ⟨c', run, hc', -, hcopied⟩ := h.copy hs
  cases hc.symm.trans hc'
  obtain ⟨ins, hins, hmoves⟩ := Relocation.moveRun_source hcopied.moved hk
  exact ⟨j, s, c, run, k, ins, hs, hc, hcopied, hins, by rw [pieceStart_moved], hmoves⟩

/-- Moved instructions follow one another behind the code before, up to the last word. -/
theorem Merges.newAddress_eq (h : Merges share total d m d' p cs) {n : Nat} {mv : Moved}
    (hn : (cs.flatMap CopiedScript.moved)[n]? = some mv) :
    mv.newAddress = Word.saturate (d.code.length + n) := by
  obtain ⟨j, s, c, run, k, ins, -, -, -, -, rfl, hmoves⟩ := h.moved_source hn
  have hnew := hmoves.newAddress
  have hlt := mv.newAddress.toNat_lt
  rw [← Nat.add_assoc]
  apply UInt32.toNat_inj.mp
  rw [Word.toNat_saturate_eq, Word.toNat_saturate_eq] at hnew
  rw [Word.toNat_saturate_eq]
  omega

theorem Merges.newAddress (h : Merges share total d m d' p cs)
    (hsmall : d'.code.length < 0x100000000) {n : Nat} {mv : Moved}
    (hn : (cs.flatMap CopiedScript.moved)[n]? = some mv) :
    mv.newAddress.toNat = d.code.length + n := by
  have hlt := (List.getElem?_eq_some_iff.mp hn).1
  rw [List.length_flatMap, ← List.map_congr_left fun c _ => CopiedScript.code_length c,
    ← List.length_flatMap] at hlt
  have hend := congrArg List.length h.code
  rw [List.length_append] at hend
  rw [h.newAddress_eq hn, Word.toNat_saturate (by omega)]

theorem Merges.lists (h : Merges share total d m d' p cs)
    (hsmall : d'.code.length < 0x100000000) (hd : d.Lists) : d'.Lists := by
  have hlength : (cs.flatMap CopiedScript.moved).length =
      (cs.flatMap CopiedScript.code).length := by
    simp only [List.length_flatMap, CopiedScript.code_length]
  have hend := congrArg List.length h.code
  rw [List.length_append, ← hlength] at hend
  have hnew : ∀ mv ∈ cs.flatMap CopiedScript.moved, d.code.length ≤ mv.newAddress.toNat ∧
      mv.newAddress.toNat < d'.code.length := by
    intro mv hmv
    obtain ⟨n, hn⟩ := List.mem_iff_getElem?.mp hmv
    have hlt := (List.getElem?_eq_some_iff.mp hn).1
    have haddress := h.newAddress hsmall hn
    omega
  have hpush : ∀ mv a, Moved.textPush? m.textPushes mv = some a → mv.newAddress = a := by
    intro mv a ha
    unfold Moved.textPush? at ha
    split at ha
    · split at ha
      · exact Option.some.inj ha
      · cases ha
    · cases ha
  refine ⟨?_, ?_⟩
  · rw [h.textPushes, List.pairwise_append]
    refine ⟨hd.ascending, ?_, ?_⟩
    · rw [List.pairwise_filterMap, List.pairwise_iff_getElem]
      intro n n' hn hn' hlt a ha a' ha'
      have haddress := h.newAddress hsmall (List.getElem?_eq_getElem hn)
      have haddress' := h.newAddress hsmall (List.getElem?_eq_getElem hn')
      rw [← hpush _ _ ha, ← hpush _ _ ha', UInt32.lt_iff_toNat_lt]
      omega
    · intro a ha a' ha'
      obtain ⟨mv, hmv, hmoved⟩ := List.mem_filterMap.mp ha'
      have hbefore := hd.inside a ha
      have hbehind := hnew mv hmv
      rw [← hpush _ _ hmoved, UInt32.lt_iff_toNat_lt]
      omega
  · intro a ha
    rw [h.textPushes] at ha
    rcases List.mem_append.mp ha with ha | ha
    · have hbefore := hd.inside a ha
      omega
    · obtain ⟨mv, hmv, hmoved⟩ := List.mem_filterMap.mp ha
      rw [← hpush _ _ hmoved]
      exact (hnew mv hmv).2

theorem lists_of_mergeAll (hd : d.Lists) (hsound : d.Sound)
    (h : mergeAll share total d modules = .ok e) (hsmall : e.code.length < 0x100000000) :
    e.Lists := by
  induction modules generalizing d with
  | nil =>
      exact mergeAll_nil_eq_ok.mp h ▸ hd
  | cons m ms ih =>
      obtain ⟨d', hmerge, h⟩ := mergeAll_cons_eq_ok.mp h
      obtain ⟨p, cs, hm⟩ := merges_of_merge hmerge
      have hsound' := hm.sound hsound
      have hgrows := (merged_of_mergeAll hsound' h).grows.code.length_le
      exact ih (hm.lists (by omega) hd) hsound' h

/-- What a module lists are the new addresses of its marked pushes. -/
theorem Merges.mem_textPushes_iff (h : Merges share total d m d' p cs)
    (hsmall : d'.code.length < 0x100000000) {a : UInt32} :
    a ∈ d'.textPushes ↔ a ∈ d.textPushes ∨ ∃ j s run c k ins, m.image.scripts[j]? = some s ∧
      cs[j]? = some c ∧
      Copied p.relocation m s (d.code.length + pieceStart CopiedScript.code cs j) run c ∧
      run[k]? = some ins ∧ m.PushesText s k ins ∧ a.toNat = c.script.address.toNat + k := by
  rw [h.textPushes, List.mem_append]
  refine or_congr_right ?_
  rw [List.mem_filterMap]
  constructor
  · rintro ⟨mv, hmv, ha⟩
    obtain ⟨n, hn⟩ := List.mem_iff_getElem?.mp hmv
    obtain ⟨j, s, c, run, k, ins, hs, hj, hcopied, hins, rfl, hmoves⟩ := h.moved_source hn
    have hlt := (List.getElem?_eq_some_iff.mp hins).1
    rw [← Relocation.moveRun_length hcopied.moved] at hlt
    have hinside := h.inside hj
    obtain ⟨hmarked, ha⟩ := (hmoves.textPush?_eq_some_iff (by omega)).mp ha
    rw [← hcopied.address] at ha
    exact ⟨j, s, run, c, k, ins, hs, hj, hcopied, hins, hmarked, ha⟩
  · rintro ⟨j, s, run, c, k, ins, -, hj, hcopied, hins, hmarked, ha⟩
    obtain ⟨mv, hmv, hmoves⟩ := Relocation.moveRun_getElem? hcopied.moved hins
    have hlt := (List.getElem?_eq_some_iff.mp hmv).1
    have hinside := h.inside hj
    rw [hcopied.address] at ha
    exact ⟨mv, List.mem_flatMap.mpr ⟨c, List.mem_of_getElem? hj, List.mem_of_getElem? hmv⟩,
      (hmoves.textPush?_eq_some_iff (by omega)).mpr ⟨hmarked, ha⟩⟩

/-- What holds of the last draft and not of the first came to hold with one of the modules. -/
theorem exists_change {P : Draft → Prop} (h : mergeAll share total d modules = .ok e)
    (hd : ¬ P d) (he : P e) : ∃ i m b b', modules[i]? = some m ∧
      mergeAll share total d (modules.take i) = .ok b ∧ b.merge share total m = .ok b' ∧
        mergeAll share total b' (modules.drop (i + 1)) = .ok e ∧ ¬ P b ∧ P b' := by
  induction modules generalizing d with
  | nil =>
      exact absurd (mergeAll_nil_eq_ok.mp h ▸ he) hd
  | cons m ms ih =>
      obtain ⟨d', hmerge, h⟩ := mergeAll_cons_eq_ok.mp h
      by_cases hd' : P d'
      · exact ⟨0, m, d, d', rfl, rfl, hmerge, h, hd, hd'⟩
      · obtain ⟨i, m', b, b', hm', hb, hmerge', hrest, hchange⟩ := ih h hd'
        exact ⟨i + 1, m', b, b', hm', mergeAll_cons_eq_ok.mpr ⟨d', hmerge, hb⟩, hmerge', hrest,
          hchange⟩

/-- The list of a link holds the addresses to which marked pushes were moved. -/
theorem mem_textPushes_iff (h : mergeAll share total {} modules = .ok e)
    (hsmall : e.code.length < 0x100000000) (debug : Bool) {a : UInt32} :
    a ∈ e.textPushes ↔ IsTextPush modules (e.toImage debug) a := by
  constructor
  · intro ha
    obtain ⟨i, m, b, b', hm, hb, hmerge, hrest, hbefore, hafter⟩ :=
      exists_change (P := fun d => a ∈ d.textPushes) h List.not_mem_nil ha
    obtain ⟨p, cs, hstep⟩ := step_of_split hm hb hmerge hrest
    have hle := hstep.after.grows.code.length_le
    rcases (hstep.merges.mem_textPushes_iff (by omega)).mp hafter with hold | hnew
    · exact absurd hold hbefore
    · obtain ⟨j, s, run, c, k, ins, hs, hc, hcopied, hins, hmarked, haddress⟩ := hnew
      obtain ⟨c', run', hc', -, hstands⟩ := hstep.copy debug hs
      rw [hc, Option.some.injEq] at hc'
      subst hc'
      exact ⟨i, m, j, s, run, k, ins, c.script, ⟨hm, hs, hcopied.closed, hins, hmarked⟩,
        hstands.scriptAt, haddress⟩
  · rintro ⟨i, m, j, s, run, k, ins, s', hmarked, hs', haddress⟩
    obtain ⟨b, b', p, cs, hstep⟩ := exists_step h hmarked.module
    have hle := hstep.after.grows.code.length_le
    obtain ⟨c, run', hc, hcopied, hstands⟩ := hstep.copy debug hmarked.script
    have hclosed := hcopied.closed
    rw [hmarked.closed, Option.some.injEq] at hclosed
    subst hclosed
    rw [hstands.scriptAt, Option.some.injEq] at hs'
    subst hs'
    rw [← hstep.start_eq (List.getElem?_eq_some_iff.mp hc).1.le] at hcopied
    exact hstep.after.grows.textPushes.subset ((hstep.merges.mem_textPushes_iff (by omega)).mpr
      (Or.inr ⟨j, s, run, c, k, ins, hmarked.script, hc, hcopied, hmarked.instruction,
        hmarked.marked, haddress⟩))

end Draft

end ScriptImage
