import ScriptImage.Proofs.Checked
import ScriptImage.Proofs.Link.Acceptance

/-!
Copying in place. A run can also be copied instruction by instruction to the end of the code: when
a reference arrives, the float two before it is overwritten where it already stands in the image.
This gives the same code as moving the whole run first, refuses the same runs, and never reaches
outside the code.
-/

namespace ScriptImage

namespace Relocation

/-- Overwrites the float two before a reference, which stands behind the copied code, by the new id
of the variable it names. -/
def patch (r : Relocation) (s : Script) (newStart : UInt32) (out : List Instruction)
    (oldAddress newAddress : UInt32) : Except Stop (List Instruction) :=
  if newAddress.toNat < newStart.toNat + 2 then Stop.refuse (.malformedReference oldAddress)
  else do
    let position := newAddress.toNat - 2
    let paired ← Checked.get out position
    match paired.floatVariable? with
    | none => Stop.refuse (.malformedReference oldAddress)
    | some v =>
      let earlier ← Word.sub oldAddress 2
      let id ← r.varRef v s.scope earlier
      return out.set position { paired with operand := .float (.ofInt id.toNat) }

/-- Copies the instruction at position `k` of a run to the end of the code. -/
def append (r : Relocation) (textPushes : List UInt32) (s : Script) (newStart : UInt32)
    (out : List Instruction) (k : Nat) (i : Instruction) : Except Stop (List Instruction) := do
  let oldAddress ← Word.add s.address (Word.saturate k)
  let newAddress ← Word.add newStart (Word.saturate k)
  let isText := i.opcode == .push && textPushes.contains oldAddress
  let operand ← r.operand i isText s.scope s.address newStart oldAddress
  let out ← if i.isReference then r.patch s newStart out oldAddress newAddress else pure out
  return out ++ [{ i with operand }]

def appendRun (r : Relocation) (textPushes : List UInt32) (s : Script) (newStart : UInt32)
    (out run : List Instruction) : Except Stop (List Instruction) :=
  run.zipIdx.foldlM (fun out (i, k) => r.append textPushes s newStart out k i) out

end Relocation

/-! ### Settled runs that grow -/

namespace Moved

/-- An instruction that asks for nothing leaves those before it as they are. -/
theorem settle_append_of_none (ms : List Moved) {m : Moved} (hm : m.pairedId = none) :
    settle (ms ++ [m]) = settle ms ++ [m.after] := by
  induction ms with
  | nil => rfl
  | cons x r ih =>
      have hnext : (r ++ [m])[1]?.bind pairedId = r[1]?.bind pairedId := by
        match r with
        | [] => rfl
        | [y] => exact hm
        | y :: z :: rest => rfl
      rw [List.cons_append, settle, settle, hnext, ih, List.cons_append]

/-- A reference changes the instruction two before it. -/
theorem settle_append_of_some {ms : List Moved} {m q : Moved} {k : Nat} {id : UInt32}
    (hm : m.pairedId = some id) (hk : k + 2 = ms.length) (hq : ms[k]? = some q) :
    settle (ms ++ [m]) = (settle ms).set k (q.settled (some id)) ++ [m.after] := by
  induction ms generalizing k with
  | nil => cases hq
  | cons x r ih =>
      rw [List.length_cons] at hk
      cases k with
      | zero =>
          obtain ⟨y, rfl⟩ := List.length_eq_one_iff.mp (show r.length = 1 by omega)
          cases hq
          rw [← hm]
          rfl
      | succ k =>
          have hnext : (r ++ [m])[1]? = r[1]? := List.getElem?_append_left (by omega)
          rw [List.cons_append, settle, settle, hnext, ih (by omega) hq, List.set_cons_succ,
            List.cons_append]

/-- No other reference has changed it. -/
theorem settle_getElem?_of_last {ms : List Moved} {q : Moved} {k : Nat} (hk : k + 2 = ms.length)
    (hq : ms[k]? = some q) : (settle ms)[k]? = some q.after := by
  rw [settle_getElem?, hq, hk, List.getElem?_eq_none (le_refl ms.length)]
  rfl

end Moved

namespace Relocation

variable {r : Relocation} {textPushes : List UInt32} {s : Script} {newStart : UInt32}
  {run : List Instruction} {ms : List Moved} {k : Nat} {i : Instruction} {m : Moved}

theorem Moves.floatVariable? (h : r.Moves textPushes s newStart run k i m) :
    m.after.floatVariable? = i.floatVariable? := by
  have hoperand := h.operand
  rw [h.after]
  generalize m.after.operand = o at hoperand
  unfold Instruction.floatVariable?
  generalize i.operand = o' at hoperand
  cases hoperand with
  | float => rfl
  | _ => cases i.opcode <;> rfl

/-- Moving does not look at what follows an instruction. -/
theorem move_append {rest : List Instruction} (hk : k ≤ run.length) :
    r.move textPushes s newStart (run ++ rest) k i = r.move textPushes s newStart run k i := by
  have hpaired : (if 2 ≤ k then (run ++ rest)[k - 2]? else none) =
      if 2 ≤ k then run[k - 2]? else none := by
    split
    · exact List.getElem?_append_left (by omega)
    · rfl
  unfold move
  rw [hpaired]

theorem moveRun_append_singleton : r.moveRun textPushes s newStart (run ++ [i]) = do
    let ms ← r.moveRun textPushes s newStart run
    let m ← r.move textPushes s newStart run run.length i
    return ms ++ [m] := by
  have hrun : (run.zipIdx.mapM fun (j, k) => r.move textPushes s newStart (run ++ [i]) k j) =
      r.moveRun textPushes s newStart run := by
    refine mapM_congr ?_
    rintro ⟨j, k⟩ hjk
    have hk := (List.getElem?_eq_some_iff.mp (List.mem_zipIdx_iff_getElem?.mp hjk)).1
    exact move_append hk.le
  rw [moveRun, List.zipIdx_append, List.mapM_append, hrun]
  simp [move_append (le_refl run.length)]

/-- A reference finds the float it overwrites in the code, where it was moved to. -/
theorem patch_eq {out : List Instruction} {oldAddress newAddress : UInt32}
    (hmoved : r.moveRun textPushes s newStart run = .ok ms)
    (hstart : newStart.toNat = out.length) (hnew : newAddress.toNat = out.length + run.length)
    {after : Instruction} (moved : UInt32 → Moved) (hafter : ∀ id, (moved id).after = after)
    (hpaired : ∀ id, (moved id).pairedId = some id) :
    (r.patch s newStart (out ++ Moved.settle ms) oldAddress newAddress >>= fun code =>
      pure (code ++ [after])) = (fun id => out ++ Moved.settle (ms ++ [moved id])) <$>
        r.pairedVariable (if 2 ≤ run.length then run[run.length - 2]? else none) s.scope
          oldAddress := by
  have hlength := moveRun_length hmoved
  unfold patch pairedVariable
  by_cases hk : 2 ≤ run.length
  · obtain ⟨k, hk⟩ : ∃ k, k + 2 = run.length := ⟨run.length - 2, by omega⟩
    have hp := List.getElem?_eq_getElem (show k < run.length by omega)
    obtain ⟨q, hq, hmoves⟩ := moveRun_getElem? hmoved hp
    have hget : (liftM (Checked.get (out ++ Moved.settle ms) (newAddress.toNat - 2)) :
        Except Stop Instruction) = .ok q.after := by
      refine liftM_eq_ok.mpr (Checked.get_of_getElem? ?_)
      rw [List.getElem?_append_right (by omega),
        show newAddress.toNat - 2 - out.length = k by omega]
      exact Moved.settle_getElem?_of_last (hk.trans hlength.symm) hq
    -- moving keeps whether an instruction is a float, and which variable it names
    rw [if_neg (by omega), if_pos (by omega), show run.length - 2 = k by omega, hp,
      Option.bind_some, ← hmoves.floatVariable?]
    dsimp only
    rw [hget, ok_bind]
    cases q.after.floatVariable? with
    | none => rfl
    | some v =>
        simp only [bind_assoc, map_bind, pure_bind]
        refine bind_congr_ok fun earlier _ => ?_
        rw [map_eq_pure_bind]
        refine bind_congr_ok fun id _ => ?_
        rw [Moved.settle_append_of_some (hpaired id) (hk.trans hlength.symm) hq, hafter,
          List.set_append_right _ _ (by omega),
          show newAddress.toNat - 2 - out.length = k by omega, List.append_assoc]
        rfl
  · rw [if_pos (by omega), if_neg (by omega)]
    rfl

/-- The next instruction of a run is copied in place to where it is moved to. -/
theorem append_eq {out : List Instruction} (hmoved : r.moveRun textPushes s newStart run = .ok ms)
    (hstart : newStart.toNat = out.length) (hk : run.length < 0x100000000) (i : Instruction) :
    r.append textPushes s newStart (out ++ Moved.settle ms) run.length i =
      (fun m => out ++ Moved.settle (ms ++ [m])) <$>
        r.move textPushes s newStart run run.length i := by
  have hsaturate := Word.toNat_saturate hk
  unfold append move
  simp only [map_bind]
  refine bind_congr_ok fun oldAddress _ => bind_congr_ok fun newAddress hnew =>
    bind_congr_ok fun operand _ => ?_
  rw [liftM_eq_ok, Word.add_eq_ok_iff] at hnew
  split
  · simp only [map_bind, map_pure, bind_map_left]
    have hnewNat : newAddress.toNat = out.length + run.length := by omega
    rw [patch_eq hmoved hstart hnewNat
      (fun id => ⟨oldAddress, newAddress, i, { i with operand }, some id⟩)
      (fun _ => rfl) (fun _ => rfl)]
    rfl
  · simp only [pure_bind, map_pure]
    rw [Moved.settle_append_of_none, List.append_assoc]
    rfl

/-- Copying a run in place gives the settled run, and stops where moving the run stops. -/
theorem appendRun_eq {out : List Instruction} (hstart : newStart.toNat = out.length)
    (hrun : run.length ≤ 0x100000000) :
    r.appendRun textPushes s newStart out run =
      (fun ms => out ++ Moved.settle ms) <$> r.moveRun textPushes s newStart run := by
  -- on the end of the run: the code copied so far is a settled run of its own
  induction run using List.reverseRecOn with
  | nil => simp [appendRun, moveRun, Moved.settle]
  | append_singleton run i ih =>
      rw [List.length_append, List.length_singleton] at hrun
      have hlast : r.appendRun textPushes s newStart out (run ++ [i]) =
          r.appendRun textPushes s newStart out run >>= fun code =>
            r.append textPushes s newStart code run.length i := by
        simp [appendRun, List.zipIdx_append]
      rw [hlast, ih (by omega), moveRun_append_singleton, bind_map_left, map_bind]
      refine bind_congr_ok fun ms hms => ?_
      rw [append_eq hms hstart (by omega), map_bind]
      exact map_eq_pure_bind _ _

end Relocation

namespace Draft

/-- Copies scripts one after the other to the end of the code, the first under id `firstId + i`. -/
def appendScripts (r : Relocation) (m : ObjectModule) (firstId : UInt32) :
    Nat → List Instruction → List Script → Except Stop (List Instruction)
  | _, out, [] => .ok out
  | i, out, s :: rest => do
    let _ ← Word.add firstId (Word.saturate i)
    match ← m.image.runAtChecked s.address with
    | none => Stop.refuse (.unterminatedScript s.name)
    | some run =>
      let out ← r.appendRun m.textPushes s (Word.saturate out.length) out run
      appendScripts r m firstId (i + 1) out rest

variable {r : Relocation} {m : ObjectModule} {first : UInt32}

theorem appendScripts_eq {i : Nat} {out : List Instruction} {ss : List Script}
    (hlength : out.length + (ss.flatMap m.runOf).length ≤ 0x100000000) :
    appendScripts r m first i out ss =
      (fun cs => out ++ cs.flatMap CopiedScript.code) <$>
        copyScripts r m first i out.length ss := by
  induction ss generalizing i out with
  | nil => simp [appendScripts, copyScripts]
  | cons s ss ih =>
      rw [List.flatMap_cons, List.length_append, ObjectModule.runOf] at hlength
      rw [appendScripts, copyScripts, map_bind]
      refine bind_congr_ok fun id _ => ?_
      rw [Image.runAtChecked_eq]
      change (match m.image.scriptCode? s with | none => _ | some run => _) = _
      unfold copyScript
      cases hrun : m.image.scriptCode? s with
      | none => rfl
      | some run =>
          have hpos := length_pos_of_closedRun? hrun
          rw [hrun, Option.getD_some] at hlength
          have hstart : (Word.saturate out.length).toNat = out.length :=
            Word.toNat_saturate (by omega)
          simp only [Relocation.appendRun_eq hstart (show run.length ≤ 0x100000000 by omega),
            bind_map_left, map_bind, bind_assoc, pure_bind]
          refine bind_congr_ok fun ms hms => ?_
          have hsettled : (out ++ Moved.settle ms).length = out.length + ms.length := by
            rw [List.length_append, Moved.settle_length]
          have hmoved := Relocation.moveRun_length hms
          rw [ih (by omega), hsettled, map_eq_pure_bind]
          refine bind_congr_ok fun cs _ => ?_
          rw [map_pure, List.flatMap_cons, List.append_assoc]
          rfl

end Draft

end ScriptImage
