import ScriptImage.Image
import ScriptImage.Proofs.Layout
import ScriptImage.Proofs.Words

/-!
Closed runs of instructions. A run ends at its first END, and whether it does is decided by the
operations alone. A code made of closed runs falls apart into them again.
-/

namespace ScriptImage

theorem closedRun?_cons_of_eq {i : Instruction} (hi : i.opcode = .endRun)
    (r : List Instruction) : closedRun? (i :: r) = some [i] := by
  rw [closedRun?, if_pos hi]

theorem closedRun?_cons_of_ne {i : Instruction} {r run : List Instruction}
    (hi : i.opcode ≠ .endRun) :
    closedRun? (i :: r) = some run ↔ ∃ rest, closedRun? r = some rest ∧ run = i :: rest := by
  rw [closedRun?, if_neg hi, Option.map_eq_some_iff]
  exact exists_congr fun rest => and_congr_right fun _ => eq_comm

/-- A closed run is cut off behind the first END. -/
theorem closedRun?_eq_findIdx? (xs : List Instruction) : closedRun? xs =
    (xs.findIdx? fun i => i.opcode = .endRun).map fun last => xs.take (last + 1) := by
  induction xs with
  | nil => rfl
  | cons i xs ih =>
      rw [closedRun?, List.findIdx?_cons]
      by_cases hi : i.opcode = .endRun
      · simp [hi]
      · simp [hi, ih, Option.map_map, Function.comp_def]

theorem closedRun?_append {xs run : List Instruction} (h : closedRun? xs = some run)
    (ys : List Instruction) : closedRun? (xs ++ ys) = some run := by
  induction xs generalizing run with
  | nil => simp [closedRun?] at h
  | cons i xs ih =>
      rw [List.cons_append]
      rw [closedRun?] at h ⊢
      split
      · rename_i hi
        rwa [if_pos hi] at h
      · rename_i hi
        rw [if_neg hi, Option.map_eq_some_iff] at h
        obtain ⟨r, hr, rfl⟩ := h
        rw [ih hr]
        rfl

theorem prefix_of_closedRun? {xs run : List Instruction} (h : closedRun? xs = some run) :
    run <+: xs := by
  induction xs generalizing run with
  | nil => simp [closedRun?] at h
  | cons i xs ih =>
      rw [closedRun?] at h
      split at h
      · cases h
        exact ⟨xs, rfl⟩
      · obtain ⟨r, hr, rfl⟩ := Option.map_eq_some_iff.mp h
        exact List.cons_prefix_cons.mpr ⟨rfl, ih hr⟩

theorem closedRun?_self {xs run : List Instruction} (h : closedRun? xs = some run) :
    closedRun? run = some run := by
  induction xs generalizing run with
  | nil => simp [closedRun?] at h
  | cons i xs ih =>
      rw [closedRun?] at h
      split at h
      · rename_i hi
        cases h
        simp [closedRun?, hi]
      · rename_i hi
        obtain ⟨r, hr, rfl⟩ := Option.map_eq_some_iff.mp h
        rw [closedRun?, if_neg hi, ih hr]
        rfl

/-- A closed run has its END at least. -/
theorem length_pos_of_closedRun? {xs run : List Instruction} (h : closedRun? xs = some run) :
    0 < run.length := by
  rw [List.length_pos_iff]
  rintro rfl
  have hclosed := closedRun?_self h
  simp [closedRun?] at hclosed

/-- Only the last instruction of a closed run is END. -/
theorem lt_of_closedRun? {run : List Instruction} (h : closedRun? run = some run) {k : Nat}
    {i : Instruction} (hk : run[k]? = some i) (hi : i.opcode ≠ .endRun) : k + 1 < run.length := by
  induction run generalizing k with
  | nil => cases hk
  | cons j run ih =>
      by_cases hj : j.opcode = .endRun
      · rw [closedRun?_cons_of_eq hj, Option.some.injEq, List.cons.injEq] at h
        obtain ⟨-, rfl⟩ := h
        exact absurd (List.mem_singleton.mp (List.mem_of_getElem? hk) ▸ hj) hi
      · obtain ⟨rest, hrest, heq⟩ := (closedRun?_cons_of_ne hj).mp h
        cases heq
        cases k with
        | zero =>
            have hpos := length_pos_of_closedRun? hrest
            rw [List.length_cons]
            omega
        | succ k =>
            have hlt := ih hrest hk
            rw [List.length_cons]
            omega

/-- No instruction before the last of a closed run is END. -/
theorem ne_endRun_of_lt {run : List Instruction} (h : closedRun? run = some run) {k : Nat}
    {i : Instruction} (hk : run[k]? = some i) (hlt : k + 1 < run.length) : i.opcode ≠ .endRun := by
  induction run generalizing k with
  | nil => cases hk
  | cons j run ih =>
      by_cases hj : j.opcode = .endRun
      · rw [closedRun?_cons_of_eq hj, Option.some.injEq, List.cons.injEq] at h
        obtain ⟨-, rfl⟩ := h
        exact absurd hlt (by simp)
      · obtain ⟨rest, hrest, heq⟩ := (closedRun?_cons_of_ne hj).mp h
        cases heq
        cases k with
        | zero =>
            cases hk
            exact hj
        | succ k => exact ih hrest hk (Nat.lt_of_succ_lt_succ hlt)

theorem head?_drop_of_closedRun? {xs run : List Instruction} (h : closedRun? xs = some run)
    {k : Nat} {i : Instruction} (hk : run[k]? = some i) : (xs.drop k).head? = some i := by
  obtain ⟨rest, rfl⟩ := prefix_of_closedRun? h
  rw [List.head?_drop, List.getElem?_append_left (List.getElem?_eq_some_iff.mp hk).1, hk]

/-- Whether a run is closed is decided by its operations. -/
theorem closedRun?_of_opcodes {xs ys : List Instruction}
    (hops : xs.map Instruction.opcode = ys.map Instruction.opcode)
    (h : closedRun? xs = some xs) : closedRun? ys = some ys := by
  induction xs generalizing ys with
  | nil => simp [closedRun?] at h
  | cons i xs ih =>
      cases ys with
      | nil => simp at hops
      | cons j ys =>
          simp only [List.map_cons, List.cons.injEq] at hops
          obtain ⟨hop, hops⟩ := hops
          rw [closedRun?] at h ⊢
          rw [← hop]
          split
          · rename_i hi
            rw [if_pos hi, Option.some.injEq, List.cons.injEq] at h
            obtain ⟨-, rfl⟩ := h
            rw [List.map_nil, eq_comm, List.map_eq_nil_iff] at hops
            rw [hops]
          · rename_i hi
            rw [if_neg hi, Option.map_eq_some_iff] at h
            obtain ⟨r, hr, he⟩ := h
            rw [List.cons.injEq] at he
            rw [ih hops (he.2 ▸ hr)]
            rfl

/-- The closed runs of a code in order; instructions after the last END belong to none. -/
def runs : List Instruction → List (List Instruction)
  | [] => []
  | i :: r =>
    if i.opcode = .endRun then [i] :: runs r
    else
      match runs r with
      | [] => []
      | run :: rest => (i :: run) :: rest

theorem runs_cons (i : Instruction) (r : List Instruction) :
    runs (i :: r) =
      if i.opcode = .endRun then [i] :: runs r
      else
        match runs r with
        | [] => []
        | run :: rest => (i :: run) :: rest := rfl

theorem runs_append {run : List Instruction} (h : closedRun? run = some run)
    (rest : List Instruction) : runs (run ++ rest) = run :: runs rest := by
  induction run with
  | nil => simp [closedRun?] at h
  | cons i r ih =>
      rw [List.cons_append, runs_cons]
      rw [closedRun?] at h
      split
      · rename_i hi
        rw [if_pos hi, Option.some.injEq, List.cons.injEq] at h
        obtain ⟨-, rfl⟩ := h
        rfl
      · rename_i hi
        rw [if_neg hi, Option.map_eq_some_iff] at h
        obtain ⟨r', hr, he⟩ := h
        rw [List.cons.injEq] at he
        rw [ih (he.2 ▸ hr)]

theorem closedRun?_of_mem_runs {code run : List Instruction} (h : run ∈ runs code) :
    closedRun? run = some run := by
  induction code generalizing run with
  | nil => simp [runs] at h
  | cons i r ih =>
      rw [runs_cons] at h
      split at h
      · rename_i hi
        rcases List.mem_cons.mp h with rfl | h
        · simp [closedRun?, hi]
        · exact ih h
      · rename_i hi
        split at h
        · simp at h
        · rename_i first rest hruns
          rw [hruns] at ih
          rcases List.mem_cons.mp h with rfl | h
          · rw [closedRun?, if_neg hi, ih List.mem_cons_self]
            rfl
          · exact ih (List.mem_cons_of_mem _ h)

theorem runs_length_le (code : List Instruction) : (runs code).length ≤ code.length := by
  induction code with
  | nil => exact Nat.le_refl 0
  | cons i r ih =>
      rw [runs_cons, List.length_cons]
      split
      · rw [List.length_cons]
        omega
      · split
        · exact Nat.zero_le _
        · rename_i hruns
          rw [hruns] at ih
          rw [List.length_cons] at ih ⊢
          omega

theorem runs_flatten_append {rs : List (List Instruction)}
    (h : ∀ run ∈ rs, closedRun? run = some run) (rest : List Instruction) :
    runs (rs.flatten ++ rest) = rs ++ runs rest := by
  induction rs with
  | nil => rfl
  | cons run rs ih =>
      rw [List.flatten_cons, List.append_assoc, runs_append (h run List.mem_cons_self),
        ih fun r hr => h r (List.mem_cons_of_mem _ hr)]
      rfl

/-- Code behind code that falls apart into closed runs adds its own runs. -/
theorem runs_append_right {code : List Instruction} (h : (runs code).flatten = code)
    (rest : List Instruction) : runs (code ++ rest) = runs code ++ runs rest := by
  have hruns : ∀ run ∈ runs code, closedRun? run = some run := fun _ => closedRun?_of_mem_runs
  have happend := runs_flatten_append hruns rest
  rwa [h] at happend

/-- Closed runs laid out one after the other are the runs of the whole. -/
theorem runs_flatMap {α : Type} {f : α → List Instruction} {xs : List α}
    (h : ∀ x ∈ xs, closedRun? (f x) = some (f x)) : runs (xs.flatMap f) = xs.map f := by
  have hruns : ∀ run ∈ xs.map f, closedRun? run = some run := by
    intro run hrun
    obtain ⟨x, hx, rfl⟩ := List.mem_map.mp hrun
    exact h x hx
  have := runs_flatten_append hruns []
  rwa [List.append_nil, ← List.flatMap_def, show runs [] = [] from rfl, List.append_nil] at this

namespace Image

/-- The script at a position of an image stands for a run of its code: the run at the same
position, which is also where the script's address leads while addresses fit a word. -/
structure StandsFor (m : Image) (n : Nat) (s : Script) (run : List Instruction) : Prop where
  scriptAt : m.scripts[n]? = some s
  runAt : (runs m.code)[n]? = some run
  scriptCode : m.code.length < 0x100000000 → m.scriptCode? s = some run

end Image

end ScriptImage
