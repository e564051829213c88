import ScriptImage.BinarySearch
import ScriptImage.Proofs.Outcome

/-!
Binary search finds the boundary of an ordered list: when the elements from a position on are
exactly those above what is looked for, that position is the partition point.
-/

namespace ScriptImage.BinarySearch

variable {α : Type} {above : α → Bool} {xs : List α} {p : Nat}

/-- The invariant of the search: the last element that is not above stays in the range, and so
does the first element when all are above. -/
theorem narrow_eq (h : ∀ i x, xs[i]? = some x → (above x = true ↔ p ≤ i)) (base size : Nat)
    (hsize : 0 < size) (hrange : base + size ≤ xs.length) (hbase : base ≤ p - 1)
    (hp : p ≤ base + size) : narrow above xs base size = p - 1 := by
  induction base, size using narrow.induct above xs with
  | case1 base size hs =>
      rw [narrow, if_pos hs]
      omega
  | case2 base size hs half middle ih =>
      have hmiddle : middle < xs.length := by omega
      have hx : xs[middle]? = some xs[middle] := List.getElem?_eq_getElem hmiddle
      have habove := h middle xs[middle] hx
      rw [narrow, if_neg hs]
      change narrow above xs (if Option.any above xs[middle]? = true then base else middle)
        (size - half) = p - 1
      by_cases hm : p ≤ middle
      · -- the middle is above: the boundary lies in the lower half
        have hany : Option.any above xs[middle]? = true := by
          rw [hx]
          exact habove.mpr hm
        rw [dif_pos hany] at ih
        rw [if_pos hany]
        exact ih (by omega) (by omega) hbase (by omega)
      · have hany : ¬ Option.any above xs[middle]? = true := by
          rw [hx]
          exact fun ha => hm (habove.mp ha)
        rw [dif_neg hany] at ih
        rw [if_neg hany]
        exact ih (by omega) (by omega) (by omega) (by omega)

theorem partitionPoint_eq (h : ∀ i x, xs[i]? = some x → (above x = true ↔ p ≤ i))
    (hp : p ≤ xs.length) : partitionPoint above xs = p := by
  unfold partitionPoint
  by_cases hlength : xs.length = 0
  · have hxs : xs = [] := List.length_eq_zero_iff.mp hlength
    subst hxs
    simp only [List.length_nil, Nat.le_zero] at hp
    simp [hp]
  · rw [narrow_eq h 0 xs.length (by omega) (by omega) (by omega) (by omega)]
    have hi : p - 1 < xs.length := by omega
    have hx : xs[p - 1]? = some xs[p - 1] := List.getElem?_eq_getElem hi
    have habove := h (p - 1) xs[p - 1] hx
    simp only [hx]
    split
    · rename_i ha
      have := habove.mp ha
      omega
    · rename_i ha
      have : ¬ p ≤ p - 1 := fun hle => ha (habove.mpr hle)
      omega

/-- An element that compares equal is found when exactly those after it are above. -/
theorem find?_eq {cmp : α → Ordering} {n : Nat} {y : α}
    (h : ∀ i x, xs[i]? = some x → (cmp x = .gt ↔ n < i)) (hy : xs[n]? = some y)
    (heq : cmp y = .eq) : find? cmp xs = some n := by
  have hn := (List.getElem?_eq_some_iff.mp hy).1
  have hnarrow : narrow (fun x => cmp x == .gt) xs 0 xs.length = n + 1 - 1 := by
    refine narrow_eq ?_ 0 xs.length (by omega) (by omega) (by omega) (by omega)
    intro i x hx
    rw [beq_iff_eq, h i x hx, Nat.succ_le_iff]
  rw [Nat.add_sub_cancel] at hnarrow
  unfold find?
  simp only [hnarrow, hy, heq, if_true]

theorem find?_eq_some {cmp : α → Ordering} {n : Nat} (h : find? cmp xs = some n) :
    ∃ y, xs[n]? = some y ∧ cmp y = .eq := by
  unfold find? at h
  simp only at h
  split at h
  · cases h
  · rename_i y hy
    split at h
    · rename_i heq
      cases h
      exact ⟨y, hy, heq⟩
    · cases h

end ScriptImage.BinarySearch
