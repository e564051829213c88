import Mathlib
import ScriptImage.Distinct

/-!
Lists without repetition, to which elements are added one by one. An element that is new goes to
the end or to its place in the order; whatever is added, those that are there stay.
-/

namespace ScriptImage

/-! ### Adding elements to a list -/

section Distinct

variable {α : Type} [DecidableEq α]

theorem insertNew_cases (xs : List α) (x : α) :
    (∃ n, xs[n]? = some x ∧ insertNew xs x = (n, xs)) ∨
      x ∉ xs ∧ insertNew xs x = (xs.length, xs ++ [x]) := by
  unfold insertNew
  cases h : xs.idxOf? x with
  | none => exact Or.inr ⟨List.idxOf?_eq_none_iff.mp h, rfl⟩
  | some n =>
      obtain ⟨hn, hx, -⟩ := List.findIdx?_eq_some_iff_getElem.mp h
      exact Or.inl ⟨n, by rw [List.getElem?_eq_getElem hn, beq_iff_eq.mp hx], rfl⟩

theorem insertNew_of_not_mem {xs : List α} {x : α} (h : x ∉ xs) :
    insertNew xs x = (xs.length, xs ++ [x]) := by
  rcases insertNew_cases xs x with ⟨n, hn, -⟩ | ⟨-, heq⟩
  · exact absurd (List.mem_of_getElem? hn) h
  · exact heq

theorem nodup_insertNew {xs : List α} (h : xs.Nodup) (x : α) : (insertNew xs x).2.Nodup := by
  rcases insertNew_cases xs x with ⟨n, -, heq⟩ | ⟨hx, heq⟩
  · rwa [heq]
  · rw [heq]
    exact List.concat_eq_append ▸ List.Nodup.concat hx h

theorem nodup_foldl_insertNew {xs : List α} (h : xs.Nodup) (ys : List α) :
    (ys.foldl (fun acc y => (insertNew acc y).2) xs).Nodup := by
  induction ys generalizing xs with
  | nil => exact h
  | cons y ys ih => exact ih (nodup_insertNew h y)

theorem nodup_distinct (xs : List α) : (distinct xs).Nodup := nodup_foldl_insertNew .nil xs

/-- New elements without repetition are all appended. -/
theorem foldl_insertNew_of_nodup {xs ys : List α} (h : (xs ++ ys).Nodup) :
    ys.foldl (fun acc y => (insertNew acc y).2) xs = xs ++ ys := by
  induction ys generalizing xs with
  | nil => exact (List.append_nil xs).symm
  | cons y ys ih =>
      have hy : y ∉ xs := fun hmem =>
        (List.nodup_append.mp h).2.2 y hmem y List.mem_cons_self rfl
      rw [List.foldl_cons, insertNew_of_not_mem hy, ih (by simpa using h), List.append_assoc,
        List.singleton_append]

/-- A list without repetition is left as it is. -/
theorem distinct_of_nodup {xs : List α} (h : xs.Nodup) : distinct xs = xs :=
  foldl_insertNew_of_nodup h

theorem mem_insertNew {xs : List α} {x y : α}
    (h : y ∈ (insertNew xs x).2) : y ∈ xs ∨ y = x := by
  unfold insertNew at h
  split at h
  · exact Or.inl h
  · simpa using h

theorem mem_foldl_insertNew {xs ys : List α} {y : α}
    (h : y ∈ ys.foldl (fun acc y => (insertNew acc y).2) xs) : y ∈ xs ∨ y ∈ ys := by
  induction ys generalizing xs with
  | nil => exact Or.inl h
  | cons z ys ih =>
      rcases ih h with h | h
      · rcases mem_insertNew h with h | rfl
        · exact Or.inl h
        · exact Or.inr List.mem_cons_self
      · exact Or.inr (List.mem_cons_of_mem _ h)

/-- Elements keep their positions. -/
theorem getElem?_insertNew {xs : List α} {n : Nat} {y : α} (h : xs[n]? = some y) (x : α) :
    (insertNew xs x).2[n]? = some y := by
  rcases insertNew_cases xs x with ⟨m, -, heq⟩ | ⟨-, heq⟩
  · rwa [heq]
  · rw [heq, List.getElem?_append_left (List.getElem?_eq_some_iff.mp h).1, h]

theorem getElem?_foldl_insertNew {xs : List α} {n : Nat} {y : α} (h : xs[n]? = some y)
    (ys : List α) : (ys.foldl (fun acc y => (insertNew acc y).2) xs)[n]? = some y := by
  induction ys generalizing xs with
  | nil => exact h
  | cons z ys ih => exact ih (getElem?_insertNew h z)

/-- The position given is that of the element. -/
theorem getElem?_insertNew_self (xs : List α) (x : α) :
    (insertNew xs x).2[(insertNew xs x).1]? = some x := by
  rcases insertNew_cases xs x with ⟨n, hn, heq⟩ | ⟨-, heq⟩
  · rwa [heq]
  · rw [heq, List.getElem?_concat_length]

end Distinct

/-! ### Ascending lists -/

theorem insertAscending_eq_append {x : UInt32} {xs : List UInt32} (h : ∀ y ∈ xs, y < x) :
    insertAscending x xs = xs ++ [x] := by
  induction xs with
  | nil => rfl
  | cons y r ih =>
      have hy := h y List.mem_cons_self
      rw [insertAscending, if_neg (UInt32.lt_asymm hy), if_neg (UInt32.ne_of_lt hy).symm,
        ih fun z hz => h z (List.mem_cons_of_mem _ hz)]
      rfl

theorem foldl_insertAscending {acc xs : List UInt32} (h : (acc ++ xs).Pairwise (· < ·)) :
    xs.foldl (fun acc x => insertAscending x acc) acc = acc ++ xs := by
  induction xs generalizing acc with
  | nil => simp
  | cons x xs ih =>
      have hlt : ∀ y ∈ acc, y < x :=
        fun y hy => (List.pairwise_append.mp h).2.2 y hy x List.mem_cons_self
      rw [List.foldl_cons, insertAscending_eq_append hlt, ih]
      · simp
      · simpa using h

/-- A list that is in order already is left as it is. -/
theorem ascending_of_pairwise {xs : List UInt32} (h : xs.Pairwise (· < ·)) : ascending xs = xs :=
  foldl_insertAscending h

theorem pairwise_insertAscending {x : UInt32} {xs : List UInt32} (h : xs.Pairwise (· < ·)) :
    (insertAscending x xs).Pairwise (· < ·) := by
  induction xs with
  | nil => simp [insertAscending]
  | cons y r ih =>
      obtain ⟨hy, hr⟩ := List.pairwise_cons.mp h
      unfold insertAscending
      split
      · rename_i hlt
        refine List.pairwise_cons.mpr ⟨?_, h⟩
        intro z hz
        rcases List.mem_cons.mp hz with rfl | hz
        · exact hlt
        · exact UInt32.lt_trans hlt (hy z hz)
      · split
        · exact h
        · rename_i hge hne
          refine List.pairwise_cons.mpr ⟨?_, ih hr⟩
          intro z hz
          rcases mem_insertAscending.mp hz with rfl | hz
          · exact UInt32.lt_of_le_of_ne (UInt32.not_lt.mp hge) (Ne.symm hne)
          · exact hy z hz

theorem length_insertAscending_le (x : UInt32) (xs : List UInt32) :
    (insertAscending x xs).length ≤ xs.length + 1 := by
  induction xs with
  | nil => exact Nat.le_refl 1
  | cons y r ih =>
      unfold insertAscending
      split
      · simp
      · split
        · simp
        · simpa using ih

theorem foldl_insertAscending_spec (xs acc : List UInt32) (h : acc.Pairwise (· < ·)) :
    (xs.foldl (fun acc x => insertAscending x acc) acc).Pairwise (· < ·) ∧
      (xs.foldl (fun acc x => insertAscending x acc) acc).length ≤ acc.length + xs.length := by
  induction xs generalizing acc with
  | nil => exact ⟨h, Nat.le_refl _⟩
  | cons x xs ih =>
      obtain ⟨hpairwise, hlength⟩ := ih (insertAscending x acc) (pairwise_insertAscending h)
      have hstep := length_insertAscending_le x acc
      rw [List.foldl_cons, List.length_cons]
      exact ⟨hpairwise, by omega⟩

theorem ascending_spec (xs : List UInt32) :
    (ascending xs).Pairwise (· < ·) ∧ (ascending xs).length ≤ xs.length := by
  have h := foldl_insertAscending_spec xs [] List.Pairwise.nil
  rwa [List.length_nil, Nat.zero_add] at h

theorem mem_foldl_insertAscending {α : Type} [DecidableEq α] [LT α] [DecidableLT α] {y : α}
    {xs acc : List α} :
    y ∈ xs.foldl (fun acc x => insertAscending x acc) acc ↔ y ∈ xs ∨ y ∈ acc := by
  induction xs generalizing acc with
  | nil => simp
  | cons x xs ih =>
      rw [List.foldl_cons, ih, mem_insertAscending, List.mem_cons]
      tauto

theorem mem_ascending {α : Type} [DecidableEq α] [LT α] [DecidableLT α] {y : α} {xs : List α} :
    y ∈ ascending xs ↔ y ∈ xs := by
  rw [ascending, mem_foldl_insertAscending]
  simp

end ScriptImage
