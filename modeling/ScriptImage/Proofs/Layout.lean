import ScriptImage.Proofs.Outcome

/-!
Pieces laid out one after the other. Every position of the whole lies in one piece, and what
stands there is found in that piece.
-/

namespace ScriptImage

variable {α β : Type}

/-- Where the piece at a position begins. -/
def pieceStart (f : α → List β) (xs : List α) (n : Nat) : Nat := ((xs.take n).flatMap f).length

theorem flatMap_eq_append {f : α → List β} {xs : List α} {n : Nat} {x : α}
    (h : xs[n]? = some x) :
    xs.flatMap f = (xs.take n).flatMap f ++ (f x ++ (xs.drop (n + 1)).flatMap f) := by
  obtain ⟨hn, rfl⟩ := List.getElem?_eq_some_iff.mp h
  conv_lhs => rw [← List.take_append_drop n xs, List.drop_eq_getElem_cons hn]
  rw [List.flatMap_append, List.flatMap_cons]

theorem drop_pieceStart {f : α → List β} {xs : List α} {n : Nat} {x : α}
    (h : xs[n]? = some x) :
    (xs.flatMap f).drop (pieceStart f xs n) = f x ++ (xs.drop (n + 1)).flatMap f := by
  rw [flatMap_eq_append h, pieceStart, List.drop_left]

theorem getElem?_pieceStart_add {f : α → List β} {xs : List α} {n k : Nat} {x : α}
    (h : xs[n]? = some x) (hk : k < (f x).length) :
    (xs.flatMap f)[pieceStart f xs n + k]? = (f x)[k]? := by
  rw [← List.getElem?_drop, drop_pieceStart h, List.getElem?_append_left hk]

theorem pieceStart_add_length_le {f : α → List β} {xs : List α} {n : Nat} {x : α}
    (h : xs[n]? = some x) : pieceStart f xs n + (f x).length ≤ (xs.flatMap f).length := by
  rw [flatMap_eq_append h, pieceStart]
  simp only [List.length_append]
  omega

@[simp] theorem pieceStart_zero (f : α → List β) (xs : List α) : pieceStart f xs 0 = 0 := by
  simp [pieceStart]

@[simp] theorem pieceStart_cons_succ (f : α → List β) (x : α) (xs : List α) (n : Nat) :
    pieceStart f (x :: xs) (n + 1) = (f x).length + pieceStart f xs n := by
  simp [pieceStart]

theorem pieceStart_succ {f : α → List β} {xs : List α} {n : Nat} {x : α} (h : xs[n]? = some x) :
    pieceStart f xs (n + 1) = pieceStart f xs n + (f x).length := by
  simp [pieceStart, List.take_add_one, h]

theorem pieceStart_mono (f : α → List β) (xs : List α) {i j : Nat} (h : i ≤ j) :
    pieceStart f xs i ≤ pieceStart f xs j := by
  rw [pieceStart, pieceStart, ← Nat.add_sub_cancel' h, List.take_add, List.flatMap_append,
    List.length_append]
  exact Nat.le_add_right _ _

theorem pieceStart_length (f : α → List β) (xs : List α) :
    pieceStart f xs xs.length = (xs.flatMap f).length := by
  simp [pieceStart]

/-- From where a piece begins on, what is left are the pieces from there on. -/
theorem drop_pieceStart_flatten (pieces : List (List β)) (n : Nat) :
    pieces.flatten.drop (pieceStart id pieces n) = (pieces.drop n).flatten := by
  conv_lhs => rw [← List.take_append_drop n pieces, List.flatten_append]
  rw [pieceStart, List.flatMap_id, List.take_append_drop, List.drop_left]

theorem pieceStart_append_left (f : α → List β) {xs : List α} (ys : List α) {n : Nat}
    (h : n ≤ xs.length) : pieceStart f (xs ++ ys) n = pieceStart f xs n := by
  rw [pieceStart, List.take_append_of_le_length h, pieceStart]

theorem pieceStart_append_right (f : α → List β) (xs ys : List α) (n : Nat) :
    pieceStart f (xs ++ ys) (xs.length + n) = (xs.flatMap f).length + pieceStart f ys n := by
  rw [pieceStart, List.take_length_add_append, List.flatMap_append, List.length_append, pieceStart]

theorem pieceStart_map (f : α → List β) (xs : List α) (n : Nat) :
    pieceStart id (xs.map f) n = pieceStart f xs n := by
  rw [pieceStart, ← List.map_take, List.flatMap_map]
  rfl

/-- Where pieces begin is decided by their lengths. -/
theorem pieceStart_congr {γ δ : Type} {f : α → List β} {g : γ → List δ} {xs : List α}
    {ys : List γ} (h : xs.map (fun x => (f x).length) = ys.map fun y => (g y).length) (n : Nat) :
    pieceStart f xs n = pieceStart g ys n := by
  rw [pieceStart, pieceStart, List.length_flatMap, List.length_flatMap, List.map_take,
    List.map_take, h]

/-- Every position of the whole lies in one of the pieces. -/
theorem exists_piece {f : α → List β} {xs : List α} {i : Nat} {y : β}
    (h : (xs.flatMap f)[i]? = some y) :
    ∃ n x k, xs[n]? = some x ∧ (f x)[k]? = some y ∧ i = pieceStart f xs n + k := by
  induction xs generalizing i with
  | nil => simp at h
  | cons x xs ih =>
    rw [List.flatMap_cons] at h
    by_cases hi : i < (f x).length
    · rw [List.getElem?_append_left hi] at h
      exact ⟨0, x, i, rfl, h, by simp⟩
    · rw [List.getElem?_append_right (by omega)] at h
      obtain ⟨n, z, k, hz, hk, hi'⟩ := ih h
      refine ⟨n + 1, z, k, hz, hk, ?_⟩
      rw [pieceStart_cons_succ]
      omega

end ScriptImage
