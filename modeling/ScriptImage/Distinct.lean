/-!
Lists without repetition. New elements are added at the end, where an element that is already
there keeps its place, or by order.
-/

namespace ScriptImage

/-- Appends a new element and gives its position, or the position it already has. -/
def insertNew [DecidableEq α] (xs : List α) (x : α) : Nat × List α :=
  match xs.idxOf? x with
  | some i => (i, xs)
  | none => (xs.length, xs ++ [x])

/-- The elements of a list, each kept where it first occurs. -/
def distinct [DecidableEq α] (xs : List α) : List α :=
  xs.foldl (fun acc x => (insertNew acc x).2) []

/-- Inserts into an ascending list without repetition. -/
def insertAscending [DecidableEq α] [LT α] [DecidableLT α] (x : α) : List α → List α
  | [] => [x]
  | y :: r => if x < y then x :: y :: r else if x = y then y :: r else y :: insertAscending x r

/-- The elements of a list in ascending order, without repetition. -/
def ascending [DecidableEq α] [LT α] [DecidableLT α] (xs : List α) : List α :=
  xs.foldl (fun acc x => insertAscending x acc) []

theorem mem_insertAscending [DecidableEq α] [LT α] [DecidableLT α] {x y : α} {xs : List α} :
    y ∈ insertAscending x xs ↔ y = x ∨ y ∈ xs := by
  induction xs with
  | nil => simp [insertAscending]
  | cons z r ih =>
    unfold insertAscending
    split
    · simp
    · split
      · simp_all
      · simp only [List.mem_cons, ih]
        grind

end ScriptImage
