/-!
Binary search in a list ordered by a key. The range is halved without an early stop; the middle
stays in the range unless it is above what is looked for.
-/

namespace ScriptImage.BinarySearch

/-- The last position of a range reached by halving it away from elements that are above. -/
def narrow (above : α → Bool) (xs : List α) (base size : Nat) : Nat :=
  if size ≤ 1 then base else
    let half := size / 2
    let middle := base + half
    narrow above xs (if xs[middle]?.any above then base else middle) (size - half)
termination_by size

/-- The number of elements at the front that are not above, when those come first. -/
def partitionPoint (above : α → Bool) (xs : List α) : Nat :=
  let i := narrow above xs 0 xs.length
  match xs[i]? with
  | none => 0
  | some x => if above x then i else i + 1

/-- The position of an element that compares equal. -/
def find? (cmp : α → Ordering) (xs : List α) : Option Nat :=
  let i := narrow (fun x => cmp x == .gt) xs 0 xs.length
  match xs[i]? with
  | none => none
  | some x => if cmp x = .eq then some i else none

end ScriptImage.BinarySearch
