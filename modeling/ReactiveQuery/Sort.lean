/-! Stable merge sort by a comparison that need not be an order. -/

namespace ReactiveQuery

variable {m : Type → Type} [Monad m] {α : Type}

/-- Merges two lists; the right head goes first only when the left one is greater. -/
def mergeBy (compare : α → α → m Ordering) : List α → List α → m (List α)
  | [], right => pure right
  | left, [] => pure left
  | l :: left, r :: right => do
    if (← compare l r) == .gt then return r :: (← mergeBy compare (l :: left) right)
    else return l :: (← mergeBy compare left (r :: right))
termination_by left right => left.length + right.length

/-- Sorts by halves, the left half being the shorter one. -/
def mergeSortBy (compare : α → α → m Ordering) (items : List α) : m (List α) :=
  if short : items.length < 2 then pure items
  else do
    let half := items.length / 2
    let left ← mergeSortBy compare (items.take half)
    let right ← mergeSortBy compare (items.drop half)
    mergeBy compare left right
termination_by items.length
decreasing_by
  · simp only [List.length_take]; omega
  · simp only [List.length_drop]; omega

end ReactiveQuery
