import ReactiveQuery.Proofs.Responses
import ReactiveQuery.Sort

/-! Merge sort by a comparison that may give no answer.  What is sorted stays what it was, and
sorting does not see more of the items than their comparison does. -/

namespace ReactiveQuery

variable {lax : Prop} {α β : Type} {compare : α → α → Option Ordering}
  (compare' : β → β → Option Ordering)

theorem mergeBy_cons {l r : α} {left right : List α} :
    mergeBy compare (l :: left) (r :: right) = (do
      if (← compare l r) == .gt then return r :: (← mergeBy compare (l :: left) right)
      else return l :: (← mergeBy compare left (r :: right))) := by
  rw [mergeBy]

theorem mergeBy_nil (left : List α) : mergeBy compare left [] = some left := by
  cases left <;> simp [mergeBy]

/-- A list that corresponds to another, all of whose members come from a given list. -/
def Corresponds (f : α → β) (given : List α) (xs : List α) (ys : List β) : Prop :=
  ys = xs.map f ∧ ∀ a ∈ xs, a ∈ given

theorem Corresponds.cons {f : α → β} {given less xs : List α} {ys : List β} {a : α}
    (rest : Corresponds f less xs ys) (fewer : less ⊆ given) (member : a ∈ given) :
    Corresponds f given (a :: xs) (f a :: ys) :=
  ⟨by rw [rest.1, List.map_cons],
    List.forall_mem_cons.mpr ⟨member, fun b inside => fewer (rest.2 b inside)⟩⟩

/-- Merging what is compared alike gives what corresponds, all of it from the lists merged. -/
theorem mergeBy_responses (f : α → β) {left right : List α}
    (alike : ∀ a ∈ left ++ right, ∀ b ∈ left ++ right,
      Responses lax Eq (compare a b) (compare' (f a) (f b))) :
    Responses lax (Corresponds f (left ++ right)) (mergeBy compare left right)
      (mergeBy compare' (left.map f) (right.map f)) := by
  induction left generalizing right with
  | nil =>
    rw [List.map_nil, mergeBy, mergeBy]
    exact .some ⟨rfl, fun _ => id⟩
  | cons l left outer =>
    induction right with
    | nil =>
      rw [List.map_nil, mergeBy_nil, mergeBy_nil]
      exact .some ⟨rfl, fun _ => List.mem_append_left _⟩
    | cons r right inner =>
      rw [List.map_cons, List.map_cons, mergeBy_cons, mergeBy_cons]
      refine (alike l (by simp) r (by simp)).bind_same fun o => ?_
      split
      · refine (inner fun a ha b hb => alike a (by grind) b (by grind)).bind fun xs ys rest => ?_
        exact .some (rest.cons (by intro a; grind) (by simp))
      · refine (outer fun a ha b hb => alike a (by grind) b (by grind)).bind fun xs ys rest => ?_
        exact .some (rest.cons (by intro a; grind) (by simp))

/-- Sorting what is compared alike gives what corresponds, all of it from what was sorted. -/
theorem mergeSortBy_responses (f : α → β) {items : List α}
    (alike : ∀ a ∈ items, ∀ b ∈ items, Responses lax Eq (compare a b) (compare' (f a) (f b))) :
    Responses lax (Corresponds f items) (mergeSortBy compare items)
      (mergeSortBy compare' (items.map f)) := by
  induction size : items.length using Nat.strongRecOn generalizing items with
  | _ n ih =>
    subst size
    rw [mergeSortBy, mergeSortBy, List.length_map]
    split
    · exact .some ⟨rfl, fun _ => id⟩
    · next long =>
      have inLeft : ∀ a ∈ items.take (items.length / 2), a ∈ items := fun a => List.mem_of_mem_take
      have inRight : ∀ a ∈ items.drop (items.length / 2), a ∈ items := fun a => List.mem_of_mem_drop
      simp only [← List.map_take, ← List.map_drop]
      refine (ih _ (by rw [List.length_take]; omega)
        (fun a ha b hb => alike a (inLeft a ha) b (inLeft b hb)) rfl).bind fun left ys first => ?_
      refine (ih _ (by rw [List.length_drop]; omega)
        (fun a ha b hb => alike a (inRight a ha) b (inRight b hb)) rfl).bind
          fun right zs second => ?_
      have members : ∀ a ∈ left ++ right, a ∈ items := fun a member =>
        (List.mem_append.mp member).elim (fun h => inLeft a (first.2 a h))
          fun h => inRight a (second.2 a h)
      rw [first.1, second.1]
      refine (mergeBy_responses compare' f fun a ha b hb =>
        alike a (members a ha) b (members b hb)).mono fun xs ys merged => ?_
      exact ⟨merged.1, fun a member => members a (merged.2 a member)⟩

/-- Sorting what is compared alike where there is an answer. -/
theorem mergeSortBy_map (f : α → β) {items sorted : List α}
    (alike : ∀ a ∈ items, ∀ b ∈ items, ∀ o, compare a b = some o → compare' (f a) (f b) = some o)
    (found : mergeSortBy compare items = some sorted) :
    mergeSortBy compare' (items.map f) = some (sorted.map f) ∧ ∀ a ∈ sorted, a ∈ items := by
  obtain ⟨_, found', rfl, members⟩ := (mergeSortBy_responses compare' f fun a ha b hb =>
    .of_found fun o answer => ⟨o, alike a ha b hb o answer, rfl⟩).found found
  exact ⟨found', members⟩

end ReactiveQuery
