import ReactiveQuery.World

/-! Lifetimes: a record or collection lives while a handle on it exists.  Handles are held by names,
by activities, by waiting events, jobs and listeners, by cached queries, and by whatever still
exists in the heap; so values that hold one another in a circle stay.  After a sweep everything
that lives is held. -/

namespace ReactiveQuery

namespace World

/-- The places held from outside the heap. -/
def roots (w : World) : List Nat :=
  let listeners := w.bus.registry.entries.flatMap (·.2)
  let listened := listeners.flatMap fun l => ((w.bus.listeners[l]?).map Listener.values).getD []
  let jobs := (w.bus.scheduler.marked ++ w.bus.scheduler.running).flatMap (·.2.values)
  let events := w.bus.queue.events.flatMap Event.values
  Value.placesOfItems (w.desk.names.values ++ w.held ++ listened ++ jobs ++ events) ++
    w.cache.entries.flatMap (·.2.places)

/-- The places held from outside the heap or by a cell of it. -/
def heldPlaces (w : World) : List Nat :=
  w.roots ++ w.heap.cells.toList.flatMap fun c => (c.map Cell.places).getD []

/-- For each place whether it is held. -/
def marks (w : World) : Array Bool :=
  w.heldPlaces.foldl (fun marks loc => marks.setIfInBounds loc true)
    (Array.replicate w.heap.cells.size false)

/-- The places of the living cells. -/
def living (w : World) : List Nat := (List.range w.heap.cells.size).filter w.heap.isAlive

/-- The living cells that nothing holds. -/
def unheld (w : World) : List Nat :=
  let marks := w.marks
  w.living.filter fun loc => marks[loc]? == some false

/-- Undoes registrations. -/
def unsubscribeAll (subscriptions : List Subscription) (w : World) : World :=
  let registry := subscriptions.foldl (fun r s => (r.remove s).2) w.bus.registry
  { w with bus := { w.bus with registry } }

/-- Frees a cell and what lives as long as it. -/
def release (w : World) (loc : Nat) : World :=
  let subscriptions := match w.heap.cell? loc with
    | some (.collection c) => c.retained.subscriptions
    | _ => []
  { w with heap := w.heap.put loc none }.unsubscribeAll subscriptions

/-- Frees what nothing holds until everything is held; each round but the last frees a cell. -/
def sweepWithin : Nat → World → World
  | 0, w => w
  | rounds + 1, w =>
    match w.unheld with
    | [] => w
    | locs => sweepWithin rounds (locs.foldl release w)

def sweep (w : World) : World := sweepWithin w.heap.cells.size w

/-- Releasing a place makes it dead and leaves every other cell as it is. -/
theorem cell?_release (w : World) (loc l : Nat) :
    (w.release loc).heap.cell? l = if loc = l then none else w.heap.cell? l := by
  have step : (w.release loc).heap = w.heap.put loc none := rfl
  rw [step, Heap.cell?_put]
  by_cases here : loc = l
  · by_cases inside : l < w.heap.cells.size
    · simp [here, inside]
    · simp [here, inside, Heap.cell?]
  · simp [here]

theorem size_release (w : World) (loc : Nat) :
    (w.release loc).heap.cells.size = w.heap.cells.size :=
  Array.size_setIfInBounds

theorem isAlive_foldl_release (locs : List Nat) (w : World) (l : Nat) :
    (locs.foldl release w).heap.isAlive l = (w.heap.isAlive l && !locs.contains l) := by
  induction locs generalizing w with
  | nil => simp
  | cons loc locs ih =>
    rw [List.foldl_cons, ih]
    by_cases here : loc = l
    · simp [Heap.isAlive, cell?_release, here]
    · simp [Heap.isAlive, cell?_release, here, Ne.symm here]

theorem size_foldl_release (locs : List Nat) (w : World) :
    (locs.foldl release w).heap.cells.size = w.heap.cells.size := by
  induction locs generalizing w with
  | nil => rfl
  | cons loc locs ih => rw [List.foldl_cons, ih, size_release]

theorem mem_living {w : World} {l : Nat} : l ∈ w.living ↔ w.heap.isAlive l = true := by
  simp only [living, List.mem_filter, List.mem_range, and_iff_right_iff_imp]
  intro alive
  obtain ⟨cell, here⟩ := Option.isSome_iff_exists.mp alive
  exact Heap.lt_size_of_cell? here

theorem getElem?_foldl_mark (locs : List Nat) (marks : Array Bool) (l : Nat) :
    (locs.foldl (fun marks loc => marks.setIfInBounds loc true) marks)[l]? =
      if l ∈ locs ∧ l < marks.size then some true else marks[l]? := by
  induction locs generalizing marks with
  | nil => simp
  | cons loc locs ih =>
    rw [List.foldl_cons, ih, Array.size_setIfInBounds, Array.getElem?_setIfInBounds]
    by_cases here : l = loc
    · subst here
      by_cases inside : l < marks.size <;> simp [inside]
    · simp [here, Ne.symm here]

/-- A living cell is freed exactly when nothing holds it. -/
theorem mem_unheld {w : World} {l : Nat} :
    l ∈ w.unheld ↔ w.heap.isAlive l = true ∧ l ∉ w.heldPlaces := by
  simp only [unheld, List.mem_filter, mem_living]
  refine and_congr_right fun alive => ?_
  obtain ⟨cell, here⟩ := Option.isSome_iff_exists.mp alive
  have inside := Heap.lt_size_of_cell? here
  rw [marks, getElem?_foldl_mark]
  by_cases h : l ∈ w.heldPlaces <;> simp [h, inside]

theorem living_foldl_release (locs : List Nat) (w : World) :
    (locs.foldl release w).living = w.living.filter fun l => !locs.contains l := by
  unfold living
  rw [size_foldl_release, List.filter_filter]
  congr 1
  funext l
  rw [isAlive_foldl_release, Bool.and_comm]

/-- As many rounds as there are living cells are enough. -/
theorem unheld_sweepWithin {rounds : Nat} {w : World} (enough : w.living.length ≤ rounds) :
    (sweepWithin rounds w).unheld = [] := by
  induction rounds generalizing w with
  | zero =>
    have dead : w.living = [] := List.eq_nil_of_length_eq_zero (Nat.le_zero.mp enough)
    exact List.eq_nil_iff_forall_not_mem.mpr fun l h => by
      simpa [sweepWithin, dead] using (List.mem_filter.mp h).1
  | succ rounds ih =>
    unfold sweepWithin
    split
    · assumption
    · next some =>
      obtain ⟨l, h⟩ := List.exists_mem_of_ne_nil _ some
      refine ih (Nat.le_of_lt_succ (Nat.lt_of_lt_of_le ?_ enough))
      rw [living_foldl_release]
      exact List.length_filter_lt_length_iff_exists.mpr
        ⟨l, (List.mem_filter.mp h).1, by simpa using h⟩

/-- After a sweep everything that lives is held. -/
theorem unheld_sweep (w : World) : w.sweep.unheld = [] :=
  unheld_sweepWithin (Nat.le_trans (List.length_filter_le _ _) (Nat.le_of_eq List.length_range))

end World

/-- Lets go of what nothing holds, before lifetimes are looked at. -/
def Act.settle : Act Unit := modify World.sweep

/-- Is a collection still alive? -/
def Act.isAlive (r : Ref) : Act Bool := do
  Act.settle
  return (← get).heap.isAlive r.loc

end ReactiveQuery
