import ReactiveQuery.Lifetime
import ReactiveQuery.Proofs.Value.Plain

/-! What a sweep leaves.  Cells only go, and what names, activities and surviving cells hold stays;
so no handle is left without its cell.  A surviving result keeps its registrations. -/

namespace ReactiveQuery

theorem Value.mem_placesOfItems_append {xs ys : List Value} {l : Nat} :
    l ∈ Value.placesOfItems (xs ++ ys) ↔
      l ∈ Value.placesOfItems xs ∨ l ∈ Value.placesOfItems ys := by
  simp only [Value.mem_placesOfItems, List.mem_append]
  constructor
  · rintro ⟨v, member | member, held⟩
    · exact .inl ⟨v, member, held⟩
    · exact .inr ⟨v, member, held⟩
  · rintro (⟨v, member, held⟩ | ⟨v, member, held⟩)
    · exact ⟨v, .inl member, held⟩
    · exact ⟨v, .inr member, held⟩

namespace Registry

theorem mem_on_remove {r : Registry} {s : Subscription} {t : Topic} {n : Nat}
    (other : s.listener ≠ n) (here : n ∈ r.on t) : n ∈ (r.remove s).2.on t := by
  rw [on_remove]
  split
  · exact (List.mem_erase_of_ne (Ne.symm other)).mpr here
  · exact here

theorem mem_on_removeAll {subscriptions : List Subscription} {r : Registry} {t : Topic} {n : Nat}
    (others : ∀ s ∈ subscriptions, s.listener ≠ n) (here : n ∈ r.on t) :
    n ∈ (subscriptions.foldl (fun r s => (r.remove s).2) r).on t := by
  induction subscriptions generalizing r with
  | nil => exact here
  | cons s rest ih =>
    exact ih (fun s member => others s (List.mem_cons_of_mem _ member))
      (mem_on_remove (others s List.mem_cons_self) here)

end Registry

namespace World

/-- Names and cells lead to living places. -/
structure Closed (w : World) : Prop where
  names : ∀ l ∈ Value.placesOfItems w.desk.names.values, w.heap.isAlive l = true
  cells : ∀ loc cell, w.heap.cell? loc = some cell → ∀ l ∈ cell.places, w.heap.isAlive l = true

/-- What a collection retains are the registrations of listeners that invalidate it. -/
def Owned (w : World) : Prop :=
  ∀ loc c, w.heap.cell? loc = some (.collection c) → ∀ s ∈ c.retained.subscriptions,
    ∃ route job, w.bus.listeners[s.listener]? = some (.invalidate (loc + 1) route job)

/-- A world that has let cells go, and with them their registrations; what waits may differ. -/
structure Shrinks (w v : World) : Prop where
  size : v.heap.cells.size = w.heap.cells.size
  cells : ∀ l cell, v.heap.cell? l = some cell → w.heap.cell? l = some cell
  rooted : ∀ l ∈ Value.placesOfItems (w.desk.names.values ++ w.held), w.heap.isAlive l = true →
    v.heap.isAlive l = true
  linked : ∀ loc cell, v.heap.cell? loc = some cell → ∀ l ∈ cell.places, w.heap.isAlive l = true →
    v.heap.isAlive l = true
  registered : ∀ t n id route job, w.bus.listeners[n]? = some (.invalidate id route job) →
    v.heap.isAlive (id - 1) = true → n ∈ w.bus.registry.on t → n ∈ v.bus.registry.on t
  same : v = { w with
    heap := { w.heap with cells := v.heap.cells }
    bus := { w.bus with
      registry := v.bus.registry, queue := v.bus.queue, scheduler := v.bus.scheduler } }

namespace Shrinks

variable {u v w : World}

theorem refl (w : World) : w.Shrinks w :=
  ⟨rfl, fun _ _ => id, fun _ _ => id, fun _ _ _ _ _ => id, fun _ _ _ _ _ _ _ => id, rfl⟩

theorem alive (h : w.Shrinks v) {l : Nat} (after : v.heap.isAlive l = true) :
    w.heap.isAlive l = true := by
  obtain ⟨cell, here⟩ := Option.isSome_iff_exists.mp after
  rw [Heap.isAlive, h.cells l cell here]
  rfl

theorem trans (first : u.Shrinks v) (second : v.Shrinks w) : u.Shrinks w := by
  have names : v.desk.names = u.desk.names := by rw [first.same]
  have held : v.held = u.held := by rw [first.same]
  have listeners : v.bus.listeners = u.bus.listeners := by rw [first.same]
  refine ⟨second.size.trans first.size,
    fun l cell here => first.cells l cell (second.cells l cell here),
    fun l root living => ?_, fun loc cell here l held living => ?_,
    fun t n id route job listens living here => ?_, ?_⟩
  · exact second.rooted l (by rw [names, held]; exact root) (first.rooted l root living)
  · exact second.linked loc cell here l held
      (first.linked loc cell (second.cells loc cell here) l held living)
  · exact second.registered t n id route job (by rw [listeners]; exact listens) living
      (first.registered t n id route job listens (second.alive living) here)
  · rw [second.same, first.same]

theorem closed (h : w.Shrinks v) (closed : w.Closed) : v.Closed where
  names l named := by
    have names : v.desk.names = w.desk.names := by rw [h.same]
    rw [names] at named
    exact h.rooted l (Value.mem_placesOfItems_append.mpr (.inl named)) (closed.names l named)
  cells loc cell here l held :=
    h.linked loc cell here l held (closed.cells loc cell (h.cells loc cell here) l held)

/-- What waits may be changed. -/
theorem waiting (h : w.Shrinks v) (queue : Queue) (scheduler : Scheduler Job) :
    w.Shrinks { v with bus := { v.bus with queue, scheduler } } :=
  ⟨h.size, h.cells, h.rooted, h.linked, h.registered, by rw [h.same]⟩

/-- What is held on the way may be taken off again. -/
theorem holding {values : List Value} (h : Shrinks { w with held := values ++ w.held } v) :
    w.Shrinks { v with held := w.held } where
  size := h.size
  cells := h.cells
  rooted l root := h.rooted l (by
    simp only [Value.mem_placesOfItems_append] at root ⊢
    rcases root with named | held
    · exact .inl named
    · exact .inr (.inr held))
  linked := h.linked
  registered := h.registered
  same := by rw [h.same]

theorem owned (h : w.Shrinks v) (owned : w.Owned) : v.Owned := by
  intro loc c here s member
  have listeners : v.bus.listeners = w.bus.listeners := by rw [h.same]
  rw [listeners]
  exact owned loc c (h.cells _ _ here) s member

end Shrinks

theorem cell?_foldl_release (locs : List Nat) (w : World) (l : Nat) :
    (locs.foldl release w).heap.cell? l = if l ∈ locs then none else w.heap.cell? l := by
  induction locs generalizing w with
  | nil => simp
  | cons loc locs ih =>
    rw [List.foldl_cons, ih, cell?_release]
    by_cases here : l = loc
    · simp [here]
    · simp [here, Ne.symm here]

theorem same_foldl_release (locs : List Nat) (w : World) :
    locs.foldl release w = { w with
      heap := { w.heap with cells := (locs.foldl release w).heap.cells }
      bus := { w.bus with registry := (locs.foldl release w).bus.registry } } := by
  induction locs generalizing w with
  | nil => rfl
  | cons loc locs ih =>
    rw [List.foldl_cons]
    refine (ih (w.release loc)).trans ?_
    rfl

/-- A listener loses its registrations only with the collection that it invalidates. -/
theorem mem_on_foldl_release {locs : List Nat} {w : World} {t : Topic} {n id : Nat} {route : Route}
    {job : Job} (owned : w.Owned)
    (listens : w.bus.listeners[n]? = some (.invalidate id route job))
    (living : (locs.foldl release w).heap.isAlive (id - 1) = true)
    (here : n ∈ w.bus.registry.on t) : n ∈ (locs.foldl release w).bus.registry.on t := by
  induction locs generalizing w with
  | nil => exact here
  | cons loc locs ih =>
    rw [List.foldl_cons] at living ⊢
    have differs : loc ≠ id - 1 := by
      rintro rfl
      rw [isAlive_foldl_release] at living
      simp [Heap.isAlive, cell?_release] at living
    refine ih (fun l c found s member => ?_) listens living ?_
    · rw [cell?_release] at found
      split at found
      · cases found
      · exact owned l c found s member
    · refine Registry.mem_on_removeAll (fun s member => ?_) here
      split at member
      · next c found =>
        obtain ⟨route', job', listens'⟩ := owned loc c found s member
        rintro rfl
        rw [listens, Option.some.injEq, Listener.invalidate.injEq] at listens'
        exact differs (by omega)
      · cases member

theorem mem_heldPlaces_of_root {w : World} {l : Nat}
    (root : l ∈ Value.placesOfItems (w.desk.names.values ++ w.held)) : l ∈ w.heldPlaces := by
  refine List.mem_append_left _ (List.mem_append_left _ ?_)
  simp only [List.append_assoc, Value.mem_placesOfItems_append] at root ⊢
  rcases root with named | held
  · exact .inl named
  · exact .inr (.inl held)

theorem mem_heldPlaces_of_cell {w : World} {k l : Nat} {cell : Cell}
    (here : w.heap.cell? k = some cell) (inside : l ∈ cell.places) : l ∈ w.heldPlaces := by
  refine List.mem_append_right _ (List.mem_flatMap.mpr ⟨some cell, ?_, by simpa using inside⟩)
  rw [Heap.cell?, Option.join_eq_some_iff] at here
  exact Array.mem_toList_iff.mpr (Array.mem_of_getElem? here)

/-- Releasing what nothing holds. -/
theorem shrinks_round {w : World} (owned : w.Owned) :
    w.Shrinks (w.unheld.foldl release w) where
  size := size_foldl_release _ w
  cells l cell here := by
    rw [cell?_foldl_release] at here
    split at here
    · cases here
    · exact here
  rooted l root living := by
    rw [isAlive_foldl_release, living]
    simp [mem_unheld, mem_heldPlaces_of_root root]
  linked loc cell here l inside living := by
    rw [isAlive_foldl_release, living]
    rw [cell?_foldl_release] at here
    split at here
    · cases here
    · simp [mem_unheld, mem_heldPlaces_of_cell here inside]
  registered t n id route job listens living here := mem_on_foldl_release owned listens living here
  same := (same_foldl_release _ w).trans (by rw [same_foldl_release])

theorem shrinks_sweepWithin {w : World} (owned : w.Owned) (rounds : Nat) :
    w.Shrinks (sweepWithin rounds w) := by
  induction rounds generalizing w with
  | zero => exact .refl w
  | succ rounds ih =>
    unfold sweepWithin
    split
    · exact .refl w
    · have round := shrinks_round owned
      exact round.trans (ih (round.owned owned))

theorem shrinks_sweep {w : World} (owned : w.Owned) : w.Shrinks w.sweep :=
  shrinks_sweepWithin owned _

/-- What lives after a sweep is as it was before. -/
theorem cell?_of_sweep {w : World} {l : Nat} {cell : Cell}
    (here : w.sweep.heap.cell? l = some cell) : w.heap.cell? l = some cell := by
  unfold sweep at here
  generalize w.heap.cells.size = rounds at here
  induction rounds generalizing w with
  | zero => exact here
  | succ rounds ih =>
    unfold sweepWithin at here
    split at here
    · exact here
    · have released := ih here
      rw [cell?_foldl_release] at released
      split at released
      · cases released
      · exact released

/-- What lives stays as long as names, activities or cells that stay hold it. -/
theorem isAlive_sweep {P : Nat → Prop} {w : World}
    (holds : ∀ l, P l → w.heap.isAlive l = true →
      l ∈ Value.placesOfItems (w.desk.names.values ++ w.held) ∨
        ∃ k cell, P k ∧ w.heap.cell? k = some cell ∧ l ∈ cell.places) {l : Nat} (member : P l)
    (alive : w.heap.isAlive l = true) : w.sweep.heap.isAlive l = true := by
  unfold sweep
  generalize w.heap.cells.size = rounds
  induction rounds generalizing w with
  | zero => exact alive
  | succ rounds ih =>
    unfold sweepWithin
    split
    · exact alive
    · have spared : ∀ l, P l → w.heap.isAlive l = true → l ∉ w.unheld := by
        intro l member alive gone
        refine (mem_unheld.mp gone).2 ?_
        rcases holds l member alive with root | ⟨k, cell, -, here, inside⟩
        · exact mem_heldPlaces_of_root root
        · exact mem_heldPlaces_of_cell here inside
      refine ih (fun l member living => ?_) ?_
      · rw [isAlive_foldl_release, Bool.and_eq_true] at living
        rcases holds l member living.1 with root | ⟨k, cell, other, here, inside⟩
        · rw [same_foldl_release]
          exact .inl root
        · have stays := spared k other (by rw [Heap.isAlive, here]; rfl)
          exact .inr ⟨k, cell, other, by rw [cell?_foldl_release, if_neg stays, here], inside⟩
      · simp [isAlive_foldl_release, alive, spared l member alive]

/-- A sweep touches cells and registrations only. -/
theorem same_sweep (w : World) : w.sweep = { w with
    heap := { w.heap with cells := w.sweep.heap.cells }
    bus := { w.bus with registry := w.sweep.bus.registry } } := by
  unfold sweep
  generalize w.heap.cells.size = rounds
  induction rounds generalizing w with
  | zero => rfl
  | succ rounds ih =>
    unfold sweepWithin
    split
    · rfl
    · exact (ih _).trans (by rw [same_foldl_release])

/-- A sweep leaves the places. -/
theorem size_sweep (w : World) : w.sweep.heap.cells.size = w.heap.cells.size := by
  suffices ∀ rounds, (sweepWithin rounds w).heap.cells.size = w.heap.cells.size from this _
  intro rounds
  induction rounds generalizing w with
  | zero => rfl
  | succ rounds ih =>
    unfold sweepWithin
    split
    · rfl
    · exact (ih _).trans (size_foldl_release _ w)

/-- A sweep leaves what waits. -/
theorem waiting_sweep (w : World) :
    w.sweep.bus.queue = w.bus.queue ∧ w.sweep.bus.scheduler = w.bus.scheduler := by
  unfold sweep
  generalize w.heap.cells.size = rounds
  induction rounds generalizing w with
  | zero => exact ⟨rfl, rfl⟩
  | succ rounds ih =>
    unfold sweepWithin
    split
    · exact ⟨rfl, rfl⟩
    · rw [(ih _).1, (ih _).2, same_foldl_release]
      exact ⟨rfl, rfl⟩

end World

end ReactiveQuery
