import ReactiveQuery.Proofs.Live.Write

/-! Batches.  While writes pile up, each field and each collection that a query hears of is as it
was when the batch began, or news of it waits; so at the end every stale result rests on one that is
due. -/

namespace ReactiveQuery

namespace World

/-- A world in which writes since another are accounted for.  A field whose news was called off has
the value back that it had. -/
structure Amends (M : Nat → Prop) (qs : List LiveQuery) (w₀ w : World) : Prop where
  size : w.heap.cells.size = w₀.heap.cells.size
  tags : w₀.heap.nextTag ≤ w.heap.nextTag
  items : ∀ r : Ref, w.heap.isAlive r.loc = true → w.heap.items r = w₀.heap.items r ∨
    M r.loc ∧ (∀ q ∈ qs, q.result.loc ≠ r.loc) ∧
      ∀ q ∈ qs, w.heap.isAlive q.result.loc = true → q.Hears (r.loc + 1, .content) →
        (w.bus.queue.waiting? (r.loc + 1, .content)).isSome = true
  names : ∀ (r : Ref) key, w.heap.isAlive r.loc = true →
    FieldMap.contains key (w.heap.fields r) = FieldMap.contains key (w₀.heap.fields r)
  fields : ∀ q ∈ qs, w.heap.isAlive q.result.loc = true → ∀ (r : Ref) key,
    w.heap.isAlive r.loc = true → q.Hears (r.loc + 1, .field key) →
    FieldMap.get? key (w.heap.fields r) = FieldMap.get? key (w₀.heap.fields r) ∧
        w.bus.queue.waiting? (r.loc + 1, .field key) = none ∨
      ∃ e, w.bus.queue.waiting? (r.loc + 1, .field key) = some e ∧
        FieldMap.get? key (w₀.heap.fields r) = some e.old

variable {M : Nat → Prop} {qs : List LiveQuery} {u v w w₀ : World} {containers : List Value}

namespace Amends

theorem refl (silent : w.bus.queue.isEmpty = true) : Amends M qs w w where
  size := rfl
  tags := Nat.le_refl _
  items _ _ := .inl rfl
  names _ _ _ := rfl
  fields _ _ _ _ _ _ _ := .inl ⟨rfl, Queue.waiting?_of_isEmpty silent⟩

/-- Changes that touch neither cells nor the queue do not matter. -/
theorem still (amends : Amends M qs w₀ w) (cells : v.heap.cells = w.heap.cells)
    (tags : w.heap.nextTag ≤ v.heap.nextTag) (queue : v.bus.queue = w.bus.queue) :
    Amends M qs w₀ v := by
  have cell : v.heap.cell? = w.heap.cell? := by unfold Heap.cell?; rw [cells]
  have alive : v.heap.isAlive = w.heap.isAlive := by unfold Heap.isAlive; rw [cell]
  have items : v.heap.items = w.heap.items := by
    unfold Heap.items Heap.collection?
    rw [cell]
  have fields : v.heap.fields = w.heap.fields := by
    unfold Heap.fields Heap.record?
    rw [cell]
  refine ⟨by rw [cells, amends.size], Nat.le_trans amends.tags tags, ?_, ?_, ?_⟩
  all_goals rw [alive]
  · rw [items, queue]
    exact amends.items
  · rw [fields]
    exact amends.names
  · rw [fields, queue]
    exact amends.fields

/-- Other items somewhere are told to those who hear of them. -/
theorem writes {r : Ref} {items : List Value} (amends : Amends M qs w₀ w)
    (writes : w.Writes qs r items u) (number : r.id = r.loc + 1) (may : M r.loc)
    (other : ∀ q ∈ qs, q.result.loc ≠ r.loc) : Amends M qs w₀ u := by
  refine ⟨writes.size.trans amends.size, Nat.le_trans amends.tags writes.tags, fun s lives => ?_,
    fun s key lives => ?_,
    fun q member living s key lives hears => ?_⟩
  · by_cases here : s.loc = r.loc
    · refine .inr ⟨here ▸ may, here ▸ other, fun q member living hears => ?_⟩
      rw [here, ← number] at hears ⊢
      exact writes.told q member living hears
    · rw [Heap.items_eq_of_cell? (writes.cells _ here lives)]
      refine (amends.items s (writes.alive _ lives)).imp_right fun ⟨may, apart, told⟩ =>
        ⟨may, apart, fun q member living hears => ?_⟩
      exact writes.waits _ nofun (told q member (writes.alive _ living) hears)
  · rw [writes.fields_eq lives]
    exact amends.names s key (writes.alive _ lives)
  · rw [writes.fields_eq lives, writes.fields]
    exact amends.fields q member (writes.alive _ living) s key (writes.alive _ lives) hears

/-- A field that is written has news of it waiting for those who hear of it, or its old value. -/
theorem sets {r : Ref} {key : String} {value old : Value} {size : Nat}
    (amends : Amends M qs w₀ w) (after : u.Sound M qs) (indexed : w.bus.queue.Indexed)
    (sets : w.Sets qs r key value old u) (number : r.id = r.loc + 1)
    (fits : value.Fits containers size) (positive : value.isNegativeZero = false)
    (olds : ∀ s : Ref, ∀ e ∈ w₀.heap.fields s,
      e.2.Fits containers size ∧ e.2.isNegativeZero = false) : Amends M qs w₀ u := by
  refine ⟨sets.size.trans amends.size, Nat.le_trans amends.tags sets.tags, fun s lives => ?_,
    fun s key' lives => ?_, fun q member living s key' lives hears => ?_⟩
  · rw [sets.items_eq lives, sets.waiting?_of_ne indexed (by simp)]
    exact (amends.items s (sets.alive _ lives)).imp_right fun ⟨may, apart, told⟩ =>
      ⟨may, apart, fun q member living => told q member (sets.alive _ living)⟩
  · rw [sets.contains_eq lives]
    exact amends.names s key' (sets.alive _ lives)
  · have before := amends.fields q member (sets.alive _ living) s key' (sets.alive _ lives) hears
    rw [sets.get?_eq lives]
    by_cases here : s.loc = r.loc ∧ key' = key
    · obtain ⟨l, i⟩ := s
      obtain ⟨⟨⟩, rfl⟩ := here
      rw [if_pos ⟨rfl, rfl⟩]
      have entered : u.bus.queue = w.bus.queue.enqueue ⟨r.id, .field key', value, old⟩ := by
        rcases sets.queue with ⟨-, unheard⟩ | entered
        · rw [number] at unheard
          rw [after.hasListeners member living hears] at unheard
          cases unheard
        · exact entered
      have waits :=
        indexed.waiting?_enqueue ⟨r.id, .field key', value, old⟩ (r.loc + 1, .field key')
      rw [← entered, if_pos (by rw [Event.pair, number])] at waits
      simp only [Event.pair, number] at waits
      -- The news that waited keeps its old value, so a write back to that value calls it off.
      rcases before with ⟨same, none⟩ | ⟨e, waited, first⟩
      · rw [none] at waits
        exact .inr ⟨_, waits, same.symm.trans sets.before⟩
      · simp only [waited] at waits
        obtain ⟨fits', positive'⟩ := olds _ _ (FieldMap.mem_of_get? first)
        split at waits
        · next back =>
          refine .inl ⟨?_, waits⟩
          rw [first, fits.eq_of_strictEq fits' positive positive' back]
        · exact .inr ⟨_, waits, first⟩
    · rw [if_neg here, sets.waiting?_of_ne indexed fun same => here ?_]
      · exact before
      · simp only [Prod.mk.injEq, EventKey.field.injEq] at same
        exact ⟨by omega, same.2⟩

/-- Once writes are accounted for, what was fresh is tracked. -/
theorem tracked (amends : Amends M qs w₀ w) (before : w₀.Sound M qs) (after : w.Sound M qs)
    {q : LiveQuery} (member : q ∈ qs) (living : w.heap.isAlive q.result.loc = true)
    (shallow : q.Shallow w₀.heap) (fresh : q.Fresh w₀.heap) : q.Tracked qs [] w := by
  obtain ⟨containers, fits⟩ := before.fits
  by_cases due : ∃ r, LiveQuery.Rests qs q r ∧ r.Due [] w
  · exact .inr due
  · have silent : ∀ r, LiveQuery.Rests qs q r → ∀ p, r.Hears p → p.2 ≠ .length →
        ¬(w.bus.queue.waiting? p).isSome = true := fun r rests p hears firm waits =>
      due ⟨r, rests, .inr ⟨p, hears, firm, .inr waits⟩⟩
    refine .inl (before.fresh_frame after member member living
      ((fits.queries q member).reads shallow)
      (before.heap_same after q (Nat.le_of_eq amends.size.symm) amends.tags
        fun r reaches lives => ?_) ?_ fresh)
    · refine ⟨?_, fun key => amends.names r key lives, fun key hears => ?_⟩
      · rcases amends.items r lives with same | ⟨may, -, told⟩
        · exact same
        · obtain ⟨s, rests, uses⟩ := reaches may
          have among := rests.mem member
          have hears := (fits.queries s among).hears_content uses
          exact absurd (told s among (after.alive_of_rests member living rests) hears)
            (silent s rests _ hears nofun)
      · rcases amends.fields q member living r key lives hears with ⟨same, -⟩ | ⟨e, waits, -⟩
        · exact same
        · exact absurd (by rw [waits]; rfl) (silent q (.self q) _ hears nofun)
    · rcases amends.items q.result living with same | ⟨-, other, -⟩
      · exact same
      · exact absurd rfl (other q member)

end Amends

end World

end ReactiveQuery
