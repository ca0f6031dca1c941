import ReactiveQuery.Change.Queue

/-! The queue as a map.  It is seen through the event that waits on each pair, and an arrival
touches its own pair alone. -/

namespace ReactiveQuery

namespace Queue

/-- The event that waits on a pair. -/
def waiting? (q : Queue) (pair : Nat × EventKey) : Option Event :=
  (q.index.lookup pair).bind q.slot?

/-- The index leads from each pair to the slot of its event and to no other. -/
structure Indexed (q : Queue) : Prop where
  slot : ∀ p i, q.index.lookup p = some i → ∃ e, q.slot? i = some e ∧ e.pair = p
  index : ∀ i e, q.slot? i = some e → q.index.lookup e.pair = some i

theorem indexed_empty : Indexed {} := ⟨nofun, fun i e found => by simp [slot?] at found⟩

section
variable {q : Queue} {e : Event} {p : Nat × EventKey}

theorem Indexed.pair_of_waiting? (indexed : q.Indexed) (waits : q.waiting? p = some e) :
    e.pair = p := by
  obtain ⟨i, listed, found⟩ := Option.bind_eq_some_iff.mp waits
  obtain ⟨e', found', same⟩ := indexed.slot p i listed
  rw [found, Option.some.injEq] at found'
  rw [found', same]

/-- The waiting events are those of the pairs. -/
theorem Indexed.mem_events (indexed : q.Indexed) :
    e ∈ q.events ↔ q.waiting? e.pair = some e := by
  simp only [events, List.mem_filterMap, id_eq, exists_eq_right, Array.mem_toList_iff]
  constructor
  · intro member
    obtain ⟨i, _, found⟩ := Array.mem_iff_getElem.mp member
    have found : q.slot? i = some e := by simp [slot?, *]
    rw [waiting?, indexed.index i e found]
    exact found
  · intro waits
    obtain ⟨i, -, found⟩ := Option.bind_eq_some_iff.mp waits
    rw [slot?, Option.join_eq_some_iff] at found
    exact Array.mem_of_getElem? found

theorem waiting?_of_isEmpty (none : q.isEmpty = true) : q.waiting? p = Option.none := by
  have bare : q.index = [] := List.isEmpty_iff.mp none
  simp [waiting?, bare]

theorem waiting?_empty (p : Nat × EventKey) : waiting? {} p = none := rfl

theorem lookup_filter_pair {index : List ((Nat × EventKey) × Nat)} (pair p : Nat × EventKey) :
    (index.filter (·.1 != pair)).lookup p = if p = pair then none else index.lookup p := by
  induction index with
  | nil => simp
  | cons entry rest ih =>
    obtain ⟨k, i⟩ := entry
    by_cases here : k = pair
    · subst here
      by_cases same : p = k
      · simpa [same] using ih
      · simpa [List.lookup_cons, beq_eq_false_iff_ne.mpr same, same] using ih
    · by_cases same : p = k
      · simp [here, same]
      · simp [List.lookup_cons, here, beq_eq_false_iff_ne.mpr same, ih]

/-- Pairs with the same slot are the same. -/
theorem Indexed.inj (indexed : q.Indexed) {p p' : Nat × EventKey} {i : Nat}
    (left : q.index.lookup p = some i) (right : q.index.lookup p' = some i) : p = p' := by
  obtain ⟨e, found, rfl⟩ := indexed.slot p i left
  obtain ⟨e', found', rfl⟩ := indexed.slot p' i right
  rw [found, Option.some.injEq] at found'
  rw [found']

theorem Indexed.lt_size (indexed : q.Indexed) {i : Nat} (listed : q.index.lookup p = some i) :
    i < q.slots.size := by
  obtain ⟨e, found, -⟩ := indexed.slot p i listed
  rw [slot?, Option.join_eq_some_iff] at found
  exact (Array.getElem?_eq_some_iff.mp found).1

theorem slot?_set {i : Nat} (inside : i < q.slots.size) (entry : Option Event)
    (index : List ((Nat × EventKey) × Nat)) (j : Nat) :
    slot? ⟨q.slots.setIfInBounds i entry, index⟩ j = if i = j then entry else q.slot? j := by
  simp only [slot?, Array.getElem?_setIfInBounds]
  by_cases here : i = j
  · subst here
    simp [inside]
  · simp [here]

/-- What waits on another pair waits in another slot. -/
theorem Indexed.waits_elsewhere (indexed : q.Indexed) {p' : Nat × EventKey} {i : Nat}
    (listed : q.index.lookup p = some i) (other : p' ≠ p) (entry : Option Event)
    (index : List ((Nat × EventKey) × Nat)) :
    ((q.index.lookup p').bind fun j => slot? ⟨q.slots.setIfInBounds i entry, index⟩ j) =
      q.waiting? p' := by
  rw [waiting?]
  cases found : q.index.lookup p' with
  | none => rfl
  | some j =>
    refine (slot?_set (indexed.lt_size listed) entry index j).trans (if_neg ?_)
    rintro rfl
    exact other (indexed.inj found listed)

theorem Indexed.push (indexed : q.Indexed) (absent : q.index.lookup e.pair = none) :
    Indexed ⟨q.slots.push (some e), (e.pair, q.slots.size) :: q.index⟩ ∧
      ∀ p, waiting? ⟨q.slots.push (some e), (e.pair, q.slots.size) :: q.index⟩ p =
        if p = e.pair then some e else q.waiting? p := by
  have slots : ∀ i, slot? ⟨q.slots.push (some e), (e.pair, q.slots.size) :: q.index⟩ i =
      if i = q.slots.size then some e else q.slot? i := fun i => by
    simp only [slot?, Array.getElem?_push]
    split <;> rfl
  refine ⟨⟨fun p i listed => ?_, fun i e' found => ?_⟩, fun p => ?_⟩
  · rw [List.lookup_cons] at listed
    split at listed
    · next same =>
      cases listed
      exact ⟨e, by rw [slots, if_pos rfl], (eq_of_beq same).symm⟩
    · have inside := indexed.lt_size listed
      obtain ⟨e', found, same⟩ := indexed.slot p i listed
      exact ⟨e', by rw [slots, if_neg (by omega), found], same⟩
  · rw [slots] at found
    split at found
    · next here =>
      cases found
      simp [here]
    · have listed := indexed.index i e' found
      have differs : (e'.pair == e.pair) = false := by
        refine beq_eq_false_iff_ne.mpr fun same => ?_
        rw [same, absent] at listed
        cases listed
      simpa [List.lookup_cons, differs] using listed
  · rw [waiting?, List.lookup_cons]
    split
    · next same => simp [eq_of_beq same, slots]
    · next differs =>
      have differs : p ≠ e.pair := by simpa using differs
      rw [if_neg differs, waiting?]
      cases listed : q.index.lookup p with
      | none => rfl
      | some i => exact (slots i).trans (if_neg (by have := indexed.lt_size listed; omega))

theorem Indexed.cancel (indexed : q.Indexed) {i : Nat} (listed : q.index.lookup p = some i) :
    Indexed ⟨q.slots.setIfInBounds i none, q.index.filter (·.1 != p)⟩ ∧
      ∀ p', waiting? ⟨q.slots.setIfInBounds i none, q.index.filter (·.1 != p)⟩ p' =
        if p' = p then none else q.waiting? p' := by
  have inside := indexed.lt_size listed
  have slots := slot?_set inside none (q.index.filter (·.1 != p))
  refine ⟨⟨fun p' j found => ?_, fun j e found => ?_⟩, fun p' => ?_⟩
  · rw [lookup_filter_pair] at found
    split at found
    · cases found
    · next other =>
      obtain ⟨e, here, same⟩ := indexed.slot p' j found
      refine ⟨e, ?_, same⟩
      rw [slots, if_neg, here]
      rintro rfl
      exact other (indexed.inj found listed)
  · rw [slots] at found
    split at found
    · cases found
    · next other =>
      have listed' := indexed.index j e found
      rw [lookup_filter_pair, if_neg, listed']
      rintro same
      rw [same, listed, Option.some.injEq] at listed'
      exact other listed'
  · rw [waiting?, lookup_filter_pair]
    split
    · rfl
    · next other => exact indexed.waits_elsewhere listed other _ _

theorem Indexed.revise (indexed : q.Indexed) {i : Nat} (listed : q.index.lookup p = some i)
    (same : e.pair = p) :
    Indexed ⟨q.slots.setIfInBounds i (some e), q.index⟩ ∧
      ∀ p', waiting? ⟨q.slots.setIfInBounds i (some e), q.index⟩ p' =
        if p' = p then some e else q.waiting? p' := by
  have inside := indexed.lt_size listed
  have slots := slot?_set inside (some e) q.index
  refine ⟨⟨fun p' j found => ?_, fun j e' found => ?_⟩, fun p' => ?_⟩
  · rw [slots]
    split
    · next here =>
      subst here
      exact ⟨e, rfl, same.trans (indexed.inj listed found)⟩
    · exact indexed.slot p' j found
  · rw [slots] at found
    split at found
    · next here =>
      cases found
      rw [same, ← here]
      exact listed
    · exact indexed.index j e' found
  · rw [waiting?]
    split
    · next here => simp [here, listed, slots]
    · next other => exact indexed.waits_elsewhere listed other _ _

theorem Indexed.enqueue_both (indexed : q.Indexed) :
    (q.enqueue e).Indexed ∧ ∀ p, (q.enqueue e).waiting? p =
      if p = e.pair then
        match q.waiting? e.pair with
        | none => some e
        | some old => if e.new.strictEq old.old then none else some { old with new := e.new }
      else q.waiting? p := by
  unfold enqueue
  cases listed : q.index.lookup e.pair with
  | none =>
    simp only [waiting?, listed, Option.bind_none]
    exact indexed.push listed
  | some i =>
    obtain ⟨old, found, same⟩ := indexed.slot _ i listed
    have waits : q.waiting? e.pair = some old := by rw [waiting?, listed]; exact found
    simp only [found, waits]
    split
    · exact indexed.cancel listed
    · exact indexed.revise listed same

/-- Queueing keeps the index. -/
theorem Indexed.enqueue (indexed : q.Indexed) (e : Event) : (q.enqueue e).Indexed :=
  indexed.enqueue_both.1

/-- What waits once an event has arrived. -/
theorem Indexed.waiting?_enqueue (indexed : q.Indexed) (e : Event) (p : Nat × EventKey) :
    (q.enqueue e).waiting? p =
      if p = e.pair then
        match q.waiting? e.pair with
        | none => some e
        | some old => if e.new.strictEq old.old then none else some { old with new := e.new }
      else q.waiting? p :=
  indexed.enqueue_both.2 p

end

end Queue

end ReactiveQuery
