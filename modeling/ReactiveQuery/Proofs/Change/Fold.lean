import ReactiveQuery.Engine.Dispatch
import ReactiveQuery.Proofs.Change.Reckoning

/-! Calls to a queue, one after the other.  The index and the slots stay in step through all of
them, and what a take hands out is the list of the waiting events, kept by a plain fold. -/

namespace ReactiveQuery

/-- A call that queues an event, or one that takes all that wait. -/
inductive Queue.Call where
  | enqueue (e : Event)
  | take

namespace Event

variable {e d : Event} {waiting : List Event}

/-- An event joins those that wait.  The first on its pair goes to the end.  A later one cancels
what waits there when it brings back the old value, else it only brings the new one. -/
def settle (e : Event) : List Event → List Event
  | [] => [e]
  | d :: rest =>
    if d.pair = e.pair then
      if e.new.strictEq d.old then rest else { d with new := e.new } :: rest
    else d :: e.settle rest

theorem settle_of_fresh (fresh : ∀ d ∈ waiting, d.pair ≠ e.pair) :
    e.settle waiting = waiting ++ [e] := by
  induction waiting with
  | nil => rfl
  | cons d rest ih =>
    rw [settle, if_neg (fresh d List.mem_cons_self), List.cons_append,
      ih fun d member => fresh d (List.mem_cons_of_mem _ member)]

/-- Where the pairs are distinct, joining touches the event of the pair alone. -/
theorem settle_of_mem (distinct : (waiting.map Event.pair).Nodup) (member : d ∈ waiting)
    (same : d.pair = e.pair) :
    e.settle waiting = waiting.filterMap fun x =>
      if x.pair = e.pair then if e.new.strictEq d.old then none else some { d with new := e.new }
      else some x := by
  induction waiting with
  | nil => cases member
  | cons x rest ih =>
    obtain ⟨alone, distinct⟩ := List.nodup_cons.mp distinct
    rw [settle, List.filterMap_cons]
    rcases List.mem_cons.mp member with rfl | later
    · have untouched : (rest.filterMap fun x =>
          if x.pair = e.pair then
            if e.new.strictEq d.old then none else some { d with new := e.new }
          else some x) = rest := by
        refine (List.filterMap_congr fun x inside => if_neg fun meets => ?_).trans
          List.filterMap_some
        exact alone (same ▸ meets ▸ List.mem_map_of_mem inside)
      rw [if_pos same, if_pos same, untouched]
      split <;> rfl
    · have other : x.pair ≠ e.pair := fun meets =>
        alone (meets ▸ same ▸ List.mem_map_of_mem later)
      rw [if_neg other, if_neg other, ih distinct later]

end Event

namespace Queue

/-- What a call makes of the events that wait. -/
def Call.fold (waiting : List Event) : Call → List Event
  | .enqueue e => e.settle waiting
  | .take => []

/-- The events that wait after calls. -/
def Call.waitingAfter (calls : List Call) : List Event := calls.foldl Call.fold []

variable {q : Queue} {waiting : List Event}

/-- What a call hands out, and the queue that it leaves. -/
def perform (q : Queue) : Call → List Event × Queue
  | .enqueue e => ([], q.enqueue e)
  | .take => (q.events, {})

/-- The queue after calls, from an empty one. -/
def after (calls : List Call) : Queue := calls.foldl (fun q call => (q.perform call).2) {}

/-- No two events wait on one pair. -/
theorem Indexed.nodup_events (indexed : q.Indexed) : (q.events.map Event.pair).Nodup := by
  rw [List.Nodup, List.pairwise_map, events, List.pairwise_filterMap, List.pairwise_iff_getElem]
  intro i j first second before d here e there same
  have slot (k : Nat) (inside : k < q.slots.toList.length) (x : Event)
      (holds : q.slots.toList[k] = some x) : q.slot? k = some x := by
    rw [slot?, ← Array.getElem?_toList, List.getElem?_eq_getElem inside, holds]
    rfl
  have left := indexed.index i d (slot i first d here)
  have right := indexed.index j e (slot j second e there)
  rw [same, right, Option.some.injEq] at left
  omega

/-- Queueing is joining the events that wait. -/
theorem Indexed.events_enqueue (indexed : q.Indexed) (e : Event) :
    (q.enqueue e).events = e.settle q.events := by
  unfold Queue.enqueue
  cases listed : q.index.lookup e.pair with
  | none =>
    rw [events_push, Option.toList_some, Event.settle_of_fresh]
    intro d member same
    rw [indexed.mem_events, same, waiting?, listed] at member
    cases member
  | some i =>
    obtain ⟨d, here, same⟩ := indexed.slot _ i listed
    have member : d ∈ q.events := by
      rw [indexed.mem_events, same, waiting?, listed]
      exact here
    rw [Event.settle_of_mem indexed.nodup_events member same]
    simp only [here]
    split
    · rw [indexed.events_set listed]
    · rw [indexed.events_set listed]

section
variable {index : List ((Nat × EventKey) × Nat)} {p : Nat × EventKey} {i : Nat}

theorem lookup_eq_none_iff : index.lookup p = none ↔ p ∉ index.map (·.1) := by
  rw [List.lookup_eq_none_iff]
  constructor
  · rintro differs listed
    obtain ⟨entry, member, rfl⟩ := List.mem_map.mp listed
    simpa using differs entry member
  · intro absent entry member
    refine bne_iff_ne.mpr ?_
    rintro rfl
    exact absent (List.mem_map_of_mem member)

/-- In an index that lists no pair twice, what stands there is what is found. -/
theorem lookup_eq_some_iff (once : (index.map (·.1)).Nodup) :
    index.lookup p = some i ↔ (p, i) ∈ index := by
  rw [List.lookup_eq_some_iff]
  constructor
  · rintro ⟨before, later, rfl, -⟩
    simp
  · intro member
    obtain ⟨before, later, rfl⟩ := List.append_of_mem member
    refine ⟨before, later, rfl, fun entry earlier => bne_iff_ne.mpr fun same => ?_⟩
    rw [List.map_append, List.map_cons, List.nodup_append] at once
    exact once.2.2 entry.1 (List.mem_map_of_mem earlier) p List.mem_cons_self same.symm

end

/-- A queue keeps what waits: the index leads to it, and lists each pair once. -/
structure Keeps (q : Queue) (waiting : List Event) : Prop where
  indexed : q.Indexed
  once : (q.index.map (·.1)).Nodup
  events : q.events = waiting

theorem keeps_empty : Keeps {} [] := ⟨indexed_empty, List.nodup_nil, rfl⟩

namespace Keeps

/-- An event arrives on both sides. -/
theorem enqueue (keeps : q.Keeps waiting) (e : Event) : (q.enqueue e).Keeps (e.settle waiting) := by
  refine ⟨keeps.indexed.enqueue e, ?_, keeps.events ▸ keeps.indexed.events_enqueue e⟩
  unfold Queue.enqueue
  split
  · next fresh => exact List.nodup_cons.mpr ⟨lookup_eq_none_iff.mp fresh, keeps.once⟩
  · split
    · exact keeps.once
    · split
      · exact keeps.once.sublist (List.filter_sublist.map _)
      · exact keeps.once

theorem perform (keeps : q.Keeps waiting) (call : Call) :
    (q.perform call).2.Keeps (Call.fold waiting call) := by
  cases call with
  | enqueue e => exact keeps.enqueue e
  | take => exact keeps_empty

/-- An entry leads to the slot of an event on its pair. -/
theorem slot (keeps : q.Keeps waiting) {p : Nat × EventKey} {i : Nat}
    (member : (p, i) ∈ q.index) : ∃ e, q.slots[i]? = some (some e) ∧ e.pair = p := by
  obtain ⟨e, found, same⟩ := keeps.indexed.slot p i ((lookup_eq_some_iff keeps.once).mpr member)
  exact ⟨e, Option.join_eq_some_iff.mp found, same⟩

/-- To a slot that is taken an entry leads. -/
theorem entry (keeps : q.Keeps waiting) {i : Nat} {e : Event}
    (taken : q.slots[i]? = some (some e)) : (e.pair, i) ∈ q.index :=
  (lookup_eq_some_iff keeps.once).mp (keeps.indexed.index i e (Option.join_eq_some_iff.mpr taken))

theorem nodup_slots (keeps : q.Keeps waiting) : (q.index.map (·.2)).Nodup := by
  refine (List.nodup_map_iff_inj_on keeps.once.of_map).mpr ?_
  rintro ⟨p, i⟩ here ⟨p', i'⟩ there (rfl : i = i')
  rw [← lookup_eq_some_iff keeps.once] at here there
  rw [keeps.indexed.inj here there]

/-- There are as many entries as events that wait. -/
theorem size_eq (keeps : q.Keeps waiting) : q.size = q.events.length := by
  have same : (q.index.map (·.1)).Perm (q.events.map Event.pair) := by
    refine (List.perm_ext_iff_of_nodup keeps.once keeps.indexed.nodup_events).mpr fun p => ?_
    constructor
    · intro listed
      obtain ⟨⟨p, i⟩, member, rfl⟩ := List.mem_map.mp listed
      obtain ⟨e, taken, same⟩ := keeps.slot member
      have inside : some e ∈ q.slots.toList := List.mem_of_getElem? (i := i) (by simpa using taken)
      exact List.mem_map.mpr ⟨e, List.mem_filterMap.mpr ⟨some e, inside, rfl⟩, same⟩
    · intro listed
      obtain ⟨e, member, rfl⟩ := List.mem_map.mp listed
      obtain ⟨_, member, rfl⟩ := List.mem_filterMap.mp member
      obtain ⟨i, taken⟩ := List.mem_iff_getElem?.mp member
      exact List.mem_map_of_mem (f := (·.1)) (keeps.entry (by simpa using taken))
  simpa [size] using same.length_eq

theorem size_eq_countP (keeps : q.Keeps waiting) : q.size = q.slots.countP (·.isSome) := by
  rw [keeps.size_eq, Queue.events, List.length_filterMap_eq_countP, Array.countP_toList]
  rfl

end Keeps

theorem keeps_after (calls : List Call) : (after calls).Keeps (Call.waitingAfter calls) :=
  List.foldl_rel (r := Keeps) keeps_empty fun call _ _ _ keeps => keeps.perform call

/-- How a queue stands that holds these waiting events. -/
structure Stands (q : Queue) (waiting : List Event) : Prop where
  once : (q.index.map (·.1)).Nodup
  slot : ∀ p i, (p, i) ∈ q.index → ∃ e, q.slots[i]? = some (some e) ∧ e.pair = p
  apart : (q.index.map (·.2)).Nodup
  bare : ∀ i, i < q.slots.size → i ∉ q.index.map (·.2) → q.slots[i]? = some none
  reached : ∀ (e : Event) i, q.index.lookup e.pair = some i →
    ∃ d, q.slot? i = some d ∧ d.pair = e.pair
  size : q.size = q.slots.countP (·.isSome)
  isEmpty : q.isEmpty = true ↔ ∀ i, i < q.slots.size → q.slots[i]? = some none
  take : q.perform .take = (waiting, {})

/-- After any calls the index and the slots are in step, an event that finds an entry finds an event
to merge with, and a take hands out what the fold has kept. -/
theorem stands_after (calls : List Call) : (after calls).Stands (Call.waitingAfter calls) := by
  have keeps := keeps_after calls
  have bare : ∀ i, i < (after calls).slots.size → i ∉ (after calls).index.map (·.2) →
      (after calls).slots[i]? = some none := by
    intro i inside absent
    rw [Array.getElem?_eq_getElem inside]
    rcases taken : (after calls).slots[i] with _ | e
    · rfl
    · refine absurd (List.mem_map_of_mem (f := (·.2)) (keeps.entry (i := i) (e := e) ?_)) absent
      rw [Array.getElem?_eq_getElem inside, taken]
  exact {
    once := keeps.once
    slot := fun _ _ member => keeps.slot member
    apart := keeps.nodup_slots
    bare := bare
    reached := fun e i listed => keeps.indexed.slot e.pair i listed
    size := keeps.size_eq_countP
    isEmpty := by
      rw [isEmpty, List.isEmpty_iff]
      constructor
      · intro none i inside
        exact bare i inside (by simp [none])
      · intro free
        refine List.eq_nil_iff_forall_not_mem.mpr fun entry member => ?_
        obtain ⟨e, taken, -⟩ := keeps.slot member
        have inside := (Array.getElem?_eq_some_iff.mp taken).1
        simp [free _ inside] at taken
    take := by rw [Queue.perform, keeps.events] }

end Queue

namespace Act

/-- A cycle delivers what a take hands out, and goes on with the queue that a take leaves. -/
theorem cycles_succ (call : Caller) (dispatch : Act Unit) (perform : Command → Act Reply)
    (count : Nat) :
    cycles call dispatch perform (count + 1) = (do
      let queue := (← get).bus.queue
      unless queue.isEmpty do
        let taken := queue.perform .take
        changeBus ({ · with queue := taken.2 })
        holding (taken.1.flatMap Event.values) (deliver perform taken.1)
        flush call dispatch perform
        cycles call dispatch perform count) :=
  rfl

end Act

end ReactiveQuery
