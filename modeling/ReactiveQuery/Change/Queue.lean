import ReactiveQuery.Change.Event

/-! Events that wait for dispatch, at most one for each target and key. -/

namespace ReactiveQuery

def Event.pair (e : Event) : Nat × EventKey := (e.target, e.key)

/-- Slots in order of arrival, empty once their event is cancelled, and the slot of each pair. -/
structure Queue where
  slots : Array (Option Event) := #[]
  index : List ((Nat × EventKey) × Nat) := []

namespace Queue

def slot? (q : Queue) (i : Nat) : Option Event := (q.slots[i]?).join

/-- Queues an event.  An event on a waiting pair changes what the waiting one reports; one that
goes back to the old value cancels it. -/
def enqueue (q : Queue) (e : Event) : Queue :=
  match q.index.lookup e.pair with
  | none => ⟨q.slots.push (some e), (e.pair, q.slots.size) :: q.index⟩
  | some i =>
    match q.slot? i with
    | none => q
    | some waiting =>
      if e.new.strictEq waiting.old then
        ⟨q.slots.setIfInBounds i none, q.index.filter (·.1 != e.pair)⟩
      else ⟨q.slots.setIfInBounds i (some { waiting with new := e.new }), q.index⟩

/-- The waiting events in order. -/
def events (q : Queue) : List Event := q.slots.toList.filterMap id

def size (q : Queue) : Nat := q.index.length

def isEmpty (q : Queue) : Bool := q.index.isEmpty

end Queue

end ReactiveQuery
