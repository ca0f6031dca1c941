import Mathlib.Data.List.Induction
import Mathlib.Data.List.Nodup
import Mathlib.Data.List.Perm.Basic
import ReactiveQuery.Proofs.Change.Queue

/-! What becomes of the events that arrive one after the other.  An arrival opens an entry of its
pair, joins the one that waits, or cancels it; so in the end every arrival lies in one entry or in
one cancellation, and the queue holds the entries in the order in which they were opened. -/

namespace ReactiveQuery

/-- A waiting event, with the arrivals that it stands for. -/
structure Entry where
  event : Event
  arrivals : List Nat

def Entry.pair (x : Entry) : Nat × EventKey := x.event.pair

/-- The waiting entries in order, the arrivals that cancelled one another, and the number of all. -/
structure Reckoning where
  entries : List Entry := []
  cancelled : List (List Nat) := []
  count : Nat := 0

namespace Reckoning

/-- The entry of a pair. -/
def entryOf (r : Reckoning) (pair : Nat × EventKey) : Option Entry :=
  r.entries.find? (·.pair == pair)

/-- An arrival that joins what waits on its pair. -/
def join (e : Event) (n : Nat) (x : Entry) : Entry :=
  if x.pair == e.pair then ⟨{ x.event with new := e.new }, x.arrivals ++ [n]⟩ else x

/-- An event arrives. -/
def arrive (r : Reckoning) (e : Event) : Reckoning :=
  match r.entryOf e.pair with
  | none => ⟨r.entries ++ [⟨e, [r.count]⟩], r.cancelled, r.count + 1⟩
  | some x =>
    if e.new.strictEq x.event.old then
      ⟨r.entries.filter (·.pair != e.pair), r.cancelled ++ [x.arrivals ++ [r.count]], r.count + 1⟩
    else ⟨r.entries.map (join e r.count), r.cancelled, r.count + 1⟩

/-- What becomes of events that arrive one after the other. -/
def of (es : List Event) : Reckoning := es.foldl arrive {}

/-- The waiting events. -/
def events (r : Reckoning) : List Event := r.entries.map (·.event)

@[simp] theorem of_nil : of [] = {} := rfl

@[simp] theorem of_append_singleton (es : List Event) (e : Event) :
    of (es ++ [e]) = (of es).arrive e := by
  simp [of]

/-- Arrivals on one pair, the last of which brings something and the first of which found
something. -/
structure Group (es : List Event) (pair : Nat × EventKey) (old new : Value) (arrivals : List Nat) :
    Prop where
  pair : ∀ i ∈ arrivals, ∃ e, es[i]? = some e ∧ e.pair = pair
  first : ∃ i e, arrivals.head? = some i ∧ es[i]? = some e ∧ e.old = old
  last : ∃ i e, arrivals.getLast? = some i ∧ es[i]? = some e ∧ e.new = new

/-- What the entries and cancellations of events have to be: each arrival is in one of them, an
entry reports the net change of its arrivals, and what was cancelled has gone back. -/
structure Accounts (es : List Event) (r : Reckoning) : Prop where
  count : r.count = es.length
  distinct : (r.entries.map Entry.pair).Nodup
  once : (r.entries.flatMap (·.arrivals) ++ r.cancelled.flatten).Perm (List.range es.length)
  entry : ∀ x ∈ r.entries, Group es x.pair x.event.old x.event.new x.arrivals
  cancelled : ∀ g ∈ r.cancelled, ∃ pair old new,
    Group es pair old new g ∧ new.strictEq old = true

section
variable {es : List Event} {e : Event} {r : Reckoning} {x : Entry}

theorem Group.later {pair : Nat × EventKey} {old new : Value} {arrivals : List Nat}
    (group : Group es pair old new arrivals) (e : Event) :
    Group (es ++ [e]) pair old new arrivals := by
  have still : ∀ i d, es[i]? = some d → (es ++ [e])[i]? = some d := fun i d found => by
    rw [List.getElem?_append_left (List.getElem?_eq_some_iff.mp found).1, found]
  refine ⟨fun i member => ?_, ?_, ?_⟩
  · obtain ⟨d, found, same⟩ := group.pair i member
    exact ⟨d, still i d found, same⟩
  · obtain ⟨i, d, head, found, same⟩ := group.first
    exact ⟨i, d, head, still i d found, same⟩
  · obtain ⟨i, d, last, found, same⟩ := group.last
    exact ⟨i, d, last, still i d found, same⟩

/-- The next arrival joins a group of its pair. -/
theorem Group.join {pair : Nat × EventKey} {old new : Value} {arrivals : List Nat}
    (group : Group es pair old new arrivals) (same : e.pair = pair) :
    Group (es ++ [e]) pair old e.new (arrivals ++ [es.length]) := by
  have here : (es ++ [e])[es.length]? = some e := List.getElem?_concat_length
  obtain ⟨pairs, ⟨i, d, head, found, first⟩, -⟩ := group.later e
  refine ⟨fun j member => ?_, ⟨i, d, by simp [head], found, first⟩, ?_⟩
  · rcases List.mem_append.mp member with old | new
    · exact pairs j old
    · exact ⟨e, by rw [List.mem_singleton.mp new, here], same⟩
  · exact ⟨es.length, e, by simp, here, rfl⟩

theorem Group.single (es : List Event) (e : Event) :
    Group (es ++ [e]) e.pair e.old e.new [es.length] := by
  have here : (es ++ [e])[es.length]? = some e := List.getElem?_concat_length
  exact ⟨fun i member => ⟨e, by rw [List.mem_singleton.mp member, here], rfl⟩,
    ⟨_, e, rfl, here, rfl⟩, ⟨_, e, rfl, here, rfl⟩⟩

theorem entryOf_eq_some {pair : Nat × EventKey} (found : r.entryOf pair = some x) :
    x ∈ r.entries ∧ x.pair = pair :=
  ⟨List.mem_of_find?_eq_some found, by simpa using List.find?_some found⟩

theorem entryOf_eq_none {pair : Nat × EventKey} :
    r.entryOf pair = none ↔ ∀ x ∈ r.entries, x.pair ≠ pair := by
  simp [entryOf]

/-- The entry of a pair and the others are all. -/
theorem perm_of_entryOf {pair : Nat × EventKey} (distinct : (r.entries.map Entry.pair).Nodup)
    (found : r.entryOf pair = some x) :
    r.entries.Perm (x :: r.entries.filter (·.pair != pair)) := by
  obtain ⟨member, rfl⟩ := entryOf_eq_some found
  obtain ⟨before, after, split⟩ := List.append_of_mem member
  rw [split] at distinct ⊢
  simp only [List.map_append, List.map_cons, List.nodup_append, List.nodup_cons, List.mem_map,
    List.mem_cons] at distinct
  obtain ⟨-, ⟨fresh, -⟩, apart⟩ := distinct
  have keeps : ∀ y ∈ before ++ after, (y.pair != x.pair) = true := fun y member => by
    rcases List.mem_append.mp member with first | last
    · simpa using apart _ ⟨y, first, rfl⟩ x.pair (.inl rfl)
    · simpa using fun same => fresh ⟨y, last, same⟩
  have others : (before ++ x :: after).filter (·.pair != x.pair) = before ++ after := by
    rw [List.filter_append, List.filter_cons, if_neg (by simp), ← List.filter_append]
    exact List.filter_eq_self.mpr keeps
  rw [others]
  exact List.perm_middle

theorem pair_join (e : Event) (n : Nat) (x : Entry) : (join e n x).pair = x.pair := by
  unfold join
  split <;> rfl

/-- An arrival joins no entry of another pair. -/
theorem map_join_filter (e : Event) (n : Nat) (entries : List Entry) :
    (entries.filter (·.pair != e.pair)).map (join e n) = entries.filter (·.pair != e.pair) := by
  refine (List.map_congr_left fun x member => ?_).trans (List.map_id _)
  have other : (x.pair == e.pair) = false := by simpa using (List.mem_filter.mp member).2
  simp [join, other]

/-- The arrivals of an entry and those of the others are all that wait. -/
theorem arrivals_perm_of_entryOf {pair : Nat × EventKey}
    (distinct : (r.entries.map Entry.pair).Nodup) (found : r.entryOf pair = some x) :
    (r.entries.flatMap (·.arrivals)).Perm
      (x.arrivals ++ (r.entries.filter (·.pair != pair)).flatMap (·.arrivals)) :=
  (perm_of_entryOf distinct found).flatMap_right _

theorem arrivals_map_join_perm (distinct : (r.entries.map Entry.pair).Nodup)
    (found : r.entryOf e.pair = some x) (n : Nat) :
    ((r.entries.map (join e n)).flatMap (·.arrivals)).Perm
      (x.arrivals ++ [n] ++ (r.entries.filter (·.pair != e.pair)).flatMap (·.arrivals)) := by
  have joined : join e n x = ⟨{ x.event with new := e.new }, x.arrivals ++ [n]⟩ := by
    simp [join, (entryOf_eq_some found).2]
  have all := ((perm_of_entryOf distinct found).map (join e n)).flatMap_right (·.arrivals)
  rwa [List.map_cons, map_join_filter, List.flatMap_cons, joined] at all

theorem Accounts.open (accounts : Accounts es r) (fresh : ∀ x ∈ r.entries, x.pair ≠ e.pair) :
    Accounts (es ++ [e]) ⟨r.entries ++ [⟨e, [r.count]⟩], r.cancelled, r.count + 1⟩ := by
  obtain ⟨count, distinct, once, entry, cancelled⟩ := accounts
  refine ⟨by simp [count], ?_, ?_, fun x member => ?_, fun g member => ?_⟩
  · rw [List.map_append]
    refine List.Nodup.append distinct (List.nodup_singleton _) ?_
    simpa [List.disjoint_singleton, Entry.pair] using fresh
  · rw [List.length_append, List.length_singleton, List.range_succ, List.flatMap_append,
      List.append_assoc, count]
    refine (List.Perm.append_left _ List.perm_append_comm).trans ?_
    rw [← List.append_assoc]
    exact once.append_right _
  · rcases List.mem_append.mp member with old | new
    · exact (entry x old).later e
    · rw [List.mem_singleton.mp new, count]
      exact .single es e
  · obtain ⟨pair, old, new, group, back⟩ := cancelled g member
    exact ⟨pair, old, new, group.later e, back⟩

theorem Accounts.cancel (accounts : Accounts es r) (found : r.entryOf e.pair = some x)
    (back : e.new.strictEq x.event.old = true) :
    Accounts (es ++ [e]) ⟨r.entries.filter (·.pair != e.pair),
      r.cancelled ++ [x.arrivals ++ [r.count]], r.count + 1⟩ := by
  obtain ⟨count, distinct, once, entry, cancelled⟩ := accounts
  obtain ⟨inside, same⟩ := entryOf_eq_some found
  refine ⟨by simp [count], ?_, ?_, fun y member => ?_, fun g member => ?_⟩
  · exact distinct.sublist (List.filter_sublist.map _)
  · rw [List.length_append, List.length_singleton, List.range_succ, List.flatten_append,
      List.flatten_singleton, ← count, ← List.append_assoc, ← List.append_assoc]
    refine List.Perm.append_right _ ?_
    rw [count]
    refine .trans ?_ once
    refine .trans ?_ ((arrivals_perm_of_entryOf distinct found).symm.append_right _)
    refine List.perm_append_comm.trans ?_
    rw [List.append_assoc]
  · exact (entry y (List.mem_filter.mp member).1).later e
  · rcases List.mem_append.mp member with old | new
    · obtain ⟨pair, old, new, group, back⟩ := cancelled g old
      exact ⟨pair, old, new, group.later e, back⟩
    · rw [List.mem_singleton.mp new, count]
      exact ⟨x.pair, _, _, (entry x inside).join same.symm, back⟩

theorem Accounts.join (accounts : Accounts es r) (found : r.entryOf e.pair = some x) :
    Accounts (es ++ [e]) ⟨r.entries.map (Reckoning.join e r.count), r.cancelled, r.count + 1⟩ := by
  obtain ⟨count, distinct, once, entry, cancelled⟩ := accounts
  refine ⟨by simp [count], ?_, ?_, fun y member => ?_, fun g member => ?_⟩
  · rw [List.map_map]
    exact (List.map_congr_left fun x _ => pair_join e r.count x) ▸ distinct
  · rw [List.length_append, List.length_singleton, List.range_succ]
    refine ((arrivals_map_join_perm distinct found r.count).append_right _).trans ?_
    refine .trans ?_ (once.append_right _)
    refine .trans ?_
      (((arrivals_perm_of_entryOf distinct found).symm.append_right _).append_right _)
    simp only [List.append_assoc, count]
    refine List.Perm.append_left _ (List.perm_append_comm.trans ?_)
    rw [List.append_assoc]
  · obtain ⟨z, inside, rfl⟩ := List.mem_map.mp member
    have group := entry z inside
    unfold Reckoning.join
    split
    · next same =>
      rw [count]
      exact group.join (beq_iff_eq.mp same).symm
    · exact group.later e
  · obtain ⟨pair, old, new, group, back⟩ := cancelled g member
    exact ⟨pair, old, new, group.later e, back⟩

/-- One more arrival is accounted for. -/
theorem Accounts.arrive (accounts : Accounts es r) (e : Event) :
    Accounts (es ++ [e]) (r.arrive e) := by
  unfold Reckoning.arrive
  cases found : r.entryOf e.pair with
  | none => exact accounts.open (entryOf_eq_none.mp found)
  | some x =>
    dsimp only
    split
    · next back => exact accounts.cancel found back
    · exact accounts.join found

/-- All arrivals are accounted for. -/
theorem accounts_of (es : List Event) : Accounts es (of es) := by
  induction es using List.reverseRecOn with
  | nil => exact ⟨rfl, List.nodup_nil, .refl _, nofun, nofun⟩
  | append_singleton es e ih =>
    rw [of_append_singleton]
    exact ih.arrive e

end

end Reckoning

namespace Queue

/-- A queue holds the waiting events of a reckoning, in their order. -/
structure Holds (q : Queue) (r : Reckoning) : Prop where
  indexed : q.Indexed
  events : q.events = r.events

section
variable {q : Queue} {r : Reckoning} {e : Event} {p : Nat × EventKey}

theorem holds_empty : Holds {} {} := ⟨indexed_empty, rfl⟩

theorem Holds.waiting?_of_mem (holds : q.Holds r) {x : Entry} (member : x ∈ r.entries) :
    q.waiting? x.pair = some x.event := by
  rw [Entry.pair, ← holds.indexed.mem_events, holds.events]
  exact List.mem_map_of_mem member

/-- The entry of a pair holds the event that waits there. -/
theorem Holds.waiting? (holds : q.Holds r) (p : Nat × EventKey) :
    q.waiting? p = (r.entryOf p).map (·.event) := by
  cases found : r.entryOf p with
  | some x =>
    obtain ⟨member, rfl⟩ := Reckoning.entryOf_eq_some found
    exact holds.waiting?_of_mem member
  | none =>
    refine Option.eq_none_iff_forall_ne_some.mpr fun d waits => ?_
    have pair := holds.indexed.pair_of_waiting? waits
    rw [← pair, ← holds.indexed.mem_events, holds.events] at waits
    obtain ⟨x, member, rfl⟩ := List.mem_map.mp waits
    exact Reckoning.entryOf_eq_none.mp found x member pair

theorem events_push (e : Option Event) (index : List ((Nat × EventKey) × Nat)) :
    Queue.events ⟨q.slots.push e, index⟩ = q.events ++ e.toList := by
  cases e <;> simp [Queue.events]

/-- Writing to the slot of a pair writes to its event alone. -/
theorem Indexed.events_set (indexed : q.Indexed) {i : Nat} (listed : q.index.lookup p = some i)
    (entry : Option Event) (index : List ((Nat × EventKey) × Nat)) :
    Queue.events ⟨q.slots.setIfInBounds i entry, index⟩ =
      q.events.filterMap fun d => if d.pair = p then entry else some d := by
  have slots : (q.slots.setIfInBounds i entry).toList =
      q.slots.toList.map fun o => o.bind fun d => if d.pair = p then entry else some d := by
    refine List.ext_getElem? fun j => ?_
    rw [List.getElem?_map, Array.getElem?_toList, Array.getElem?_toList,
      Array.getElem?_setIfInBounds]
    obtain ⟨w, here, pair⟩ := indexed.slot p i listed
    rw [slot?, Option.join_eq_some_iff] at here
    by_cases same : i = j
    · subst same
      rw [if_pos rfl, if_pos (indexed.lt_size listed), here]
      simp [pair]
    · rw [if_neg same]
      rcases there : q.slots[j]? with _ | _ | d
      · rfl
      · rfl
      · have other : d.pair ≠ p := fun pair => same <| by
          have listed' := indexed.index j d (by rw [slot?, there]; rfl)
          rwa [pair, listed, Option.some.injEq] at listed'
        simp [other]
  simp only [Queue.events, slots, List.filterMap_map, List.filterMap_filterMap]
  rfl

/-- The queue goes along with the reckoning. -/
theorem Holds.enqueue (holds : q.Holds r) (e : Event) : (q.enqueue e).Holds (r.arrive e) := by
  refine ⟨holds.indexed.enqueue e, ?_⟩
  have waits := holds.waiting? e.pair
  unfold Queue.enqueue Reckoning.arrive
  cases listed : q.index.lookup e.pair with
  | none =>
    rw [Queue.waiting?, listed] at waits
    have none : r.entryOf e.pair = none := Option.map_eq_none_iff.mp waits.symm
    simp [none, events_push, holds.events, Reckoning.events]
  | some i =>
    obtain ⟨w, here, pair⟩ := holds.indexed.slot _ i listed
    rw [Queue.waiting?, listed, Option.bind_some, here] at waits
    obtain ⟨x, found, rfl⟩ := Option.map_eq_some_iff.mp waits.symm
    -- One entry at most waits for a pair, so joining by pair touches only that one.
    have only : ∀ y ∈ r.entries, y.pair = e.pair → y.event = x.event := fun y member same => by
      have there := holds.waiting?_of_mem member
      rw [same, holds.waiting? e.pair, found] at there
      exact (Option.some.inj there).symm
    simp only [here, found]
    split
    · rw [holds.indexed.events_set listed, holds.events, Reckoning.events, List.filterMap_map,
        Reckoning.events, ← List.filterMap_eq_map, List.filterMap_filter]
      refine List.filterMap_congr fun y _ => ?_
      by_cases same : y.event.pair = e.pair <;> simp [Entry.pair, same]
    · rw [holds.indexed.events_set listed, holds.events, Reckoning.events, List.filterMap_map,
        Reckoning.events, List.map_map, ← List.filterMap_eq_map]
      refine List.filterMap_congr fun y member => ?_
      by_cases same : y.pair = e.pair
      · have same' : y.event.pair = e.pair := same
        simp [Reckoning.join, same, pair, only y member same]
      · have same' : y.event.pair ≠ e.pair := same
        simp [Reckoning.join, same, same']

theorem Holds.foldl_enqueue (holds : q.Holds r) (es : List Event) :
    (es.foldl Queue.enqueue q).Holds (es.foldl Reckoning.arrive r) := by
  induction es generalizing q r with
  | nil => exact holds
  | cons e es ih => exact ih (holds.enqueue e)

/-- A queue is empty when no event waits in it. -/
theorem Indexed.isEmpty_iff (indexed : q.Indexed) : q.isEmpty = true ↔ q.events = [] := by
  constructor
  · intro empty
    refine List.eq_nil_iff_forall_not_mem.mpr fun e member => ?_
    rw [indexed.mem_events, waiting?_of_isEmpty empty] at member
    cases member
  · intro none
    cases listed : q.index with
    | nil => simp [isEmpty, listed]
    | cons entry rest =>
      obtain ⟨e, found, pair⟩ := indexed.slot entry.1 entry.2 (by
        rw [listed, List.lookup_cons, beq_self_eq_true])
      have member : e ∈ q.events := by
        rw [indexed.mem_events, Queue.waiting?, indexed.index _ e found]
        exact found
      simp [none] at member

/-- A queue in which nothing waits is as good as a new one, whatever slots it has left behind. -/
theorem Indexed.holds_of_isEmpty (indexed : q.Indexed) (empty : q.isEmpty = true) : q.Holds {} :=
  ⟨indexed, indexed.isEmpty_iff.mp empty⟩

theorem Holds.events_of_isEmpty (holds : q.Holds r) (empty : q.isEmpty = true) : r.events = [] :=
  holds.events.symm.trans (holds.indexed.isEmpty_iff.mp empty)

end

end Queue

end ReactiveQuery
