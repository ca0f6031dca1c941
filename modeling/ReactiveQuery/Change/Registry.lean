import ReactiveQuery.Change.Event

/-! Listeners by topic.  A topic without listeners has no entry.  Adding and removing are told by
the listeners of every topic afterwards. -/

namespace ReactiveQuery

/-- The listeners of each topic in order of registration. -/
structure Registry where
  entries : List (Topic × List Nat) := []

namespace Registry

/-- The listeners registered on exactly this topic. -/
def on (r : Registry) (topic : Topic) : List Nat := (r.entries.lookup topic).getD []

/-- Gives a topic its listeners; with none, the topic loses its entry. -/
def put (r : Registry) (topic : Topic) (listeners : List Nat) : Registry :=
  let others := r.entries.filter (·.1 != topic)
  if listeners.isEmpty then ⟨others⟩ else ⟨(topic, listeners) :: others⟩

/-- Registers a listener, once on each topic: was it new there? -/
def add (r : Registry) (s : Subscription) : Bool × Registry :=
  if (r.on s.topic).contains s.listener then (false, r)
  else (true, r.put s.topic (r.on s.topic ++ [s.listener]))

/-- Undoes a registration: was there one? -/
def remove (r : Registry) (s : Subscription) : Bool × Registry :=
  if (r.on s.topic).contains s.listener then
    (true, r.put s.topic ((r.on s.topic).erase s.listener))
  else (false, r)

/-- The listeners that an event reaches, in the order in which they hear of it. -/
def reached (r : Registry) (target : Nat) (key : EventKey) : List Nat :=
  (Event.topics target key).flatMap r.on

def hasListeners (r : Registry) (target : Nat) (key : EventKey) : Bool :=
  (Event.topics target key).any fun t => (r.entries.lookup t).isSome

/-- The number of registrations. -/
def size (r : Registry) : Nat := (r.entries.flatMap (·.2)).length

def isEmpty (r : Registry) : Bool := r.entries.isEmpty

theorem lookup_filter_ne {entries : List (Topic × List Nat)} (topic t : Topic) :
    (entries.filter (·.1 != topic)).lookup t = if topic = t then none else entries.lookup t := by
  induction entries with
  | nil => simp
  | cons e rest ih =>
    obtain ⟨k, ls⟩ := e
    by_cases here : k = topic
    · subst here
      by_cases h : k = t
      · simpa [h] using ih
      · simpa [List.lookup_cons, h, beq_eq_false_iff_ne.mpr (Ne.symm h)] using ih
    · by_cases h : k = t
      · subst h
        simp [here, Ne.symm here]
      · simp [List.lookup_cons, here, ih, beq_eq_false_iff_ne.mpr (Ne.symm h)]

/-- A registry is seen through the listeners of its topics. -/
theorem on_put (r : Registry) (topic : Topic) (listeners : List Nat) (t : Topic) :
    (r.put topic listeners).on t = if topic = t then listeners else r.on t := by
  unfold put on
  by_cases none : listeners = []
  · by_cases h : topic = t <;> simp [none, lookup_filter_ne, h]
  · by_cases h : topic = t
    · subst h
      simp [none]
    · simp [none, List.lookup_cons, lookup_filter_ne, h, beq_eq_false_iff_ne.mpr (Ne.symm h)]

theorem on_add (r : Registry) (s : Subscription) (t : Topic) :
    (r.add s).2.on t =
      if s.topic = t ∧ s.listener ∉ r.on t then r.on t ++ [s.listener] else r.on t := by
  unfold add
  by_cases h : s.topic = t
  · subst h
    by_cases known : s.listener ∈ r.on s.topic <;> simp [known, on_put]
  · by_cases known : s.listener ∈ r.on s.topic <;> simp [known, on_put, h]

theorem on_remove (r : Registry) (s : Subscription) (t : Topic) :
    (r.remove s).2.on t = if s.topic = t then (r.on t).erase s.listener else r.on t := by
  unfold remove
  by_cases h : s.topic = t
  · subst h
    by_cases known : s.listener ∈ r.on s.topic
    · simp [known, on_put]
    · simp [known, List.erase_of_not_mem]
  · by_cases known : s.listener ∈ r.on s.topic <;> simp [known, on_put, h]

end Registry

end ReactiveQuery
