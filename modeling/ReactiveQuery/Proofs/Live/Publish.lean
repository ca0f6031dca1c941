import ReactiveQuery.Engine.Observable
import ReactiveQuery.Proofs.Dispatch
import ReactiveQuery.Proofs.Live.Progress

/-! Publishing.  An event that a living query hears of comes to wait, and those that a change of
items tells of take none away that waits. -/

namespace ReactiveQuery

theorem Registry.hasListeners_of_mem {r : Registry} {t : Topic} {n target : Nat} {key : EventKey}
    (here : n ∈ r.on t) (topic : t ∈ Event.topics target key) :
    r.hasListeners target key = true := by
  refine List.any_eq_true.mpr ⟨t, topic, ?_⟩
  unfold on at here
  cases listed : r.entries.lookup t with
  | none => simp [listed] at here
  | some _ => rfl

/-- An event of a change of items: its length, or its content, which has no old value. -/
def Event.Tells (e : Event) : Prop :=
  e.key = .length ∨ e.key = .content ∧ e.old = .null ∧ ∃ n, e.new = .ofNat n

theorem tells_changeEvents (id old new : Nat) : ∀ e ∈ changeEvents id old new, e.Tells := by
  unfold changeEvents
  split
  · intro e member
    rw [List.mem_singleton.mp member]
    exact .inr ⟨rfl, rfl, _, rfl⟩
  · intro e member
    simp only [List.mem_cons, List.not_mem_nil, or_false] at member
    rcases member with rfl | rfl
    · exact .inr ⟨rfl, rfl, _, rfl⟩
    · exact .inl rfl

theorem content_mem_changeEvents (id old new : Nat) :
    Event.mk id .content (.ofNat new) .null ∈ changeEvents id old new := by
  unfold changeEvents
  split <;> exact List.mem_cons_self

namespace World

/-- A world in which an event has arrived, or was passed over, which changes nothing or has no
listener. -/
structure Arrives (e : Event) (w v : World) : Prop where
  shrinks : w.Shrinks v
  scheduler : v.bus.scheduler = w.bus.scheduler
  queue : v.bus.queue = w.bus.queue ∧
      (e.new.strictEq e.old = true ∨ v.bus.registry.hasListeners e.target e.key = false) ∨
    v.bus.queue = w.bus.queue.enqueue e ∧ e.new.strictEq e.old = false

variable {M : Nat → Prop} {qs : List LiveQuery} {es : List Event} {e : Event} {w v : World}

theorem arrives_enqueue (owned : w.Owned) (gives : (Act.enqueue e).Gives w () v) :
    w.Arrives e v := by
  unfold Act.enqueue Act.settle at gives
  simp only [Act.gives_bind, Act.gives_modify, Act.gives_changeBus] at gives
  obtain ⟨_, u, rfl, rfl⟩ := gives
  have swept := shrinks_sweep owned
  have waits := waiting_sweep w
  split
  · next passed =>
    refine ⟨swept, waits.2, .inl ⟨waits.1, ?_⟩⟩
    simpa using passed
  · next counts =>
    refine ⟨swept.waiting (w.sweep.bus.queue.enqueue e) w.sweep.bus.scheduler, waits.2,
      .inr ⟨by rw [← waits.1], ?_⟩⟩
    simp_all

theorem Arrives.holding {values : List Value}
    (arrives : Arrives e { w with held := values ++ w.held } v) :
    w.Arrives e { v with held := w.held } :=
  ⟨arrives.shrinks.holding, arrives.scheduler, arrives.queue⟩

theorem arrives_holding {values : List Value} (owned : w.Owned)
    (gives : (Act.holding values (Act.enqueue e)).Gives w () v) : w.Arrives e v := by
  obtain ⟨u, first, rfl⟩ := Act.gives_holding.mp gives
  have owned' : Owned { w with held := values ++ w.held } := owned
  exact (arrives_enqueue owned' first).holding

theorem arrives_enqueueAll (owned : w.Owned) (gives : (Act.enqueueAll [e]).Gives w () v) :
    w.Arrives e v := by
  simp only [Act.enqueueAll, Act.gives_bind, Act.gives_pure] at gives
  obtain ⟨_, u, queued, -, rfl⟩ := gives
  exact arrives_holding owned queued

/-- A living query is registered for what it hears of. -/
theorem Sound.hasListeners (sound : w.Sound M qs) {q : LiveQuery} (member : q ∈ qs)
    (alive : w.heap.isAlive q.result.loc = true) {p : Nat × EventKey} (hears : q.Hears p) :
    w.bus.registry.hasListeners p.1 p.2 = true := by
  obtain ⟨d, inside, topic, -⟩ := hears
  obtain ⟨n, -, here⟩ := sound.registered q member alive d inside
  exact Registry.hasListeners_of_mem here topic

namespace Arrives

theorem queued (arrives : w.Arrives e v) (queued : w.Queued qs)
    (bare : e.key = .content → e.old = .null) : v.Queued qs := by
  constructor
  · rw [arrives.scheduler]
    exact queued.jobs
  · rcases arrives.queue with ⟨same, -⟩ | ⟨entered, -⟩
    · rw [same]
      exact queued.indexed
    · rw [entered]
      exact queued.indexed.enqueue e
  · rcases arrives.queue with ⟨same, -⟩ | ⟨entered, -⟩
    · rw [same]
      exact queued.contents
    · rw [entered]
      intro p f waits content
      rw [queued.indexed.waiting?_enqueue] at waits
      split at waits
      · next same =>
        subst same
        split at waits
        · cases waits
          exact bare content
        · next old found =>
          split at waits
          · cases waits
          · cases waits
            exact queued.contents _ old found content
      · exact queued.contents p f waits content

/-- What a change of items tells takes no event away but that of a length. -/
theorem waits_of_tells (arrives : w.Arrives e v) (queued : w.Queued qs) (tells : e.Tells)
    {p : Nat × EventKey} (firm : p.2 ≠ .length) (waits : (w.bus.queue.waiting? p).isSome = true) :
    (v.bus.queue.waiting? p).isSome = true := by
  rcases arrives.queue with ⟨same, -⟩ | ⟨entered, -⟩
  · rwa [same]
  · rw [entered, queued.indexed.waiting?_enqueue]
    split
    · next same =>
      subst same
      rcases tells with length | ⟨content, -, n, new⟩
      · exact absurd length firm
      · obtain ⟨old, found⟩ := Option.isSome_iff_exists.mp waits
        have bare := queued.contents _ old found content
        simp [found, bare, new, Value.strictEq, Value.ofNat, Value.sameContainer]
    · exact waits

/-- What a change of items tells is no news of a field. -/
theorem field_of_tells (arrives : w.Arrives e v) (queued : w.Queued qs) (tells : e.Tells)
    (target : Nat) (name : String) :
    v.bus.queue.waiting? (target, .field name) = w.bus.queue.waiting? (target, .field name) := by
  rcases arrives.queue with ⟨same, -⟩ | ⟨entered, -⟩
  · rw [same]
  · rw [entered, queued.indexed.waiting?_enqueue, if_neg]
    intro same
    have key : e.key = .field name := congrArg Prod.snd same.symm
    rcases tells with length | ⟨content, -⟩ <;> simp_all

/-- News of content that a living query hears of comes to wait. -/
theorem waits_of_content (arrives : w.Arrives e v) (queued : w.Queued qs) (after : v.Sound M qs)
    (tells : e.Tells) (content : e.key = .content) {q : LiveQuery} (member : q ∈ qs)
    (alive : v.heap.isAlive q.result.loc = true) (hears : q.Hears e.pair) :
    (v.bus.queue.waiting? e.pair).isSome = true := by
  rcases tells with length | ⟨-, old, n, new⟩
  · rw [content] at length
    cases length
  · have heard := after.hasListeners member alive hears
    rcases arrives.queue with ⟨-, changes | unheard⟩ | ⟨entered, -⟩
    · simp [old, new, Value.strictEq, Value.ofNat, Value.sameContainer] at changes
    · rw [show v.bus.registry.hasListeners e.target e.key = true from heard] at unheard
      cases unheard
    · rw [entered, queued.indexed.waiting?_enqueue, if_pos rfl]
      cases found : w.bus.queue.waiting? e.pair with
      | none => rfl
      | some f =>
        have bare := queued.contents _ f found content
        simp [bare, new, Value.strictEq, Value.ofNat, Value.sameContainer]

end Arrives

/-- Events of a change of items come to wait where they are heard, and take away none. -/
theorem Sound.enqueueAll_tells (sound : w.Sound M qs) (queued : w.Queued qs)
    (tells : ∀ e ∈ es, e.Tells) (gives : (Act.enqueueAll es).Gives w () v) :
    w.Shrinks v ∧ v.Queued qs ∧ v.bus.scheduler = w.bus.scheduler ∧
      (∀ p : Nat × EventKey, p.2 ≠ .length → (w.bus.queue.waiting? p).isSome = true →
        (v.bus.queue.waiting? p).isSome = true) ∧
      (∀ target name, v.bus.queue.waiting? (target, .field name) =
        w.bus.queue.waiting? (target, .field name)) ∧
      ∀ e ∈ es, e.key = .content → ∀ q ∈ qs, v.heap.isAlive q.result.loc = true →
        q.Hears e.pair → (v.bus.queue.waiting? e.pair).isSome = true := by
  induction es generalizing w with
  | nil =>
    obtain ⟨-, rfl⟩ := Act.gives_pure.mp gives
    exact ⟨.refl _, queued, rfl, fun _ _ => id, fun _ _ => rfl, by simp⟩
  | cons e es ih =>
    simp only [Act.enqueueAll, Act.gives_bind] at gives
    obtain ⟨_, u, first, rest⟩ := gives
    have arrives := arrives_holding sound.owned first
    have here := tells e List.mem_cons_self
    have bare : e.key = .content → e.old = .null := fun content => by
      rcases here with length | ⟨-, old, -⟩
      · rw [content] at length
        cases length
      · exact old
    have middle := sound.shrinks arrives.shrinks
    obtain ⟨shrinks, queued', scheduler, stays, fields, news⟩ :=
      ih middle (arrives.queued queued bare)
        (fun e member => tells e (List.mem_cons_of_mem _ member)) rest
    refine ⟨arrives.shrinks.trans shrinks, queued', scheduler.trans arrives.scheduler,
      fun p firm waits => stays p firm (arrives.waits_of_tells queued here firm waits),
      fun target name =>
        (fields target name).trans (arrives.field_of_tells queued here target name),
      ?_⟩
    refine List.forall_mem_cons.mpr ⟨fun content q member alive hears => ?_, news⟩
    refine stays _ (by simp [Event.pair, content]) ?_
    exact arrives.waits_of_content queued middle here content member (shrinks.alive alive) hears

end World

end ReactiveQuery
