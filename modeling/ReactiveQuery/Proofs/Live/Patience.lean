import ReactiveQuery.Proofs.Live.Refresh
import ReactiveQuery.Proofs.Live.Stirring

/-! Patience.  A change of items tells of the content with the number of items and without an old
value, so whatever is published of this kind, content that waits to be told of goes on waiting. -/

namespace ReactiveQuery

/-- On content the event has the number of items and no old value. -/
def Event.Counts (e : Event) : Prop := e.key = .content → e.old = .null ∧ ∃ n, e.new = .ofNat n

theorem Event.Tells.counts {e : Event} (tells : e.Tells) : e.Counts := by
  intro content
  rcases tells with length | ⟨-, counts⟩
  · rw [content] at length
    cases length
  · exact counts

namespace Queue

/-- A queue in order, all of whose events count. -/
structure Counts (q : Queue) : Prop where
  indexed : q.Indexed
  counts : ∀ e ∈ q.events, e.Counts

theorem counts_empty : Counts {} := ⟨indexed_empty, by simp [events]⟩

variable {q : Queue} {e : Event} {p : Nat × EventKey}

theorem Indexed.exists_mem_events_iff (indexed : q.Indexed) :
    (∃ e ∈ q.events, e.pair = p) ↔ ∃ e, q.waiting? p = some e := by
  constructor
  · rintro ⟨e, member, rfl⟩
    exact ⟨e, indexed.mem_events.mp member⟩
  · rintro ⟨e, waits⟩
    have pair := indexed.pair_of_waiting? waits
    exact ⟨e, indexed.mem_events.mpr (by rwa [pair]), pair⟩

theorem Counts.enqueue (counts : q.Counts) (new : e.Counts) : (q.enqueue e).Counts where
  indexed := counts.indexed.enqueue e
  counts x member content := by
    have waits := (counts.indexed.enqueue e).mem_events.mp member
    rw [counts.indexed.waiting?_enqueue] at waits
    split at waits
    · next here =>
      have key : e.key = .content := (Prod.mk.inj here).2.symm.trans content
      split at waits
      · cases waits
        exact new content
      · next old found =>
        split at waits
        · cases waits
        · cases waits
          have before := counts.indexed.pair_of_waiting? found
          have member := counts.indexed.mem_events.mpr (by rwa [before])
          exact ⟨(counts.counts old member content).1, (new key).2⟩
    · exact counts.counts x (counts.indexed.mem_events.mpr waits) content

/-- Content that waits goes on waiting, and content that is queued comes to wait. -/
theorem Counts.waits_enqueue (counts : q.Counts) (new : e.Counts) {id : Nat}
    (waits : e.pair = (id, .content) ∨ ∃ x, q.waiting? (id, .content) = some x) :
    ∃ x, (q.enqueue e).waiting? (id, .content) = some x := by
  rw [counts.indexed.waiting?_enqueue]
  split
  · next here =>
    have key : e.key = .content := (Prod.mk.inj here).2.symm
    obtain ⟨-, n, number⟩ := new key
    split
    · exact ⟨_, rfl⟩
    · next old found =>
      have before := counts.indexed.pair_of_waiting? found
      have member := counts.indexed.mem_events.mpr (by rwa [before])
      rw [(counts.counts old member ((Prod.mk.inj before).2.trans key)).1, number]
      exact ⟨_, rfl⟩
  · next other => exact waits.resolve_left (Ne.symm other)

end Queue

namespace World

variable {P : Nat → Prop} {v w : World}

/-- The bus is open, and the content of some collections waits to be told of. -/
structure Awaits (P : Nat → Prop) (w : World) : Prop where
  dispatching : w.bus.dispatching = true
  counts : w.bus.queue.Counts
  waits : ∀ id, P id → w.bus.Waits (id, .content)

theorem Awaits.of_bus (awaits : w.Awaits P) (dispatching : v.bus.dispatching = w.bus.dispatching)
    (queue : v.bus.queue = w.bus.queue) : v.Awaits P where
  dispatching := dispatching.trans awaits.dispatching
  counts := queue ▸ awaits.counts
  waits id may := by
    unfold Bus.Waits
    rw [queue]
    exact awaits.waits id may

theorem Awaits.holding (awaits : w.Awaits P) (held : List Value) : Awaits P { w with held } :=
  awaits.of_bus rfl rfl

theorem Awaits.sweep (awaits : w.Awaits P) : w.sweep.Awaits P := by
  obtain ⟨r, same⟩ := bus_sweep w
  exact awaits.of_bus (by rw [same]) (by rw [same])

theorem Awaits.enqueue {e : Event} (awaits : w.Awaits P) (counts : e.Counts) {Q : Nat → Prop}
    (may : ∀ id, Q id → e.pair = (id, .content) ∨ P id) :
    Awaits Q { w with bus := { w.bus with queue := w.bus.queue.enqueue e } } where
  dispatching := awaits.dispatching
  counts := awaits.counts.enqueue counts
  waits id asked := by
    have queue := awaits.counts
    refine (queue.enqueue counts).indexed.exists_mem_events_iff.mpr (queue.waits_enqueue counts ?_)
    exact (may id asked).imp_right fun before =>
      queue.indexed.exists_mem_events_iff.mp (awaits.waits id before)

end World

/-- While the bus is open, content that waits to be told of goes on waiting. -/
def Act.Patient {α : Type} (act : Act α) : Prop :=
  ∀ (P : Nat → Prop) (w : World), w.Awaits P → (act.on w).2.Awaits P

def Trait.patient : Trait where
  Has := Act.Patient
  still still P w awaits := by
    have same := (still w).bus
    exact awaits.of_bus (by rw [same]) (by rw [same])
  bind {_ _ x _} first rest P w awaits := by
    have between := first P w awaits
    rw [Act.on_bind]
    rcases outcome : x.on w with ⟨_ | a, u⟩ <;> rw [outcome] at between
    · exact between
    · exact rest a P u between
  holding values patient P w awaits := by
    rw [Act.on_holding]
    exact (patient P _ (awaits.holding (values ++ w.held))).holding w.held
  attempt {_ x} patient P w awaits := by
    have inner := patient P w awaits
    rw [Act.on_attempt]
    rcases outcome : x.on w with ⟨(_ | _) | _, _⟩ <;> rw [outcome] at inner <;> exact inner
  settle _ _ awaits := awaits.sweep

namespace Act.Patient

variable {α : Type} {P : Nat → Prop} {v w : World} {act : Act α}

theorem gives {a : α} (patient : act.Patient) (awaits : w.Awaits P) (gives : act.Gives w a v) :
    v.Awaits P := by
  have step := patient P w awaits
  rwa [gives.on] at step

/-- Whatever neither queues nor dispatches. -/
theorem of_own {S : Scope} (own : S.Own act) : act.Patient := fun _ w awaits =>
  awaits.of_bus (own w).dispatching (own w).queue

theorem of_bus (same : ∀ w, (act.on w).2.bus = w.bus) : act.Patient := fun _ _ awaits =>
  awaits.of_bus (by rw [same]) (by rw [same])

theorem enqueue {e : Event} (counts : e.Counts) : (Act.enqueue e).Patient :=
  Trait.patient.bind Trait.patient.settle fun _ P w awaits => by
    rw [Act.on_changeBus]
    dsimp only
    split
    · exact awaits
    · exact awaits.enqueue counts fun _ => .inr

theorem enqueueAll {es : List Event} (counts : ∀ e ∈ es, e.Counts) :
    (Act.enqueueAll es).Patient := by
  induction es with
  | nil => exact Trait.Has.ret (T := .patient) ()
  | cons e es ih =>
    obtain ⟨first, others⟩ := List.forall_mem_cons.mp counts
    exact Trait.patient.bind (Trait.patient.holding _ (enqueue first)) fun _ => ih others

theorem publishAll {dispatch : Act Unit} (silent : dispatch.Silent) {es : List Event}
    (counts : ∀ e ∈ es, e.Counts) : (Act.publishAll dispatch es).Patient :=
  Trait.patient.bind (enqueueAll counts) fun _ P w awaits => by
    rcases silent w awaits.dispatching with same | same <;> rw [same] <;> exact awaits

end Act.Patient

/-- Activities that publish nothing by hand are patient. -/
def Conduct.patient (S : Scope) (one : ∀ draft, ¬S.commands (.publish draft))
    (all : ∀ drafts, ¬S.commands (.publishAll drafts)) : Conduct where
  toTrait := .patient
  inert inert := .of_bus fun w => (inert w).bus
  scope := S
  dispatches := Act.Silent
  nextId := .of_own (Scope.Own.nextId (S := S))
  setField _ _ _ := .of_bus fun _ => rfl
  setItems _ _ := .of_bus fun _ => rfl
  keep r _ := .of_own (Scope.Own.retain (S := S) r _)
  attach source d params _ first :=
    Trait.patient.bind (.of_own (Scope.Own.newCollection (S := S) [])) fun r =>
      Trait.patient.bind (Trait.patient.holding _ (Trait.patient.bind
        (.of_own (Scope.Own.attach (S := S) r source d params)) fun _ => first r)) fun _ =>
          Trait.Has.ret (T := .patient) _
  tells := Event.Counts
  tells_field _ _ _ _ := nofun
  tells_change id old new e member := (tells_changeEvents id old new e member).counts
  tells_publish may := (one _ may).elim
  tells_publishAll may := (all _ may).elim
  publishAll silent _ counts := .publishAll silent counts
  batch _ patient P w awaits := by
    rw [Act.on_batch_of_busy awaits.dispatching]
    exact patient P w awaits
  reschedule may change := .of_own (Scope.Own.reschedule may change)
  listen allowed handle collection key := .of_own (Scope.Own.listen handle collection key allowed)
  unlisten again handle := .of_own (Scope.Own.unlisten (S := S) again handle)
  subscribe allowed again listener target key :=
    .of_own (Scope.Own.register again listener target key allowed)
  unsubscribe again listener target key :=
    .of_own (Scope.Own.deregister (S := S) again listener target key)

/-- Callbacks and extension functions that leave waiting what waits. -/
structure Reentry.Patient (K : Command → Prop) (again : Reentry) : Prop where
  call : ∀ e ctx args, (again.call e ctx args).Patient
  perform : ∀ c, K c → (again.perform c).Patient

/-- All extension functions there are do, and all commands but those that publish. -/
theorem Engine.patient_standard {S : Scope} (closed : S.Closed)
    (one : ∀ draft, ¬S.commands (.publish draft)) (all : ∀ drafts, ¬S.commands (.publishAll drafts))
    (depth : Nat) : ((standard closed).within depth).Patient S.commands := by
  induction depth with
  | zero =>
    exact ⟨fun _ _ _ => Trait.Has.fault (T := .patient) _,
      fun _ _ => Trait.Has.fault (T := .patient) _⟩
  | succ depth ih =>
    have allows : (Conduct.patient S one all).Allows ((standard closed).within depth) :=
      ⟨ih.call, (standard closed).silent_within depth, ih.perform⟩
    exact ⟨Extension.has_invoke allows.call allows.dispatch, Command.has_perform closed allows⟩

end ReactiveQuery
