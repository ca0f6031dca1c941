import ReactiveQuery.Proofs.Bus.Account
import ReactiveQuery.Proofs.Change.Reckoning

/-! The history of an outermost call.  What is noted while it runs, in this order, falls into
cycles: each delivers the events that wait from the burst before, tells the listeners that are
registered when an event's turn comes, flushes, and takes in the next burst meanwhile. -/

namespace ReactiveQuery

/-- An idle bus with an orderly queue in which nothing waits. -/
structure Bus.Settled (b : Bus) : Prop where
  idle : b.dispatching = false
  indexed : b.queue.Indexed
  empty : b.queue.isEmpty = true

/-- The listeners that an event reaches. -/
def Bus.hearers (b : Bus) (e : Event) : List Listener :=
  (b.registry.reached e.target e.key).filterMap (b.listeners[·]?)

/-- What is noted of a call. -/
inductive Moment where
  /-- An event changes something that someone follows. -/
  | accepted (e : Event)
  /-- A cycle begins with the events that wait. -/
  | taken (batch : List Event)
  /-- An event's turn comes while the bus is like this. -/
  | turn (e : Event) (bus : Bus)
  | told (e : Event) (l : Listener)
  | flushing

/-- Callbacks and jobs, written as programs. -/
structure Callbacks (again : Reentry) where
  hear : Event → Listener → Program Scope.any Act.Skips Unit
  hear_act : ∀ e l, (hear e l).act = l.hear again.perform e
  run : Job → Program Scope.any Act.Skips Unit
  run_act : ∀ j, (run j).act = j.run again.call again.dispatch again.perform

/-- Calls that may be outermost. -/
inductive Outer : Type → Type 1 where
  | publish (es : List Event) : Outer Unit
  | batch {α : Type} (body : Program Scope.any Act.Skips α) : Outer α

def Outer.act {α : Type} (dispatch : Act Unit) : Outer α → Act α
  | .publish es => Act.publishAll dispatch es
  | .batch body => Act.batch dispatch body.act

namespace Callbacks

variable {again : Reentry} (C : Callbacks again)

/-- What is noted while listeners are told of an event. -/
def tell (e : Event) : List Listener → World → List Moment
  | [], _ => []
  | l :: ls, w =>
    let values := (l :: ls).flatMap Listener.values
    .told e l :: ((C.hear e l).accepted { w with held := values ++ w.held }).map .accepted ++
      (Act.holding values (C.hear e l).act).after w fun _ v => tell e ls v

/-- What is noted while events are delivered. -/
def deliver : List Event → World → List Moment
  | [], _ => []
  | e :: es, w =>
    let ls := w.sweep.bus.hearers e
    .turn e w.sweep.bus :: C.tell e ls w.sweep ++
      (Act.tell again.perform e ls).after w.sweep fun _ v => deliver es v

/-- What is noted while jobs run. -/
def drain : Nat → World → List Moment
  | 0, _ => []
  | count + 1, w =>
    match w.bus.scheduler.next? with
    | none => []
    | some (job, scheduler) =>
      let u := { w with bus := { w.bus with scheduler } }
      ((C.run job).accepted { u with held := job.values ++ u.held }).map .accepted ++
        (Act.holding job.values (C.run job).act).after u fun _ v => drain count v

def flush (w : World) : List Moment :=
  .flushing :: C.drain w.bus.scheduler.begin.running.length
    { w with bus := { w.bus with scheduler := w.bus.scheduler.begin } }

/-- What is noted in cycles. -/
def cycles : Nat → World → List Moment
  | 0, _ => []
  | count + 1, w =>
    let es := w.bus.queue.events
    let values := es.flatMap Event.values
    let u := { w with bus := { w.bus with queue := {} } }
    if w.bus.queue.isEmpty then [] else
      .taken es :: C.deliver es { u with held := values ++ u.held } ++
        (Act.holding values (Act.deliver again.perform es)).after u fun _ v =>
          C.flush v ++ (Act.flush again.call again.dispatch again.perform).after v fun _ x =>
            cycles count x

/-- What is noted from the dispatch of an idle bus on. -/
def dispatch (w : World) : List Moment :=
  if w.bus.queue.isEmpty then []
  else C.cycles w.bus.ceiling { w with bus := { w.bus with dispatching := true } }

/-- What is noted of an outermost call. -/
def moments {α : Type} (w : World) : Outer α → List Moment
  | .publish es => (Act.acceptedAll es w).map .accepted ++
    (Act.enqueueAll es).after w fun _ u => C.dispatch u
  | .batch body =>
    let opened := { w with bus := { w.bus with dispatching := true } }
    (body.accepted opened).map .accepted ++ (Act.attempt body.act).after opened fun _ u =>
      C.dispatch { u with bus := { u.bus with dispatching := false } }

end Callbacks

/-- A listener that was told, and the events that were accepted meanwhile. -/
structure Told where
  listener : Listener
  accepted : List Event

/-- A turn of an event. -/
structure Turn where
  event : Event
  bus : Bus
  told : List Told

structure Cycle where
  turns : List Turn
  /-- The events accepted while jobs ran. -/
  flushed : List Event

/-- Events are accepted before the first cycle, and then in each cycle. -/
structure History where
  first : List Event
  cycles : List Cycle

namespace Told

def moments (e : Event) (t : Told) : List Moment := .told e t.listener :: t.accepted.map .accepted

end Told

namespace Turn

variable (t : Turn)

def moments : List Moment := .turn t.event t.bus :: t.told.flatMap (Told.moments t.event)

def accepted : List Event := t.told.flatMap (·.accepted)

/-- Exactly those are told that are registered when the turn comes: on the target and the key, on
the key, on the target, and on all. -/
def Exact : Prop :=
  let on (target : Option Nat) (key : Option EventKey) := t.bus.registry.on ⟨target, key⟩
  t.told.map (·.listener) = (on (some t.event.target) (some t.event.key) ++
    on none (some t.event.key) ++ on (some t.event.target) none ++ on none none).filterMap
      (t.bus.listeners[·]?)

end Turn

namespace Cycle

variable (c : Cycle)

def batch : List Event := c.turns.map (·.event)

def moments : List Moment :=
  .taken c.batch :: c.turns.flatMap Turn.moments ++ .flushing :: c.flushed.map .accepted

def accepted : List Event := c.turns.flatMap Turn.accepted ++ c.flushed

end Cycle

namespace History

variable (h : History)

def moments : List Moment := h.first.map .accepted ++ h.cycles.flatMap Cycle.moments

/-- The events accepted before the first cycle and in each one. -/
def bursts : List (List Event) := h.first :: h.cycles.map Cycle.accepted

/-- Nothing is lost, doubled or early: a burst is accounted for by what it leaves waiting, which the
next cycle delivers in full, and after the last cycle nothing waits.  Each delivery reaches exactly
the listeners of its turn. -/
structure Lawful : Prop where
  accounts : ∀ burst ∈ h.bursts, Reckoning.Accounts burst (Reckoning.of burst)
  batches : h.cycles.map Cycle.batch ++ [[]] = h.bursts.map fun burst => (Reckoning.of burst).events
  turns : ∀ c ∈ h.cycles, ∀ t ∈ c.turns, t.Exact

theorem Lawful.done {burst : List Event} (none : (Reckoning.of burst).events = []) :
    Lawful ⟨burst, []⟩ where
  accounts := List.forall_mem_singleton.mpr (Reckoning.accounts_of burst)
  batches := by simp [bursts, none]
  turns := nofun

theorem Lawful.cycle {burst : List Event} {c : Cycle} {cs : List Cycle}
    (batch : c.batch = (Reckoning.of burst).events) (exact : ∀ t ∈ c.turns, t.Exact)
    (rest : Lawful ⟨c.accepted, cs⟩) : Lawful ⟨burst, c :: cs⟩ where
  accounts := List.forall_mem_cons.mpr ⟨Reckoning.accounts_of burst, rest.accounts⟩
  batches := by
    rw [List.map_cons, List.cons_append, batch, bursts, List.map_cons]
    exact congrArg _ rest.batches
  turns := List.forall_mem_cons.mpr ⟨exact, rest.turns⟩

end History

namespace Callbacks

variable {again : Reentry} (C : Callbacks again) {u v w : World}

/-- Programs that hold values go on from what they have left. -/
theorem takes_holding {values : List Value} {p : Program Scope.any Act.Skips Unit}
    (busy : w.bus.dispatching = true) (gives : (Act.holding values p.act).Gives w () v) :
    w.bus.Takes (p.accepted { w with held := values ++ w.held }) v.bus := by
  obtain ⟨u, inner, rfl⟩ := Act.gives_holding.mp gives
  exact p.takes (w := { w with held := values ++ w.held }) (v := u) busy inner.leaves

/-- Listeners are told in turn, and each may publish. -/
theorem tell_told {e : Event} {ls : List Listener} (busy : w.bus.dispatching = true)
    (gives : (Act.tell again.perform e ls).Gives w () v) :
    ∃ told : List Told, told.map (·.listener) = ls ∧
      C.tell e ls w = told.flatMap (Told.moments e) ∧
        w.bus.Takes (told.flatMap (·.accepted)) v.bus := by
  induction ls generalizing w with
  | nil =>
    obtain ⟨-, rfl⟩ := Act.gives_pure.mp gives
    exact ⟨[], rfl, rfl, .refl _⟩
  | cons l ls ih =>
    obtain ⟨_, u, first, rest⟩ := Act.gives_bind.mp gives
    rw [← C.hear_act] at first
    have takes := takes_holding busy first
    obtain ⟨told, listeners, moments, takes'⟩ := ih (takes.busy busy) rest
    refine ⟨⟨l, _⟩ :: told, by rw [List.map_cons, listeners], ?_, takes.trans takes'⟩
    rw [tell, first.after, moments]
    rfl

/-- Each event has its turn, in which its listeners are told. -/
theorem deliver_turns {es : List Event} (busy : w.bus.dispatching = true)
    (gives : (Act.deliver again.perform es).Gives w () v) :
    ∃ turns : List Turn, turns.map (·.event) = es ∧ (∀ t ∈ turns, t.Exact) ∧
      C.deliver es w = turns.flatMap Turn.moments ∧
        w.bus.Takes (turns.flatMap Turn.accepted) v.bus := by
  induction es generalizing w with
  | nil =>
    obtain ⟨-, rfl⟩ := Act.gives_pure.mp gives
    exact ⟨[], rfl, nofun, rfl, .refl _⟩
  | cons e es ih =>
    obtain ⟨u, telling, delivering⟩ := Act.gives_deliver_cons.mp gives
    have swept := Bus.Takes.sweep w
    have heard : (Act.tell again.perform e (w.sweep.bus.hearers e)).Gives w.sweep () u := telling
    obtain ⟨told, listeners, moments, takes⟩ := C.tell_told (swept.busy busy) heard
    obtain ⟨turns, events, exact, moments', takes'⟩ :=
      ih ((swept.trans takes).busy busy) delivering
    refine ⟨⟨e, w.sweep.bus, told⟩ :: turns, by rw [List.map_cons, events],
      List.forall_mem_cons.mpr ⟨?_, exact⟩, ?_, (swept.trans takes).trans takes'⟩
    · simp [Turn.Exact, listeners, Bus.hearers, Registry.reached, Event.topics]
    · rw [deliver, heard.after, moments, moments']
      rfl

theorem deliver_turns_holding {values : List Value} {es : List Event}
    (busy : w.bus.dispatching = true)
    (gives : (Act.holding values (Act.deliver again.perform es)).Gives w () v) :
    ∃ turns : List Turn, turns.map (·.event) = es ∧ (∀ t ∈ turns, t.Exact) ∧
      C.deliver es { w with held := values ++ w.held } = turns.flatMap Turn.moments ∧
        w.bus.Takes (turns.flatMap Turn.accepted) v.bus := by
  obtain ⟨u, inner, rfl⟩ := Act.gives_holding.mp gives
  exact C.deliver_turns (w := { w with held := values ++ w.held }) (v := u) busy inner

/-- While jobs run events are taken in. -/
theorem drain_accepted {count : Nat} (busy : w.bus.dispatching = true)
    (gives : (Act.drain again.call again.dispatch again.perform count).Gives w () v) :
    ∃ es : List Event, C.drain count w = es.map .accepted ∧ w.bus.Takes es v.bus := by
  induction count generalizing w with
  | zero =>
    obtain ⟨-, rfl⟩ := Act.gives_drain_zero.mp gives
    exact ⟨[], rfl, .refl _⟩
  | succ count ih =>
    rw [drain]
    rcases Act.gives_drain_succ.mp gives with
      ⟨none, rfl⟩ | ⟨id, job, running, u, next, ran, rest⟩
    · simp only [Scheduler.next?, none]
      exact ⟨[], rfl, .refl _⟩
    · simp only [Scheduler.next?, next]
      rw [← C.run_act] at ran
      have takes := takes_holding
        (w := { w with bus := { w.bus with scheduler := { w.bus.scheduler with running } } })
        busy ran
      obtain ⟨es, moments, takes'⟩ := ih (takes.busy busy) rest
      refine ⟨_ ++ es, ?_, Bus.Takes.trans ⟨takes.queue, takes.dispatching⟩ takes'⟩
      rw [ran.after, moments, List.map_append]

/-- A flush takes in what its jobs publish. -/
theorem flush_accepted (busy : w.bus.dispatching = true)
    (gives : (Act.flush again.call again.dispatch again.perform).Gives w () v) :
    ∃ es : List Event, C.flush w = .flushing :: es.map .accepted ∧ w.bus.Takes es v.bus := by
  rw [Act.Gives, Act.on_flush_begin] at gives
  obtain ⟨es, moments, takes⟩ :=
    C.drain_accepted (w := { w with bus := { w.bus with scheduler := w.bus.scheduler.begin } })
      busy gives
  exact ⟨es, congrArg _ moments, takes.queue, takes.dispatching⟩

/-- Cycles go on until nothing waits any more. -/
theorem cycles_lawful {count : Nat} {burst : List Event} (busy : w.bus.dispatching = true)
    (holds : w.bus.queue.Holds (.of burst))
    (gives : (Act.cycles again.call again.dispatch again.perform count).Gives w () v) :
    ∃ cs : List Cycle, C.cycles count w = cs.flatMap Cycle.moments ∧ History.Lawful ⟨burst, cs⟩ ∧
      v.bus.queue.Indexed ∧ v.bus.queue.isEmpty = true := by
  induction count generalizing w burst with
  | zero =>
    obtain ⟨empty, rfl⟩ := Act.gives_cycles_zero.mp gives
    exact ⟨[], rfl, .done (holds.events_of_isEmpty empty), holds.indexed, empty⟩
  | succ count ih =>
    rw [cycles]
    rcases Act.gives_cycles_succ.mp gives with
      ⟨empty, rfl⟩ | ⟨waits, x, y, delivered, flushed, rest⟩
    · rw [if_pos empty]
      exact ⟨[], rfl, .done (holds.events_of_isEmpty empty), holds.indexed, empty⟩
    · obtain ⟨turns, events, exact, moments, takes⟩ := C.deliver_turns_holding
        (w := { w with bus := { w.bus with queue := {} } }) busy delivered
      obtain ⟨es, moments', takes'⟩ := C.flush_accepted (takes.busy busy) flushed
      have all := takes.trans takes'
      -- What waits after this cycle is what was accepted in it: the queue was taken empty.
      have next : y.bus.queue.Holds (.of (turns.flatMap Turn.accepted ++ es)) := by
        rw [all.queue]
        exact Queue.holds_empty.foldl_enqueue _
      obtain ⟨cs, moments'', lawful, rests⟩ := ih (all.busy busy) next rest
      refine ⟨⟨turns, es⟩ :: cs, ?_, .cycle (events.trans holds.events) exact lawful, rests⟩
      rw [if_neg (by simp [waits]), delivered.after, flushed.after, moments, moments', moments'',
        List.flatMap_cons, Cycle.moments, Cycle.batch, events]
      simp only [List.cons_append, List.append_assoc]

/-- Where nothing waits there are no cycles. -/
theorem dispatch_eq_cycles (w : World) :
    C.dispatch w = C.cycles w.bus.ceiling { w with bus := { w.bus with dispatching := true } } := by
  rw [dispatch]
  split
  · next empty =>
    cases w.bus.ceiling with
    | zero => rfl
    | succ count => exact (if_pos empty).symm
  · rfl

/-- Dispatching from an idle bus delivers what waits there and all that comes of it. -/
theorem dispatch_lawful {burst : List Event} (idle : w.bus.dispatching = false)
    (holds : w.bus.queue.Holds (.of burst))
    (gives : (Act.dispatchIfIdle again.call again.dispatch again.perform).Gives w () v) :
    ∃ cs : List Cycle, C.dispatch w = cs.flatMap Cycle.moments ∧ History.Lawful ⟨burst, cs⟩ ∧
      v.bus.Settled := by
  obtain ⟨u, cycled, rfl⟩ := (Act.gives_dispatchIfIdle idle).mp gives
  obtain ⟨cs, moments, lawful, indexed, empty⟩ := C.cycles_lawful
    (w := { w with bus := { w.bus with dispatching := true } }) rfl holds cycled
  rw [C.dispatch_eq_cycles]
  exact ⟨cs, moments, lawful, rfl, indexed, empty⟩

/-- Of a batch its body is noted, and then the dispatch. -/
theorem moments_batch {α : Type} {body : Program Scope.any Act.Skips α} {result : Except Error α}
    (runs : (Act.attempt body.act).Gives { w with bus := { w.bus with dispatching := true } }
      result u) :
    C.moments w (.batch body) =
      (body.accepted { w with bus := { w.bus with dispatching := true } }).map .accepted ++
        C.dispatch { u with bus := { u.bus with dispatching := false } } := by
  rw [moments]
  dsimp only
  rw [runs.after]

/-- A call on a settled bus has a lawful history, and the bus is settled again. -/
theorem moments_lawful {α : Type} {call : Outer α} {a : α} (settled : w.bus.Settled)
    (gives : (call.act (Act.dispatchIfIdle again.call again.dispatch again.perform)).Gives w a v) :
    ∃ h : History, C.moments w call = h.moments ∧ h.Lawful ∧ v.bus.Settled := by
  have clear := settled.indexed.holds_of_isEmpty settled.empty
  cases call with
  | publish es =>
    obtain ⟨u, queued, takes⟩ := Act.enqueueAll_takes es w
    obtain ⟨_, x, queued', rest⟩ := Act.gives_bind.mp gives
    obtain ⟨-, rfl⟩ := queued.unique queued'
    have holds : u.bus.queue.Holds (.of (Act.acceptedAll es w)) := by
      rw [takes.queue]
      exact clear.foldl_enqueue _
    obtain ⟨cs, moments, lawful, after⟩ :=
      C.dispatch_lawful (takes.dispatching.trans settled.idle) holds rest
    refine ⟨⟨_, cs⟩, ?_, lawful, after⟩
    rw [Callbacks.moments, queued.after, moments]
    rfl
  | batch body =>
    obtain ⟨u, ran, dispatched⟩ := Act.gives_batch_of_idle settled.idle gives
    have attempted := Act.gives_attempt.mpr (.inl ⟨a, rfl, ran⟩)
    have takes := body.takes (w := { w with bus := { w.bus with dispatching := true } }) rfl
      ran.leaves
    have holds : u.bus.queue.Holds
        (.of (body.accepted { w with bus := { w.bus with dispatching := true } })) := by
      rw [takes.queue]
      exact clear.foldl_enqueue _
    obtain ⟨cs, moments, lawful, after⟩ := C.dispatch_lawful
      (w := { u with bus := { u.bus with dispatching := false } }) rfl holds dispatched
    refine ⟨⟨_, cs⟩, ?_, lawful, after⟩
    rw [C.moments_batch attempted, moments]
    rfl

end Callbacks

end ReactiveQuery
