import ReactiveQuery.Engine.Dispatch
import ReactiveQuery.Proofs.Activity

/-! What batches, flushes, cycles and dispatches come to, each by its first step and the rest.
The loops are opened here and nowhere else: what holds of them is proved by induction from these
laws. -/

namespace ReactiveQuery.Act

section
variable {α : Type} {dispatch : Act Unit} {body : Act α} {a : α} {v w : World}

/-- A batch inside another just runs. -/
theorem on_batch_of_busy (busy : w.bus.dispatching = true) :
    (batch dispatch body).on w = body.on w := by
  unfold batch
  rw [on_bind_ok (on_get w), if_pos busy]

/-- The outermost batch runs with the bus open, and then dispatches, whatever its body gives. -/
theorem on_batch_of_idle {u : World} {r : Except Error α} (idle : w.bus.dispatching = false)
    (ran : (attempt body).Gives { w with bus := { w.bus with dispatching := true } } r u) :
    (batch dispatch body).on w = (dispatch >>= fun _ => ofExcept r).on
      { u with bus := { u.bus with dispatching := false } } := by
  unfold batch
  rw [on_bind_ok (on_get w), if_neg (by simp [idle]), on_bind_ok (on_changeBus ..), on_bind_ok ran,
    on_bind_ok (on_changeBus ..)]

theorem gives_batch_of_idle (idle : w.bus.dispatching = false)
    (gives : (batch dispatch body).Gives w a v) :
    ∃ u, body.Gives { w with bus := { w.bus with dispatching := true } } a u ∧
      dispatch.Gives { u with bus := { u.bus with dispatching := false } } () v := by
  simp only [batch, gives_bind, gives_get] at gives
  obtain ⟨_, _, ⟨rfl, rfl⟩, gives⟩ := gives
  rw [if_neg (by simp [idle])] at gives
  simp only [gives_bind, gives_changeBus, gives_ofExcept] at gives
  obtain ⟨_, _, rfl, result, u, attempted, _, _, rfl, _, x, dispatched, rfl, rfl⟩ := gives
  rcases gives_attempt.mp attempted with ⟨_, ⟨⟩, ran⟩ | ⟨_, ⟨⟩, -⟩
  exact ⟨u, ran, dispatched⟩

end

variable {call : Caller} {dispatch : Act Unit} {perform : Command → Act Reply} {count id : Nat}
  {job : Job} {running : Jobs Job} {e : Error} {u v w : World}

/-! ### Deliveries -/

/-- Each event reaches the listeners that are registered when its turn comes. -/
theorem gives_deliver_cons {event : Event} {events : List Event} :
    (deliver perform (event :: events)).Gives w () v ↔ ∃ u,
      (tell perform event ((w.sweep.bus.registry.reached event.target event.key).filterMap
        (w.sweep.bus.listeners[·]?))).Gives w.sweep () u ∧
      (deliver perform events).Gives u () v := by
  simp only [deliver, settle, gives_bind, gives_modify, gives_get]
  constructor
  · rintro ⟨_, _, rfl, _, _, ⟨rfl, rfl⟩, _, u, told, rest⟩
    exact ⟨u, told, rest⟩
  · rintro ⟨u, told, rest⟩
    exact ⟨(), _, rfl, _, _, ⟨rfl, rfl⟩, (), u, told, rest⟩

/-! ### Flushes -/

/-- Where no job is left nothing is done. -/
theorem on_drain_of_rested (none : w.bus.scheduler.running = []) :
    (drain call dispatch perform count).on w = (.ok (), w) := by
  cases count with
  | zero => rw [drain, on_bind_ok (on_get w), none]; rfl
  | succ count => rw [drain, on_bind_ok (on_get w), Scheduler.next?, none]; rfl

/-- The first job runs without itself among those that are left; if it fails these are given up. -/
theorem on_drain_succ (next : w.bus.scheduler.running = (id, job) :: running) :
    (drain call dispatch perform (count + 1)).on w =
      match (holding job.values (job.run call dispatch perform)).on
        { w with bus := { w.bus with scheduler := { w.bus.scheduler with running } } } with
      | (.ok _, x) => (drain call dispatch perform count).on x
      | (.error (.raised e), x) =>
        (.error (.raised e), { x with bus := { x.bus with scheduler := x.bus.scheduler.abandon } })
      | (.error .endless, x) => (.error .endless, x) := by
  rw [drain, on_bind_ok (on_get w), Scheduler.next?, next]
  dsimp only
  rw [on_bind_ok (on_changeBus ..)]
  have attempted := on_attempt (holding job.values (job.run call dispatch perform))
    { w with bus := { w.bus with scheduler := { w.bus.scheduler with running } } }
  rcases ran : (holding job.values (job.run call dispatch perform)).on
    { w with bus := { w.bus with scheduler := { w.bus.scheduler with running } } } with
    ⟨(e | _) | _, x⟩ <;> rw [ran] at attempted
  · exact on_bind_ok attempted
  · exact on_bind_error attempted
  · exact on_bind_ok attempted

theorem gives_drain_zero :
    (drain call dispatch perform 0).Gives w () v ↔ w.bus.scheduler.running = [] ∧ w = v := by
  simp only [drain, gives_bind, gives_get]
  constructor
  · rintro ⟨_, _, ⟨rfl, rfl⟩, gives⟩
    split at gives
    · next none => exact ⟨List.isEmpty_iff.mp none, (gives_pure.mp gives).2⟩
    · exact absurd gives gives_throw
  · rintro ⟨none, rfl⟩
    exact ⟨w, w, ⟨rfl, rfl⟩, by rw [none]; exact gives_pure.mpr ⟨rfl, rfl⟩⟩

theorem gives_drain_succ : (drain call dispatch perform (count + 1)).Gives w () v ↔
    w.bus.scheduler.running = [] ∧ w = v ∨ ∃ id job running x,
      w.bus.scheduler.running = (id, job) :: running ∧
      (holding job.values (job.run call dispatch perform)).Gives
        { w with bus := { w.bus with scheduler := { w.bus.scheduler with running } } } () x ∧
      (drain call dispatch perform count).Gives x () v := by
  rcases next : w.bus.scheduler.running with _ | ⟨⟨id, job⟩, running⟩
  · rw [Gives, on_drain_of_rested next]
    simp
  · rw [Gives, on_drain_succ next]
    constructor
    · intro gives
      refine .inr ⟨id, job, running, ?_⟩
      rcases ran : (holding job.values (job.run call dispatch perform)).on
        { w with bus := { w.bus with scheduler := { w.bus.scheduler with running } } } with
        ⟨(e | _) | _, x⟩ <;> rw [ran] at gives
      · cases gives
      · cases gives
      · exact ⟨x, rfl, ran, gives⟩
    · rintro (⟨none, -⟩ | ⟨_, _, _, x, same, ran, rest⟩)
      · cases none
      · cases same
        rw [ran.on]
        exact rest

/-- A flush runs the jobs that were marked when it began. -/
theorem on_flush_begin : (flush call dispatch perform).on w =
    (drain call dispatch perform w.bus.scheduler.begin.running.length).on
      { w with bus := { w.bus with scheduler := w.bus.scheduler.begin } } := rfl

/-! ### Cycles -/

theorem on_cycles_of_isEmpty (empty : w.bus.queue.isEmpty = true) :
    (cycles call dispatch perform count).on w = (.ok (), w) := by
  cases count <;> rw [cycles, on_bind_ok (on_get w)] <;> simp [empty]

theorem waits_of_cycles_error {fault : Fault}
    (fails : (cycles call dispatch perform count).on w = (.error fault, v)) :
    w.bus.queue.isEmpty = false := by
  rw [Bool.eq_false_iff]
  intro empty
  rw [on_cycles_of_isEmpty empty] at fails
  cases fails

/-- Events that wait when all cycles are used up are too many. -/
theorem on_cycles_zero (waits : w.bus.queue.isEmpty = false) :
    (cycles call dispatch perform 0).on w =
      (.error (.raised (.cycleOverrun w.bus.ceiling)), w) := by
  rw [cycles, on_bind_ok (on_get w)]
  simp [waits]

/-- A cycle takes all that waits, delivers it and flushes, and others follow. -/
theorem on_cycles_succ (waits : w.bus.queue.isEmpty = false) :
    (cycles call dispatch perform (count + 1)).on w =
      (holding (w.bus.queue.events.flatMap Event.values) (deliver perform w.bus.queue.events) >>=
        fun _ => flush call dispatch perform >>= fun _ => cycles call dispatch perform count).on
          { w with bus := { w.bus with queue := {} } } := by
  rw [cycles, on_bind_ok (on_get w)]
  dsimp only
  rw [if_neg (by simp [waits]), on_bind_ok (on_changeBus ..)]

theorem gives_cycles_zero :
    (cycles call dispatch perform 0).Gives w () v ↔ w.bus.queue.isEmpty = true ∧ w = v := by
  rw [Gives]
  cases waits : w.bus.queue.isEmpty with
  | true => simp [on_cycles_of_isEmpty waits]
  | false => simp [on_cycles_zero waits]

theorem gives_cycles_succ : (cycles call dispatch perform (count + 1)).Gives w () v ↔
    w.bus.queue.isEmpty = true ∧ w = v ∨ w.bus.queue.isEmpty = false ∧ ∃ told flushed,
      (holding (w.bus.queue.events.flatMap Event.values)
        (deliver perform w.bus.queue.events)).Gives { w with bus := { w.bus with queue := {} } } ()
          told ∧
      (flush call dispatch perform).Gives told () flushed ∧
      (cycles call dispatch perform count).Gives flushed () v := by
  cases waits : w.bus.queue.isEmpty with
  | true =>
    rw [Gives, on_cycles_of_isEmpty waits]
    simp
  | false =>
    rw [Gives, on_cycles_succ waits, ← Gives]
    simp only [gives_bind, Bool.false_eq_true, false_and, false_or, true_and]
    constructor
    · rintro ⟨_, told, delivered, _, flushed, flushes, rest⟩
      exact ⟨told, flushed, delivered, flushes, rest⟩
    · rintro ⟨told, flushed, delivered, flushes, rest⟩
      exact ⟨(), told, delivered, (), flushed, flushes, rest⟩

/-! ### Dispatches -/

/-- While another dispatch is under way, or where nothing waits, nothing is done. -/
theorem on_dispatchIfIdle_of_still
    (still : w.bus.dispatching = true ∨ w.bus.queue.isEmpty = true) :
    (dispatchIfIdle call dispatch perform).on w = (.ok (), w) := by
  rw [dispatchIfIdle, on_bind_ok (on_get w)]
  dsimp only
  rw [if_pos (by simpa using still)]
  rfl

section
variable (idle : w.bus.dispatching = false)
include idle

/-- A dispatch from an idle bus ends as its cycles end: after an error nothing is left. -/
theorem on_dispatchIfIdle_of_idle : (dispatchIfIdle call dispatch perform).on w =
    match (cycles call dispatch perform w.bus.ceiling).on
      { w with bus := { w.bus with dispatching := true } } with
    | (.ok _, u) => (.ok (), { u with bus := { u.bus with dispatching := false } })
    | (.error (.raised e), u) => (.error (.raised e),
      { u with bus := { u.bus with dispatching := false, queue := {}, scheduler := {} } })
    | (.error .endless, u) => (.error .endless, u) := by
  cases waits : w.bus.queue.isEmpty with
  | true =>
    have still : (cycles call dispatch perform w.bus.ceiling).on
        { w with bus := { w.bus with dispatching := true } } =
          (.ok (), { w with bus := { w.bus with dispatching := true } }) :=
      on_cycles_of_isEmpty waits
    rw [on_dispatchIfIdle_of_still (.inr waits), still]
    exact congrArg (Prod.mk _) (by rw [← idle])
  | false =>
    rw [dispatchIfIdle, on_bind_ok (on_get w)]
    dsimp only
    rw [if_neg (by simp [idle, waits]), on_bind_ok (on_changeBus ..)]
    have attempted := on_attempt (cycles call dispatch perform w.bus.ceiling)
      { w with bus := { w.bus with dispatching := true } }
    rcases cycled : (cycles call dispatch perform w.bus.ceiling).on
      { w with bus := { w.bus with dispatching := true } } with ⟨(e | _) | _, u⟩ <;>
      rw [cycled] at attempted
    · exact on_bind_ok attempted
    · exact on_bind_error attempted
    · exact on_bind_ok attempted

theorem gives_dispatchIfIdle : (dispatchIfIdle call dispatch perform).Gives w () v ↔ ∃ u,
    (cycles call dispatch perform w.bus.ceiling).Gives
      { w with bus := { w.bus with dispatching := true } } () u ∧
    v = { u with bus := { u.bus with dispatching := false } } := by
  rw [Gives, on_dispatchIfIdle_of_idle idle]
  unfold Gives
  rcases (cycles call dispatch perform w.bus.ceiling).on
    { w with bus := { w.bus with dispatching := true } } with ⟨(e | _) | _, u⟩ <;>
    simp [eq_comm]

theorem raises_dispatchIfIdle :
    (dispatchIfIdle call dispatch perform).on w = (.error (.raised e), v) ↔ ∃ u,
      (cycles call dispatch perform w.bus.ceiling).on
        { w with bus := { w.bus with dispatching := true } } = (.error (.raised e), u) ∧
      v = { u with bus := { u.bus with dispatching := false, queue := {}, scheduler := {} } } := by
  rw [on_dispatchIfIdle_of_idle idle]
  rcases (cycles call dispatch perform w.bus.ceiling).on
    { w with bus := { w.bus with dispatching := true } } with ⟨(e' | _) | _, u⟩ <;>
    simp [eq_comm, and_assoc]

end

end ReactiveQuery.Act
