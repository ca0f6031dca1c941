import ReactiveQuery.Proofs.Bus.Program
import ReactiveQuery.Proofs.Bus.Deferral
import ReactiveQuery.Proofs.Change.Queue

/-! Quiescence.  Whatever an engine is made to do, and however that ends, the bus comes to rest: it
is not dispatching, and no event and no job waits.  While a dispatch or a batch is open nothing of
this is done, and no call tells of it. -/

namespace ReactiveQuery

namespace Act

variable {α β : Type} {x : Act α} {f : α → Act β} {u v w : World}

/-- The activity ends in a world, with a result or with an error. -/
def Leaves (act : Act α) (w v : World) : Prop := ∃ r, act.on w = (r, v) ∧ r ≠ .error .endless

theorem Gives.leaves {a : α} (gives : x.Gives w a v) : x.Leaves w v := ⟨.ok a, gives, nofun⟩

theorem leaves_self (ends : (x.on w).1 ≠ .error .endless) : x.Leaves w (x.on w).2 :=
  ⟨_, rfl, ends⟩

theorem leaves_of_raised {e : Error} (fails : x.on w = (.error (.raised e), v)) : x.Leaves w v :=
  ⟨_, fails, nofun⟩

/-- A sequence ends as its first part fails, or as the rest ends. -/
theorem ends_bind {r : Except Fault β} (outcome : (x >>= f).on w = (r, v))
    (ends : r ≠ .error .endless) :
    (∃ e, r = .error (.raised e) ∧ x.on w = (.error (.raised e), v)) ∨
      ∃ a u, x.Gives w a u ∧ (f a).on u = (r, v) := by
  rw [on_bind] at outcome
  rcases first : x.on w with ⟨(e | _) | a, u⟩ <;> rw [first] at outcome
  · obtain ⟨rfl, rfl⟩ := Prod.mk.inj outcome
    exact .inl ⟨e, rfl, rfl⟩
  · exact absurd (Prod.mk.inj outcome).1.symm ends
  · exact .inr ⟨a, u, first, outcome⟩

/-- A sequence raises what its first part raises, or the rest. -/
theorem raised_bind {e : Error} (fails : (x >>= f).on w = (.error (.raised e), v)) :
    x.on w = (.error (.raised e), v) ∨
      ∃ a u, x.Gives w a u ∧ (f a).on u = (.error (.raised e), v) := by
  rcases ends_bind fails (by simp) with ⟨e', same, first⟩ | rest
  · rw [Except.error.injEq, Fault.raised.injEq] at same
    exact .inl (same ▸ first)
  · exact .inr rest

theorem leaves_bind (leaves : (x >>= f).Leaves w v) :
    (∃ e, x.on w = (.error (.raised e), v)) ∨ ∃ a u, x.Gives w a u ∧ (f a).Leaves u v := by
  obtain ⟨r, outcome, ends⟩ := leaves
  rcases ends_bind outcome ends with ⟨e, -, fails⟩ | ⟨a, u, gives, rest⟩
  · exact .inl ⟨e, fails⟩
  · exact .inr ⟨a, u, gives, r, rest, ends⟩

/-- After a first part that succeeds the rest ends. -/
theorem Gives.leaves_bind {a : α} (gives : x.Gives w a u) :
    (x >>= f).Leaves w v ↔ (f a).Leaves u v := by
  unfold Leaves
  rw [on_bind_ok gives]

theorem Gives.leaves_iff {a : α} (gives : x.Gives w a u) : x.Leaves w v ↔ v = u := by
  unfold Leaves
  rw [gives.on]
  constructor
  · rintro ⟨_, outcome, -⟩
    exact (Prod.mk.inj outcome).2.symm
  · rintro rfl
    exact ⟨_, rfl, nofun⟩

@[simp] theorem leaves_pure {a : α} : (pure a : Act α).Leaves w v ↔ v = w :=
  (gives_pure.mpr ⟨rfl, rfl⟩ : (pure a : Act α).Gives w a w).leaves_iff

@[simp] theorem leaves_changeBus {change : Bus → Bus} :
    (changeBus change).Leaves w v ↔ v = { w with bus := change w.bus } :=
  (gives_changeBus.mpr rfl : (changeBus change).Gives w () _).leaves_iff

@[simp] theorem leaves_get_bind {f : World → Act β} :
    ((get : Act World) >>= f).Leaves w v ↔ (f w).Leaves w v :=
  (gives_get.mpr ⟨rfl, rfl⟩ : (get : Act World).Gives w w w).leaves_bind

@[simp] theorem leaves_settle_bind {f : Unit → Act β} :
    (settle >>= f).Leaves w v ↔ (f ()).Leaves w.sweep v :=
  (gives_modify.mpr rfl : settle.Gives w () w.sweep).leaves_bind

@[simp] theorem not_leaves_endless : ¬(throw .endless : Act α).Leaves w v := by
  simp [Leaves]

/-- After a first part that cannot fail the rest ends. -/
theorem leaves_bind_of_ok (leaves : (x >>= f).Leaves w v)
    (ok : ∀ e u, x.on w ≠ (.error (.raised e), u)) :
    ∃ a u, x.Gives w a u ∧ (f a).Leaves u v :=
  (leaves_bind leaves).resolve_left fun ⟨e, fails⟩ => ok e v fails

theorem on_attempt_ne_raised (e : Error) : (attempt x).on w ≠ (.error (.raised e), u) := by
  rw [on_attempt]
  rcases x.on w with ⟨(_ | _) | _, _⟩ <;> simp

theorem leaves_attempt (leaves : (attempt x).Leaves w v) : x.Leaves w v := by
  obtain ⟨r, outcome, ends⟩ := leaves
  rw [on_attempt] at outcome
  rcases first : x.on w with ⟨(e | _) | a, u⟩ <;> rw [first] at outcome <;>
    obtain ⟨rfl, rfl⟩ := Prod.mk.inj outcome
  · exact leaves_of_raised first
  · exact absurd rfl ends
  · exact ⟨_, first, nofun⟩

theorem Gives.leaves_of_attempt {r : Except Error α} (gives : (attempt x).Gives w r v) :
    x.Leaves w v := leaves_attempt gives.leaves

theorem leaves_holding {values : List Value} (leaves : (holding values x).Leaves w v) :
    ∃ u, x.Leaves { w with held := values ++ w.held } u ∧ v = { u with held := w.held } := by
  obtain ⟨r, outcome, ends⟩ := leaves
  rw [on_holding] at outcome
  obtain ⟨rfl, rfl⟩ := Prod.mk.inj outcome
  exact ⟨_, ⟨_, rfl, ends⟩, rfl⟩

end Act

namespace Scheduler

variable {J : Type} {s t : Scheduler J} {job : J}

theorem eq_empty (marked : s.marked = []) (running : s.running = []) : s = {} := by
  obtain ⟨_, _⟩ := s
  cases marked
  cases running
  rfl

theorem running_of_next?_eq_some (taken : s.next? = some (job, t)) :
    ∃ id, s.running = (id, job) :: t.running ∧ t.marked = s.marked := by
  unfold next? at taken
  split at taken
  · cases taken
  · next id first rest here =>
    cases taken
    exact ⟨id, here, rfl⟩

end Scheduler

/-- Commands that leave the scheduler to live queries. -/
def Scope.clean (K : Command → Prop) : Scope := ⟨K, False⟩

namespace Bus

/-- Nothing waits. -/
structure Quiet (b : Bus) : Prop where
  queue : b.queue.isEmpty = true
  scheduler : b.scheduler = {}

/-- A bus whose queue is in order, and whose listeners and jobs keep to what is allowed. -/
structure Orderly (K : Command → Prop) (b : Bus) : Prop where
  indexed : b.queue.Indexed
  listeners : ∀ l ∈ b.listeners, (Scope.clean K).Hears l
  jobs : ∀ e ∈ b.scheduler.marked ++ b.scheduler.running, (Scope.clean K).Admits e.2

/-- How a bus may change: the flag stays; an open bus keeps its jobs, and an idle one that is
quiet is quiet again. -/
structure Moves (K : Command → Prop) (b c : Bus) : Prop where
  orderly : c.Orderly K
  dispatching : c.dispatching = b.dispatching
  busy : b.dispatching = true → c.scheduler = b.scheduler
  idle : b.dispatching = false → b.Quiet → c.Quiet

/-- How an open bus may change before events are dispatched. -/
structure Fills (K : Command → Prop) (b c : Bus) : Prop where
  orderly : c.Orderly K
  dispatching : c.dispatching = b.dispatching
  scheduler : c.scheduler = b.scheduler

variable {K : Command → Prop} {b c d : Bus}

theorem Fills.refl (orderly : b.Orderly K) : Fills K b b := ⟨orderly, rfl, rfl⟩

theorem Fills.trans (first : Fills K b c) (second : Fills K c d) : Fills K b d :=
  ⟨second.orderly, second.dispatching.trans first.dispatching,
    second.scheduler.trans first.scheduler⟩

theorem Moves.trans (first : Moves K b c) (second : Moves K c d) : Moves K b d where
  orderly := second.orderly
  dispatching := second.dispatching.trans first.dispatching
  busy open_ := (second.busy (first.dispatching.trans open_)).trans (first.busy open_)
  idle rests quiet := second.idle (first.dispatching.trans rests) (first.idle rests quiet)

/-- What a program does of its own. -/
theorem Orderly.moves (orderly : b.Orderly K) (keeps : (Scope.clean K).Keeps b c) :
    Moves K b c where
  orderly := {
    indexed := keeps.queue ▸ orderly.indexed
    listeners := fun l member => (keeps.listeners l member).elim (orderly.listeners l) id
    jobs := (keeps.scheduler.resolve_left id) ▸ orderly.jobs }
  dispatching := keeps.dispatching
  busy _ := keeps.scheduler.resolve_left id
  idle _ quiet :=
    ⟨keeps.queue ▸ quiet.queue, (keeps.scheduler.resolve_left id).trans quiet.scheduler⟩

end Bus

namespace Act

variable {α : Type} {K : Command → Prop} {u v w : World}

/-- A way to dispatch that lets an open bus be and brings an idle one to rest. -/
structure Settling (K : Command → Prop) (dispatch : Act Unit) : Prop where
  busy : ∀ w, w.bus.dispatching = true → ∀ r v, dispatch.on w = (r, v) → r ≠ .error .endless →
    r = .ok () ∧ v = w
  idle : ∀ w v, w.bus.dispatching = false → w.bus.Orderly K → w.bus.scheduler = {} →
    dispatch.Leaves w v → v.bus.Orderly K ∧ v.bus.dispatching = false ∧ v.bus.Quiet

theorem enqueue_fills (orderly : w.bus.Orderly K) (e : Event) :
    ∃ v, (enqueue e).Gives w () v ∧ w.bus.Fills K v.bus := by
  obtain ⟨r, same⟩ := World.bus_sweep w
  refine ⟨_, rfl, ?_⟩
  dsimp only
  have swept : w.bus.Fills K w.sweep.bus := by
    rw [same]
    exact ⟨⟨orderly.indexed, orderly.listeners, orderly.jobs⟩, rfl, rfl⟩
  refine swept.trans ?_
  split
  · exact .refl swept.orderly
  · exact ⟨⟨swept.orderly.indexed.enqueue e, swept.orderly.listeners, swept.orderly.jobs⟩, rfl, rfl⟩

theorem enqueueAll_fills (orderly : w.bus.Orderly K) (es : List Event) :
    ∃ v, (enqueueAll es).Gives w () v ∧ w.bus.Fills K v.bus := by
  induction es generalizing w with
  | nil => exact ⟨w, rfl, .refl orderly⟩
  | cons e es ih =>
    obtain ⟨u, first, fills⟩ := enqueue_fills
      (w := { w with held := (e :: es).flatMap Event.values ++ w.held }) orderly e
    obtain ⟨v, rest, fills'⟩ := ih (w := { u with held := w.held }) fills.orderly
    refine ⟨v, ?_, fills.trans fills'⟩
    exact gives_bind.mpr ⟨(), _, gives_holding.mpr ⟨u, first, rfl⟩, rest⟩

/-- A publication that ends has queued its events and dispatched. -/
theorem leaves_publishAll {dispatch : Act Unit} {es : List Event} (orderly : w.bus.Orderly K)
    (leaves : (publishAll dispatch es).Leaves w v) :
    ∃ u, w.bus.Fills K u.bus ∧ dispatch.Leaves u v := by
  obtain ⟨u, gives, fills⟩ := enqueueAll_fills orderly es
  obtain ⟨r, outcome, ends⟩ := leaves
  rw [publishAll, on_bind_ok gives] at outcome
  exact ⟨u, fills, r, outcome, ends⟩

/-- The outermost batch runs with the bus open and then dispatches. -/
theorem leaves_batch_of_idle {dispatch : Act Unit} {body : Act α}
    (idle : w.bus.dispatching = false) (leaves : (batch dispatch body).Leaves w v) :
    ∃ u, body.Leaves { w with bus := { w.bus with dispatching := true } } u ∧
      dispatch.Leaves { u with bus := { u.bus with dispatching := false } } v := by
  obtain ⟨r, outcome, ends⟩ := leaves
  unfold batch at outcome
  rw [on_bind_ok (on_get w), if_neg (by simp [idle]), on_bind_ok (on_changeBus ..)] at outcome
  obtain ⟨result, u, attempted, rest⟩ :=
    leaves_bind_of_ok ⟨r, outcome, ends⟩ fun e _ => on_attempt_ne_raised e
  refine ⟨u, attempted.leaves_of_attempt, ?_⟩
  obtain ⟨r', outcome', ends'⟩ := rest
  rw [on_bind_ok (on_changeBus ..)] at outcome'
  rcases leaves_bind ⟨r', outcome', ends'⟩ with ⟨e, fails⟩ | ⟨_, x, dispatched, last⟩
  · exact leaves_of_raised fails
  · obtain ⟨_, returned, -⟩ := last
    rw [on_ofExcept] at returned
    obtain ⟨-, rfl⟩ := Prod.mk.inj returned
    exact dispatched.leaves

theorem Settling.moves {dispatch : Act Unit} (settling : Settling K dispatch)
    (orderly : u.bus.Orderly K) (scheduler : u.bus.dispatching = false → u.bus.scheduler = {})
    (leaves : dispatch.Leaves u v) :
    v.bus.Orderly K ∧ v.bus.dispatching = u.bus.dispatching ∧
      (u.bus.dispatching = true → v.bus = u.bus) ∧ (u.bus.dispatching = false → v.bus.Quiet) := by
  cases flag : u.bus.dispatching with
  | true =>
    obtain ⟨r, outcome, ends⟩ := leaves
    obtain ⟨rfl, rfl⟩ := settling.busy u flag r v outcome ends
    exact ⟨orderly, flag, fun _ => rfl, nofun⟩
  | false =>
    obtain ⟨orderly', flag', quiet⟩ := settling.idle u v flag orderly (scheduler flag) leaves
    exact ⟨orderly', flag', nofun, fun _ => quiet⟩

end Act

namespace Program

variable {α : Type} {K : Command → Prop}

/-- Whatever a program does, the bus stays in order, and what was quiet while idle is so again. -/
theorem moves (p : Program (Scope.clean K) (Act.Settling K) α) {w v : World}
    (orderly : w.bus.Orderly K) (rests : w.bus.dispatching = false → w.bus.Quiet)
    (leaves : p.act.Leaves w v) : w.bus.Moves K v.bus := by
  induction p generalizing w v with
  | own act own =>
    obtain ⟨r, outcome, -⟩ := leaves
    have keeps := own w
    rw [show act.on w = (r, v) from outcome] at keeps
    exact orderly.moves keeps
  | bind p f first rest =>
    rcases Act.leaves_bind leaves with ⟨e, stops⟩ | ⟨a, u, gives, goes⟩
    · exact first orderly rests (Act.leaves_of_raised stops)
    · have moves := first orderly rests gives.leaves
      refine moves.trans (rest a moves.orderly (fun idle => ?_) goes)
      rw [moves.dispatching] at idle
      exact moves.idle idle (rests idle)
  | attempt p ih => exact ih orderly rests (Act.leaves_attempt leaves)
  | holding values p ih =>
    obtain ⟨u, inner, rfl⟩ := Act.leaves_holding leaves
    have moves : w.bus.Moves K u.bus :=
      ih (w := { w with held := values ++ w.held }) orderly rests inner
    exact moves
  | publish dispatch may es =>
    obtain ⟨u, fills, dispatched⟩ := Act.leaves_publishAll orderly leaves
    have scheduler : u.bus.dispatching = false → u.bus.scheduler = {} := fun idle =>
      fills.scheduler.trans (rests (fills.dispatching ▸ idle)).scheduler
    obtain ⟨orderly', flag, busy, idle⟩ := may.moves fills.orderly scheduler dispatched
    refine ⟨orderly', flag.trans fills.dispatching, fun open_ => ?_, fun still _ => ?_⟩
    · rw [busy (fills.dispatching.trans open_)]
      exact fills.scheduler
    · exact idle (fills.dispatching.trans still)
  | batch dispatch may body ih =>
    cases flag : w.bus.dispatching with
    | true =>
      obtain ⟨r, outcome, ends⟩ := leaves
      rw [show (Program.batch dispatch may body).act = Act.batch dispatch body.act from rfl,
        Act.on_batch_of_busy flag] at outcome
      exact ih orderly rests ⟨r, outcome, ends⟩
    | false =>
      obtain ⟨u, inner, dispatched⟩ := Act.leaves_batch_of_idle flag leaves
      have opened : Bus.Orderly K { w.bus with dispatching := true } :=
        ⟨orderly.indexed, orderly.listeners, orderly.jobs⟩
      have moves :=
        ih (w := { w with bus := { w.bus with dispatching := true } }) opened nofun inner
      have scheduler : u.bus.scheduler = {} := (moves.busy rfl).trans (rests flag).scheduler
      have closed : Bus.Orderly K { u.bus with dispatching := false } :=
        ⟨moves.orderly.indexed, moves.orderly.listeners, moves.orderly.jobs⟩
      obtain ⟨orderly', flag', -, idle⟩ := may.moves
        (u := { u with bus := { u.bus with dispatching := false } }) closed (fun _ => scheduler)
        dispatched
      exact ⟨orderly', flag'.trans flag.symm, fun busy => by simp [flag] at busy,
        fun _ _ => idle rfl⟩

end Program

namespace Bus

/-- An open bus in order. -/
structure Busy (K : Command → Prop) (b : Bus) : Prop where
  orderly : b.Orderly K
  dispatching : b.dispatching = true

variable {K : Command → Prop}

theorem Busy.sweep {w : World} (busy : w.bus.Busy K) : w.sweep.bus.Busy K := by
  have ⟨swept, same⟩ := World.bus_sweep w
  rw [same]
  exact ⟨⟨busy.orderly.indexed, busy.orderly.listeners, busy.orderly.jobs⟩, busy.dispatching⟩

theorem Busy.hears {b : Bus} (busy : b.Busy K) (numbers : List Nat) :
    ∀ l ∈ numbers.filterMap (b.listeners[·]?), (Scope.clean K).Hears l := fun l member => by
  obtain ⟨n, -, found⟩ := List.mem_filterMap.mp member
  exact busy.orderly.listeners l (Array.mem_of_getElem? found)

end Bus

namespace Act

section
variable {α : Type} {K : Command → Prop} {u v w : World}

/-- While the bus is open a program leaves the jobs as they are. -/
theorem Made.busy {act : Act α} (made : Made (Scope.clean K) (Settling K) act)
    (busy : w.bus.Busy K) (leaves : act.Leaves w v) :
    v.bus.Busy K ∧ v.bus.scheduler = w.bus.scheduler := by
  obtain ⟨p, rfl⟩ := made
  have moves := p.moves busy.orderly (by simp [busy.dispatching]) leaves
  exact ⟨⟨moves.orderly, moves.dispatching.trans busy.dispatching⟩, moves.busy busy.dispatching⟩

end

variable {K : Command → Prop} {again : Reentry} {u v w : World}
  (made : again.Made (Scope.clean K) (Settling K))
include made

theorem hear_busy {e : Event} {l : Listener} (hears : (Scope.clean K).Hears l)
    (busy : w.bus.Busy K) (leaves : (l.hear again.perform e).Leaves w v) : v.bus.Busy K := by
  cases l with
  | script name members actions =>
    exact (Made.busy (has_hear_script made.allows.perform (fun _ _ => Made.log _) e name members
      hears) busy leaves).1
  | invalidate id route job =>
    simp only [Listener.hear] at leaves
    split at leaves
    · rw [leaves_changeBus] at leaves
      subst leaves
      refine ⟨⟨busy.orderly.indexed, busy.orderly.listeners, fun entry member => ?_⟩,
        busy.dispatching⟩
      have jobs := busy.orderly.jobs
      dsimp only [Scheduler.mark] at member
      split at member
      · exact jobs entry member
      · simp only [List.append_assoc, List.mem_append, List.mem_singleton] at member jobs
        rcases member with old | rfl | running
        · exact jobs entry (.inl old)
        · exact hears
        · exact jobs entry (.inr running)
    · rw [leaves_pure] at leaves
      rwa [leaves]

theorem tell_busy {e : Event} {ls : List Listener} (hear : ∀ l ∈ ls, (Scope.clean K).Hears l)
    (busy : w.bus.Busy K) (leaves : (tell again.perform e ls).Leaves w v) : v.bus.Busy K := by
  induction ls generalizing w with
  | nil =>
    rw [tell, leaves_pure] at leaves
    rwa [leaves]
  | cons l ls ih =>
    have ⟨first, others⟩ := List.forall_mem_cons.mp hear
    have told : ∀ u, (holding ((l :: ls).flatMap Listener.values)
        (l.hear again.perform e)).Leaves w u → u.bus.Busy K := fun u leaves => by
      obtain ⟨x, inner, rfl⟩ := leaves_holding leaves
      have busy' : x.bus.Busy K := hear_busy made first
        (w := { w with held := (l :: ls).flatMap Listener.values ++ w.held }) busy inner
      exact busy'
    rcases leaves_bind leaves with ⟨e, fails⟩ | ⟨_, u, gives, rest⟩
    · exact told v (leaves_of_raised fails)
    · exact ih others (told u gives.leaves) rest

theorem deliver_busy {es : List Event} (busy : w.bus.Busy K)
    (leaves : (deliver again.perform es).Leaves w v) : v.bus.Busy K := by
  induction es generalizing w with
  | nil =>
    rw [deliver, leaves_pure] at leaves
    rwa [leaves]
  | cons e es ih =>
    rw [deliver, leaves_settle_bind, leaves_get_bind] at leaves
    have busy' := busy.sweep
    have hear := busy'.hears (w.sweep.bus.registry.reached e.target e.key)
    rcases leaves_bind leaves with ⟨e, fails⟩ | ⟨_, u, gives, rest⟩
    · exact tell_busy made hear busy' (leaves_of_raised fails)
    · exact ih (tell_busy made hear busy' gives.leaves) rest

/-- Jobs are drained with nothing marked; when that succeeds none is left. -/
theorem drain_busy {count : Nat} {r : Except Fault Unit} (busy : w.bus.Busy K)
    (clean : w.bus.scheduler.marked = [])
    (outcome : (drain again.call again.dispatch again.perform count).on w = (r, v))
    (ends : r ≠ .error .endless) :
    v.bus.Busy K ∧ (r = .ok () → v.bus.scheduler = {}) := by
  induction count generalizing w with
  | zero =>
    rw [drain, on_bind_ok (on_get w)] at outcome
    split at outcome
    · next none =>
      obtain ⟨rfl, rfl⟩ := Prod.mk.inj outcome
      exact ⟨busy, fun _ => Scheduler.eq_empty clean (List.isEmpty_iff.mp none)⟩
    · exact absurd (Prod.mk.inj outcome).1.symm ends
  | succ count ih =>
    rcases next : w.bus.scheduler.running with _ | ⟨⟨id, job⟩, running⟩
    · rw [on_drain_of_rested next] at outcome
      obtain ⟨rfl, rfl⟩ := Prod.mk.inj outcome
      exact ⟨busy, fun _ => Scheduler.eq_empty clean next⟩
    · rw [on_drain_succ next] at outcome
      have jobs := busy.orderly.jobs
      simp only [next, clean, List.nil_append] at jobs
      obtain ⟨admits, others⟩ := List.forall_mem_cons.mp jobs
      have begun : Bus.Busy K
          { w.bus with scheduler := { w.bus.scheduler with running } } := by
        refine ⟨⟨busy.orderly.indexed, busy.orderly.listeners, ?_⟩, busy.dispatching⟩
        simpa only [clean, List.nil_append] using others
      -- The bus is open, so the job leaves the flush as it is, whether it succeeds or not.
      have after : ∀ x,
          (holding job.values (job.run again.call again.dispatch again.perform)).Leaves
          { w with bus := { w.bus with scheduler := { w.bus.scheduler with running } } } x →
          x.bus.Busy K ∧ x.bus.scheduler = { w.bus.scheduler with running } := fun x leaves => by
        obtain ⟨y, inner, rfl⟩ := leaves_holding leaves
        have kept : y.bus.Busy K ∧ y.bus.scheduler = { w.bus.scheduler with running } :=
          Made.busy (has_run made.allows admits) (w := { w with
            bus := { w.bus with scheduler := { w.bus.scheduler with running } }
            held := job.values ++ w.held }) begun inner
        exact kept
      rcases ran : (holding job.values (job.run again.call again.dispatch again.perform)).on
        { w with bus := { w.bus with scheduler := { w.bus.scheduler with running } } } with
        ⟨(e | _) | _, x⟩ <;> rw [ran] at outcome
      · obtain ⟨busy', scheduler⟩ := after x (leaves_of_raised ran)
        obtain ⟨rfl, rfl⟩ := Prod.mk.inj outcome
        refine ⟨⟨⟨busy'.orderly.indexed, busy'.orderly.listeners, fun entry member => ?_⟩,
          busy'.dispatching⟩, fun ended => ?_⟩
        · simp [Scheduler.abandon, scheduler, clean] at member
        · cases ended
      · exact absurd (Prod.mk.inj outcome).1.symm ends
      · obtain ⟨busy', scheduler⟩ := after x (Gives.leaves ran)
        exact ih busy' (by rw [scheduler, clean]) outcome

theorem flush_busy {r : Except Fault Unit} (busy : w.bus.Busy K)
    (outcome : (flush again.call again.dispatch again.perform).on w = (r, v))
    (ends : r ≠ .error .endless) :
    v.bus.Busy K ∧ (r = .ok () → v.bus.scheduler = {}) := by
  rw [on_flush_begin] at outcome
  have begun : Bus.Busy K { w.bus with scheduler := w.bus.scheduler.begin } :=
    ⟨⟨busy.orderly.indexed, busy.orderly.listeners, fun e member =>
      busy.orderly.jobs e (List.mem_append_left _ member)⟩, busy.dispatching⟩
  exact drain_busy made (w := { w with bus := { w.bus with scheduler := w.bus.scheduler.begin } })
    begun rfl outcome ends

/-- Cycles that succeed leave nothing to do. -/
theorem cycles_busy {count : Nat} {r : Except Fault Unit} (busy : w.bus.Busy K)
    (scheduler : w.bus.scheduler = {})
    (outcome : (cycles again.call again.dispatch again.perform count).on w = (r, v))
    (ends : r ≠ .error .endless) : v.bus.Busy K ∧ (r = .ok () → v.bus.Quiet) := by
  induction count generalizing w with
  | zero =>
    cases waits : w.bus.queue.isEmpty with
    | true =>
      rw [on_cycles_of_isEmpty waits] at outcome
      obtain ⟨rfl, rfl⟩ := Prod.mk.inj outcome
      exact ⟨busy, fun _ => ⟨waits, scheduler⟩⟩
    | false =>
      rw [on_cycles_zero waits] at outcome
      obtain ⟨rfl, rfl⟩ := Prod.mk.inj outcome
      exact ⟨busy, nofun⟩
  | succ count ih =>
    cases waits : w.bus.queue.isEmpty with
    | true =>
      rw [on_cycles_of_isEmpty waits] at outcome
      obtain ⟨rfl, rfl⟩ := Prod.mk.inj outcome
      exact ⟨busy, fun _ => ⟨waits, scheduler⟩⟩
    | false =>
      rw [on_cycles_succ waits] at outcome
      have begun : Bus.Busy K { w.bus with queue := {} } :=
        ⟨⟨Queue.indexed_empty, busy.orderly.listeners, busy.orderly.jobs⟩, busy.dispatching⟩
      have served : ∀ u, (holding (w.bus.queue.events.flatMap Event.values)
          (deliver again.perform w.bus.queue.events)).Leaves
            { w with bus := { w.bus with queue := {} } } u → u.bus.Busy K := fun u leaves => by
        obtain ⟨x, inner, rfl⟩ := leaves_holding leaves
        have busy' : x.bus.Busy K := deliver_busy made
          (w := { w with
            bus := { w.bus with queue := {} }
            held := w.bus.queue.events.flatMap Event.values ++ w.held }) begun inner
        exact busy'
      rcases ends_bind outcome ends with ⟨e, rfl, fails⟩ | ⟨_, u, delivered, outcome⟩
      · exact ⟨served v (leaves_of_raised fails), nofun⟩
      · have busy' := served u delivered.leaves
        rcases ends_bind outcome ends with ⟨e, rfl, fails⟩ | ⟨_, x, flushed, outcome⟩
        · exact ⟨(flush_busy made busy' fails nofun).1, nofun⟩
        · have ⟨busy'', emptied⟩ := flush_busy made busy' flushed nofun
          exact ih busy'' (emptied rfl) outcome

/-- Dispatching brings an idle bus to rest, whatever comes of it. -/
theorem settling_dispatchIfIdle :
    Settling K (dispatchIfIdle again.call again.dispatch again.perform) where
  busy w open_ r v outcome ends := by
    rw [on_dispatchIfIdle_of_busy again open_] at outcome
    obtain ⟨rfl, rfl⟩ := Prod.mk.inj outcome
    exact ⟨rfl, rfl⟩
  idle w v idle orderly scheduler leaves := by
    obtain ⟨r, outcome, ends⟩ := leaves
    rw [on_dispatchIfIdle_of_idle idle] at outcome
    have opened : Bus.Busy K { w.bus with dispatching := true } :=
      ⟨⟨orderly.indexed, orderly.listeners, orderly.jobs⟩, rfl⟩
    rcases cycled : (cycles again.call again.dispatch again.perform w.bus.ceiling).on
      { w with bus := { w.bus with dispatching := true } } with ⟨(e | _) | _, u⟩ <;>
      rw [cycled] at outcome <;> obtain ⟨rfl, rfl⟩ := Prod.mk.inj outcome
    · obtain ⟨busy, -⟩ := cycles_busy made
        (w := { w with bus := { w.bus with dispatching := true } }) opened scheduler cycled nofun
      exact ⟨⟨Queue.indexed_empty, busy.orderly.listeners, by simp⟩, rfl, rfl, rfl⟩
    · exact absurd rfl ends
    · obtain ⟨busy, quiet⟩ := cycles_busy made
        (w := { w with bus := { w.bus with dispatching := true } }) opened scheduler cycled nofun
      exact ⟨⟨busy.orderly.indexed, busy.orderly.listeners, busy.orderly.jobs⟩, rfl,
        (quiet rfl).queue, (quiet rfl).scheduler⟩

end Act

end ReactiveQuery
