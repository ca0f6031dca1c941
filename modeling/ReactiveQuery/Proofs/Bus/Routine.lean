import ReactiveQuery.Proofs.Bus.Account
import ReactiveQuery.Proofs.Change.Scheduler

/-! Routines: what callbacks, jobs and batches do with the scheduler of an open bus.  A routine marks
jobs, clears the scheduler and flushes it by hand, to any depth, and between that it does whatever
leaves the scheduler alone. -/

namespace ReactiveQuery

namespace Act

variable {α : Type}

/-- An activity that leaves the scheduler as it is, and the bus open or idle as it was. -/
def Aside (act : Act α) : Prop := ∀ w,
  (act.on w).2.bus.scheduler = w.bus.scheduler ∧ (act.on w).2.bus.dispatching = w.bus.dispatching

theorem Aside.of_bus {act : Act α} (same : ∀ w, (act.on w).2.bus = w.bus) : Aside act := fun w => by
  rw [same]
  exact ⟨rfl, rfl⟩

theorem Aside.of_own {K : Command → Prop} {act : Act α} (own : (Scope.clean K).Own act) :
    Aside act := fun w => ⟨(own w).scheduler.resolve_left id, (own w).dispatching⟩

theorem Aside.enqueueAll (es : List Event) : Aside (Act.enqueueAll es) := by
  induction es with
  | nil => exact .of_bus fun _ => rfl
  | cons e es ih =>
    intro w
    obtain ⟨r, same⟩ := World.bus_sweep { w with held := (e :: es).flatMap Event.values ++ w.held }
    have first : (Act.enqueueAll (e :: es)).on w = (Act.enqueueAll es).on
        ((Act.holding ((e :: es).flatMap Event.values) (Act.enqueue e)).on w).2 := rfl
    rw [first]
    obtain ⟨scheduler, dispatching⟩ := ih
      ((Act.holding ((e :: es).flatMap Event.values) (Act.enqueue e)).on w).2
    rw [scheduler, dispatching, on_holding, Act.enqueue, settle, on_bind_ok (on_modify _ _),
      on_changeBus]
    dsimp only
    rw [same]
    split <;> exact ⟨rfl, rfl⟩

section
variable (run : Job → Act Unit)

/-- Runs the jobs of a flush in the given way, at most so many. -/
def draining : Nat → Act Unit
  | 0 => do
    unless (← get).bus.scheduler.running.isEmpty do throw .endless
  | count + 1 => do
    match (← get).bus.scheduler.next? with
    | none => return
    | some (job, scheduler) =>
      changeBus ({ · with scheduler })
      match ← attempt (holding job.values (run job)) with
      | .ok () => draining count
      | .error e =>
        changeBus fun b => { b with scheduler := b.scheduler.abandon }
        raise e

/-- Flushes with the jobs run in the given way. -/
def flushing : Act Unit := do
  changeBus fun b => { b with scheduler := b.scheduler.begin }
  draining run (← get).bus.scheduler.running.length

/-- The world in which the first job of a flush has its turn. -/
def taking (w : World) (running : Jobs Job) : World :=
  { w with bus := { w.bus with scheduler := { w.bus.scheduler with running } } }

theorem on_draining_zero (w : World) : (draining run 0).on w =
    if w.bus.scheduler.running.isEmpty then (.ok (), w) else (.error .endless, w) := by
  rw [draining, on_bind_ok (on_get w)]
  split <;> rfl

theorem on_draining_succ (count : Nat) (w : World) : (draining run (count + 1)).on w =
    match w.bus.scheduler.running with
    | [] => (.ok (), w)
    | (_, job) :: running =>
      match (holding job.values (run job)).on (taking w running) with
      | (.ok _, x) => (draining run count).on x
      | (.error (.raised e), x) =>
        (.error (.raised e), { x with bus := { x.bus with scheduler := x.bus.scheduler.abandon } })
      | (.error .endless, x) => (.error .endless, x) := by
  rw [draining, on_bind_ok (on_get w), Scheduler.next?]
  cases w.bus.scheduler.running with
  | nil => rfl
  | cons entry running =>
    obtain ⟨id, job⟩ := entry
    dsimp only
    rw [on_bind_ok (on_changeBus ..)]
    have attempted := on_attempt (holding job.values (run job)) (taking w running)
    rcases ran : (holding job.values (run job)).on (taking w running) with ⟨(e | _) | _, x⟩ <;>
      rw [ran] at attempted
    · exact on_bind_ok attempted
    · exact on_bind_error attempted
    · exact on_bind_ok attempted

/-- A flush runs the jobs that were marked when it began. -/
theorem on_flushing (w : World) : (flushing run).on w =
    (draining run w.bus.scheduler.marked.length).on
      { w with bus := { w.bus with scheduler := w.bus.scheduler.begin } } := by
  rw [flushing, on_bind_ok (on_changeBus ..), on_bind_ok (on_get _)]
  rfl

/-- A flush that ends has no job left, or its first job fails, or this succeeds and the rest ends. -/
theorem draining_induction {P : Nat → World → Except Fault Unit → World → Prop}
    (rested : ∀ count w, w.bus.scheduler.running = [] → P count w (.ok ()) w)
    (failed : ∀ count w id job running e x, w.bus.scheduler.running = (id, job) :: running →
      (holding job.values (run job)).on (taking w running) = (.error (.raised e), x) →
      P (count + 1) w (.error (.raised e))
        { x with bus := { x.bus with scheduler := x.bus.scheduler.abandon } })
    (passed : ∀ count w id job running x r v, w.bus.scheduler.running = (id, job) :: running →
      (holding job.values (run job)).Gives (taking w running) () x → P count x r v →
      P (count + 1) w r v)
    {count : Nat} {w v : World} {r : Except Fault Unit}
    (outcome : (draining run count).on w = (r, v)) (ends : r ≠ .error .endless) :
    P count w r v := by
  induction count generalizing w with
  | zero =>
    rw [on_draining_zero] at outcome
    split at outcome
    · next none =>
      obtain ⟨rfl, rfl⟩ := Prod.mk.inj outcome
      exact rested 0 w (List.isEmpty_iff.mp none)
    · exact absurd (Prod.mk.inj outcome).1.symm ends
  | succ count ih =>
    rw [on_draining_succ] at outcome
    rcases next : w.bus.scheduler.running with _ | ⟨⟨id, job⟩, running⟩
    · rw [next] at outcome
      obtain ⟨rfl, rfl⟩ := Prod.mk.inj outcome
      exact rested _ w next
    · rw [next] at outcome
      dsimp only at outcome
      rcases ran : (holding job.values (run job)).on (taking w running) with ⟨(e | _) | _, x⟩ <;>
        rw [ran] at outcome
      · obtain ⟨rfl, rfl⟩ := Prod.mk.inj outcome
        exact failed count w id job running e x next ran
      · exact absurd (Prod.mk.inj outcome).1.symm ends
      · exact passed count w id job running x r v next ran (ih outcome)

/-- A flush that ends has none of its jobs left, whether it succeeds or gives up the rest. -/
theorem running_of_leaves_draining {run : Job → Act Unit} {count : Nat} {w v : World}
    (leaves : (draining run count).Leaves w v) : v.bus.scheduler.running = [] := by
  obtain ⟨r, outcome, ends⟩ := leaves
  exact draining_induction run (P := fun _ _ _ v => v.bus.scheduler.running = [])
    (fun _ _ none => none) (fun _ _ _ _ _ _ _ _ _ => rfl) (fun _ _ _ _ _ _ _ _ _ _ rest => rest)
    outcome ends

end

/-- The flush of an engine runs jobs as its activities do. -/
theorem flush_eq (again : Reentry) : flush again.call again.dispatch again.perform =
    flushing (Job.run again.call again.dispatch again.perform) := by
  have drains : ∀ count, drain again.call again.dispatch again.perform count =
      draining (Job.run again.call again.dispatch again.perform) count := fun count => by
    induction count with
    | zero => rfl
    | succ count ih =>
      rw [drain, ih]
      rfl
  rw [flush, flushing]
  simp only [drains]

/-- What is done with jobs while a flush runs. -/
def drained (run : Job → Act Unit) (deeds : Job → World → List (Deed Job)) :
    Nat → World → List (Deed Job)
  | 0, _ => []
  | count + 1, w =>
    match w.bus.scheduler.running with
    | [] => []
    | (id, job) :: running =>
      let u := taking w running
      .ran id job :: (deeds job { u with held := job.values ++ u.held } ++
        match (holding job.values (run job)).on u with
        | (.ok _, v) => drained run deeds count v
        | (.error _, v) => [.lost v.bus.scheduler.running])

/-- What is done with jobs in a flush; it gives up another one that is under way. -/
def flushed (run : Job → Act Unit) (deeds : Job → World → List (Deed Job)) (w : World) :
    List (Deed Job) :=
  .lost w.bus.scheduler.running :: .begun :: drained run deeds w.bus.scheduler.marked.length
    { w with bus := { w.bus with scheduler := w.bus.scheduler.begin } }

end Act

/-- What may be done while the bus is open. -/
inductive Routine : Type → Type 1 where
  | own {α : Type} (act : Act α) (aside : act.Aside) : Routine α
  | bind {α β : Type} (p : Routine α) (f : α → Routine β) : Routine β
  | attempt {α : Type} (p : Routine α) : Routine (Except Error α)
  | holding {α : Type} (values : List Value) (p : Routine α) : Routine α
  | dispatch (act : Act Unit) (skips : act.Skips) : Routine Unit
  | batch {α : Type} (dispatch : Act Unit) (skips : dispatch.Skips) (body : Routine α) : Routine α
  | mark (id : Nat) (job : Job) : Routine Bool
  | clear : Routine Unit
  | flush (run : Job → Routine Unit) : Routine Unit

namespace Routine

variable {α : Type}

/-- What a routine does. -/
def act {α : Type} : Routine α → Act α
  | .own act _ => act
  | .bind p f => p.act >>= fun a => (f a).act
  | .attempt p => Act.attempt p.act
  | .holding values p => Act.holding values p.act
  | .dispatch act _ => act
  | .batch d _ body => Act.batch d body.act
  | .mark id job => Act.onBus fun b =>
    let (accepted, scheduler) := b.scheduler.mark id job
    (accepted, { b with scheduler })
  | .clear => Act.changeBus ({ · with scheduler := {} })
  | .flush run => Act.flushing fun job => (run job).act

/-- What is done with jobs while a routine runs. -/
def deeds {α : Type} : Routine α → World → List (Deed Job)
  | .own _ _, _ => []
  | .bind p f, w => p.deeds w ++ p.act.after w fun a v => (f a).deeds v
  | .attempt p, w => p.deeds w
  | .holding values p, w => p.deeds { w with held := values ++ w.held }
  | .dispatch _ _, _ => []
  | .batch _ _ body, w => body.deeds w
  | .mark id job, w => if (w.bus.scheduler.mark id job).1 then [.accepted id job] else []
  | .clear, w => [.lost w.bus.scheduler.waiting]
  | .flush run, w => Act.flushed (fun job => (run job).act) (fun job => (run job).deeds) w

end Routine

/-- An open bus stays open, and its scheduler comes to be what the deeds make of it. -/
structure World.Keeps (w : World) (ds : List (Deed Job)) (v : World) : Prop where
  busy : v.bus.dispatching = true
  follows : w.bus.scheduler.Follows ds v.bus.scheduler

namespace Act

/-- The deeds of an activity on an open bus. -/
def Does {α : Type} (act : Act α) (deeds : World → List (Deed Job)) : Prop :=
  ∀ w v, w.bus.dispatching = true → act.Leaves w v → w.Keeps (deeds w) v

variable {run : Job → Act Unit} {deeds : Job → World → List (Deed Job)}

theorem Does.holding {α : Type} {act : Act α} {deeds : World → List (Deed Job)}
    (does : act.Does deeds) (values : List Value) :
    (Act.holding values act).Does fun w => deeds { w with held := values ++ w.held } := by
  intro w v busy leaves
  obtain ⟨u, inner, rfl⟩ := leaves_holding leaves
  obtain ⟨busy', follows⟩ := does { w with held := values ++ w.held } u busy inner
  exact ⟨busy', follows⟩

theorem drained_of_rested {count : Nat} {w : World} (none : w.bus.scheduler.running = []) :
    drained run deeds count w = [] := by
  cases count with
  | zero => rfl
  | succ count => rw [drained, none]

/-- A flush does what its jobs do in their turns. -/
theorem does_draining (each : ∀ job, (run job).Does (deeds job)) (count : Nat) :
    (draining run count).Does (drained run deeds count) := by
  rintro w v busy ⟨r, outcome, ends⟩
  refine draining_induction run (P := fun count w _ v => w.bus.dispatching = true →
    w.Keeps (drained run deeds count w) v) ?_ ?_ ?_ outcome ends busy
  · intro count w none busy
    rw [drained_of_rested none]
    exact ⟨busy, .nil⟩
  · intro count w id job running e x next ran busy
    obtain ⟨busy', follows⟩ :=
      (each job).holding job.values (taking w running) x busy (leaves_of_raised ran)
    rw [drained, next]
    dsimp only
    rw [ran]
    exact ⟨busy', .cons (.run next) (follows.trans (Scheduler.Does.abandon).follows)⟩
  · intro count w id job running x r v next ran rest busy
    obtain ⟨busy', follows⟩ := (each job).holding job.values (taking w running) x busy ran.leaves
    obtain ⟨busy'', follows'⟩ := rest busy'
    rw [drained, next]
    dsimp only
    rw [ran.on]
    exact ⟨busy'', .cons (.run next) (follows.trans follows')⟩

theorem does_flushing (each : ∀ job, (run job).Does (deeds job)) :
    (flushing run).Does (flushed run deeds) := by
  intro w v busy ⟨r, outcome, ends⟩
  rw [on_flushing] at outcome
  obtain ⟨busy', follows⟩ := does_draining each w.bus.scheduler.marked.length
    { w with bus := { w.bus with scheduler := w.bus.scheduler.begin } } v busy ⟨r, outcome, ends⟩
  exact ⟨busy', (Scheduler.follows_begin w.bus.scheduler).trans follows⟩

end Act

namespace Routine

variable {α : Type}

/-- All that a routine does with the scheduler of an open bus is told by its deeds. -/
theorem does (p : Routine α) : p.act.Does p.deeds := by
  induction p with
  | own act aside =>
    intro w v busy ⟨r, outcome, _⟩
    obtain ⟨scheduler, dispatching⟩ := aside w
    rw [show act.on w = (r, v) from outcome] at scheduler dispatching
    exact ⟨dispatching.trans busy, by rw [scheduler]; exact .nil⟩
  | bind p f first rest =>
    intro w v busy leaves
    rw [deeds]
    rcases Act.leaves_bind leaves with ⟨e, stops⟩ | ⟨a, u, gives, goes⟩
    · rw [Act.after_of_raised stops, List.append_nil]
      exact first w v busy (Act.leaves_of_raised stops)
    · obtain ⟨busy', follows⟩ := first w u busy gives.leaves
      obtain ⟨busy'', follows'⟩ := rest a u v busy' goes
      rw [gives.after]
      exact ⟨busy'', follows.trans follows'⟩
  | attempt p ih => exact fun w v busy leaves => ih w v busy (Act.leaves_attempt leaves)
  | holding values p ih => exact ih.holding values
  | dispatch act skips =>
    intro w v busy ⟨r, outcome, ends⟩
    -- The bus is open, so a dispatch and the dispatch after a batch are put off.
    obtain ⟨-, rfl⟩ := skips w busy r v outcome ends
    exact ⟨busy, .nil⟩
  | batch d skips body ih =>
    intro w v busy ⟨r, outcome, ends⟩
    rw [show (batch d skips body).act = Act.batch d body.act from rfl,
      Act.on_batch_of_busy busy] at outcome
    exact ih w v busy ⟨r, outcome, ends⟩
  | mark id job =>
    intro w v busy leaves
    obtain rfl :=
      (Act.gives_onBus.mpr ⟨rfl, rfl⟩ : (mark id job).act.Gives w _ _).leaves_iff.mp leaves
    refine ⟨busy, ?_⟩
    rw [deeds, Scheduler.mark_accepted]
    cases waits : w.bus.scheduler.isDirty id with
    | false => exact (Scheduler.Does.accept waits).follows
    | true =>
      dsimp only
      rw [Scheduler.mark, if_pos waits]
      exact .nil
  | clear =>
    intro w v busy leaves
    obtain rfl := Act.leaves_changeBus.mp leaves
    exact ⟨busy, (Scheduler.Does.clear).follows⟩
  | flush run each => exact Act.does_flushing each

end Routine

end ReactiveQuery
