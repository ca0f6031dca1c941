import ReactiveQuery.Proofs.Bus.Routed

/-! Accepted jobs.  Jobs that are accepted in the course of a dispatch have their turns in it, in the
order in which they were accepted; only those which the last flush accepts have to wait for another
flush. -/

namespace ReactiveQuery

open Deed

/-- Callbacks and jobs, written as routines. -/
structure Schedule (again : Reentry) where
  hear : Event → Listener → Routine Unit
  hear_act : ∀ e l, (hear e l).act = l.hear again.perform e
  run : Job → Routine Unit
  run_act : ∀ job, (run job).act = job.run again.call again.dispatch again.perform

/-- What is done with jobs in a cycle: while its events are told, and in its flush. -/
structure Stage where
  told : List (Deed Job)
  flushed : List (Deed Job)

/-- What is done with jobs in an outermost call: before its dispatch, and in each cycle. -/
structure Ledger where
  first : List (Deed Job)
  stages : List Stage

def Stage.deeds (s : Stage) : List (Deed Job) := s.told ++ s.flushed

def Ledger.deeds (l : Ledger) : List (Deed Job) := l.first ++ l.stages.flatMap Stage.deeds

namespace Routine

/-- Calls that may be outermost. -/
inductive Call : Type → Type 1 where
  | publish (es : List Event) : Call Unit
  | batch {α : Type} (body : Routine α) : Call α

def Call.act {α : Type} (dispatch : Act Unit) : Call α → Act α
  | .publish es => Act.publishAll dispatch es
  | .batch body => Act.batch dispatch body.act

def ret {α : Type} (a : α) : Routine α := .own (pure a) (.of_bus fun _ => rfl)

def log (entry : LogEntry) : Routine Unit := .own (Act.log entry) (.of_bus fun _ => rfl)

/-- What a callback does. -/
def performAll (perform : Command → Routine Reply) (name : String) : List Command → Routine Unit
  | [] => .ret ()
  | c :: cs => .bind (.attempt (perform c)) fun
    | .ok reply => .bind (.log (.did name reply)) fun _ => performAll perform name cs
    | .error e => .bind (.log (.did name (.failed e))) fun _ => performAll perform name cs

/-- What a job does. -/
def performJob (perform : Command → Routine Reply) (name : String) : List Command → Routine Unit
  | [] => .ret ()
  | c :: cs => .bind (perform c) fun reply => .bind (.log (.did name reply)) fun _ =>
    performJob perform name cs

section
variable {perform : Command → Routine Reply} {performs : Command → Act Reply}
  (same : ∀ c, (perform c).act = performs c)
include same

theorem performAll_act (name : String) (cs : List Command) :
    (performAll perform name cs).act = Act.performAll performs name cs := by
  induction cs with
  | nil => rfl
  | cons c cs ih =>
    rw [performAll, Routine.act, Routine.act, same, Act.performAll]
    refine congrArg _ (funext fun result => ?_)
    cases result with
    | ok reply => exact congrArg _ (funext fun _ => ih)
    | error e => exact congrArg _ (funext fun _ => ih)

theorem performJob_act (name : String) (cs : List Command) :
    (performJob perform name cs).act = Act.performJob performs name cs := by
  induction cs with
  | nil => rfl
  | cons c cs ih =>
    rw [performJob, Routine.act, same, Act.performJob]
    exact congrArg _ (funext fun _ => congrArg _ (funext fun _ => ih))

end

end Routine

namespace Schedule

variable {again : Reentry} (C : Schedule again)

def tell (e : Event) : List Listener → Routine Unit
  | [] => .ret ()
  | l :: ls => .bind (.holding ((l :: ls).flatMap Listener.values) (C.hear e l)) fun _ => tell e ls

def deliver : List Event → Routine Unit
  | [] => .ret ()
  | e :: es => .bind (.own Act.settle (.of_own .settle (K := fun _ => True))) fun _ =>
    .bind (.own get (.of_bus fun _ => rfl)) fun w =>
      .bind (C.tell e (w.bus.hearers e)) fun _ => deliver es

/-- What is done when the events of a cycle are taken. -/
def serve (es : List Event) : Routine Unit := .holding (es.flatMap Event.values) (C.deliver es)

def flush : Routine Unit := .flush C.run

theorem tell_act (e : Event) (ls : List Listener) :
    (C.tell e ls).act = Act.tell again.perform e ls := by
  induction ls with
  | nil => rfl
  | cons l ls ih =>
    rw [tell, Routine.act, Routine.act, hear_act, Act.tell]
    exact congrArg _ (funext fun _ => ih)

theorem deliver_act (es : List Event) : (C.deliver es).act = Act.deliver again.perform es := by
  induction es with
  | nil => rfl
  | cons e es ih =>
    refine congrArg _ (funext fun _ => congrArg _ (funext fun w => ?_))
    change ((C.tell e (w.bus.hearers e)).act >>= fun _ => (C.deliver es).act) = _
    rw [tell_act, ih]
    rfl

theorem serve_act (es : List Event) : (C.serve es).act =
    Act.holding (es.flatMap Event.values) (Act.deliver again.perform es) := by
  rw [serve, Routine.act, deliver_act]

theorem flush_act : C.flush.act = Act.flush again.call again.dispatch again.perform := by
  rw [flush, Routine.act, Act.flush_eq]
  exact congrArg _ (funext C.run_act)

/-- What is done with jobs in cycles. -/
def stages : Nat → World → List Stage
  | 0, _ => []
  | count + 1, w =>
    let es := w.bus.queue.events
    let u := { w with bus := { w.bus with queue := {} } }
    if w.bus.queue.isEmpty then [] else (C.serve es).act.after u fun _ told =>
      ⟨(C.serve es).deeds u, C.flush.deeds told⟩ :: C.flush.act.after told fun _ v => stages count v

/-- What is done with jobs in an outermost call. -/
def ledger {α : Type} (w : World) : Routine.Call α → Ledger
  | .publish es => ⟨[], (Act.enqueueAll es).after w fun _ u =>
    C.stages u.bus.ceiling { u with bus := { u.bus with dispatching := true } }⟩
  | .batch body =>
    let opened := { w with bus := { w.bus with dispatching := true } }
    ⟨body.deeds opened, (Act.attempt body.act).after opened fun _ u =>
      C.stages u.bus.ceiling { u with bus := { u.bus with dispatching := true } }⟩

section
variable {u v w : World}

/-- In a cycle that ends well all jobs of the flush have their turns; what is marked afterwards has
been accepted in this flush. -/
theorem waiting_of_flush (busy : w.bus.dispatching = true) (gives : C.flush.act.Gives w () v) :
    w.Keeps (C.flush.deeds w) v ∧
      (allLost (C.flush.deeds w) = [] → v.bus.scheduler.waiting = sinceFlush (C.flush.deeds w)) := by
  have keeps := C.flush.does w v busy gives.leaves
  refine ⟨keeps, fun kept => ?_⟩
  have drained := (Act.on_flushing _ w).symm.trans gives.on
  rw [Scheduler.waiting, Act.running_of_leaves_draining (Act.Gives.leaves drained),
    List.nil_append, keeps.follows.marked kept]
  rfl

/-- Cycles that end well do with the jobs what is told of their stages. -/
theorem keeps_of_cycles {count : Nat} (busy : w.bus.dispatching = true)
    (gives : (Act.cycles again.call again.dispatch again.perform count).Gives w () v) :
    w.Keeps ((C.stages count w).flatMap Stage.deeds) v ∧ (C.stages count w = [] → w = v) ∧
      ∀ s, (C.stages count w).getLast? = some s → allLost s.flushed = [] →
        v.bus.scheduler.waiting = sinceFlush s.flushed := by
  induction count generalizing w with
  | zero =>
    obtain ⟨-, rfl⟩ := Act.gives_cycles_zero.mp gives
    exact ⟨⟨busy, .nil⟩, fun _ => rfl, nofun⟩
  | succ count ih =>
    rw [stages]
    dsimp only
    rcases Act.gives_cycles_succ.mp gives with ⟨empty, rfl⟩ | ⟨waits, x, y, served, flushed, rest⟩
    · rw [if_pos empty]
      exact ⟨⟨busy, .nil⟩, fun _ => rfl, nofun⟩
    · rw [← C.serve_act] at served
      rw [← C.flush_act] at flushed
      have told := (C.serve w.bus.queue.events).does
        { w with bus := { w.bus with queue := {} } } x busy served.leaves
      obtain ⟨ran, since⟩ := C.waiting_of_flush told.busy flushed
      obtain ⟨after, none, last⟩ := ih ran.busy rest
      rw [if_neg (by simp [waits]), served.after, flushed.after]
      refine ⟨⟨after.busy, ?_⟩, nofun, fun s here kept => ?_⟩
      · exact (told.follows.trans ran.follows).trans after.follows
      · cases more : C.stages count y with
        | nil =>
          rw [more] at here
          obtain rfl := Option.some.inj here
          rw [← none more]
          exact since kept
        | cons s' ss =>
          rw [more, List.getLast?_cons_cons, ← more] at here
          exact last s here kept

/-- What a dispatch from an idle bus does with jobs is told by its stages. -/
theorem follows_of_dispatch (idle : w.bus.dispatching = false)
    (gives : (Act.dispatchIfIdle again.call again.dispatch again.perform).Gives w () v)
    {ss : List Stage} (dispatches :
      ss = C.stages w.bus.ceiling { w with bus := { w.bus with dispatching := true } }) :
    w.bus.scheduler.Follows (ss.flatMap Stage.deeds) v.bus.scheduler ∧
      ∀ s, ss.getLast? = some s → allLost s.flushed = [] →
        v.bus.scheduler.waiting = sinceFlush s.flushed := by
  subst dispatches
  obtain ⟨x, cycled, rfl⟩ := (Act.gives_dispatchIfIdle idle).mp gives
  obtain ⟨keeps, -, last⟩ := C.keeps_of_cycles
    (w := { w with bus := { w.bus with dispatching := true } }) rfl cycled
  exact ⟨keeps.follows, last⟩

/-- A call that ends well has done with the jobs what its ledger tells. -/
theorem follows_ledger {α : Type} {call : Routine.Call α} {a : α} (idle : w.bus.dispatching = false)
    (gives : (call.act (Act.dispatchIfIdle again.call again.dispatch again.perform)).Gives w a v) :
    w.bus.scheduler.Follows (C.ledger w call).deeds v.bus.scheduler ∧
      ∀ s, (C.ledger w call).stages.getLast? = some s → allLost s.flushed = [] →
        v.bus.scheduler.waiting = sinceFlush s.flushed := by
  cases call with
  | publish es =>
    obtain ⟨_, u, queued, dispatched⟩ := Act.gives_bind.mp gives
    obtain ⟨scheduler, dispatching⟩ := Act.Aside.enqueueAll es w
    rw [queued.on] at scheduler dispatching
    rw [← scheduler]
    exact C.follows_of_dispatch (dispatching.trans idle) dispatched (queued.after _)
  | batch body =>
    obtain ⟨u, ran, dispatched⟩ := Act.gives_batch_of_idle idle gives
    have attempted := Act.gives_attempt.mpr (.inl ⟨a, rfl, ran⟩)
    have keeps := body.does { w with bus := { w.bus with dispatching := true } } u rfl
      ran.leaves
    obtain ⟨follows, last⟩ := C.follows_of_dispatch
      (w := { u with bus := { u.bus with dispatching := false } }) rfl dispatched
      (attempted.after fun _ u =>
        C.stages u.bus.ceiling { u with bus := { u.bus with dispatching := true } })
    exact ⟨keeps.follows.trans follows, last⟩

/-- No accepted job is lost in an outermost call that succeeds, unless it is given up: whoever clears
the scheduler gives up what waits there, and so does a flush by hand that fails or that begins while
another one is under way.  The jobs that waited before the call and those accepted in it, in this
order, have had their turns, each once, or still wait; and after a dispatch only those still wait
which its last flush has accepted. -/
theorem none_lost {α : Type} {call : Routine.Call α} {a : α} (idle : w.bus.dispatching = false)
    (gives : (call.act (Act.dispatchIfIdle again.call again.dispatch again.perform)).Gives w a v)
    (kept : allLost (C.ledger w call).deeds = []) :
    w.bus.scheduler.waiting ++ allAccepted (C.ledger w call).deeds =
        allRan (C.ledger w call).deeds ++ v.bus.scheduler.waiting ∧
      ∀ s, (C.ledger w call).stages.getLast? = some s →
        v.bus.scheduler.waiting = sinceFlush s.flushed := by
  obtain ⟨follows, last⟩ := C.follows_ledger idle gives
  refine ⟨follows.inOrder kept, fun s here => last s here ?_⟩
  have inside : s ∈ (C.ledger w call).stages := List.mem_of_getLast? here
  refine List.flatMap_eq_nil_iff.mpr fun d member => List.flatMap_eq_nil_iff.mp kept d ?_
  exact List.mem_append_right _ (List.mem_flatMap.mpr ⟨s, inside, List.mem_append_right _ member⟩)

end

/-- Callbacks and jobs of the commands that are given. -/
noncomputable def ofCommands (routed : again.Routed) (perform : Command → Routine Reply)
    (same : ∀ c, (perform c).act = again.perform c) : Schedule again where
  hear e
    | .script name members actions =>
      let concerned (b : Bool) : Routine Unit := if b then
        .bind (.log (.heard name e)) fun _ => .performAll perform name actions
        else .ret ()
      match members with
      | none => .bind (.ret true) concerned
      | some r => .bind (.own (Act.isAlive r)
          (.of_own (K := fun _ => True) (Act.has_isAlive (T := .own _) r))) fun alive =>
        .bind (.own get (.of_bus fun _ => rfl)) fun w =>
          .bind (.ret (alive && w.heap.hasMember r e.target)) concerned
    | .invalidate id route job => if route.accepts e then
        .bind (.mark id job) fun _ => .ret ()
        else .ret ()
  hear_act e l := by
    cases l with
    | script name members actions =>
      have concerned : ∀ b : Bool, (if b = true then
          Routine.bind (.log (.heard name e)) fun _ => .performAll perform name actions
          else .ret ()).act = (do
            if b then
              Act.log (.heard name e)
              Act.performAll again.perform name actions) := fun b => by
        cases b with
        | false => rfl
        | true => exact congrArg _ (funext fun _ => Routine.performAll_act same name actions)
      cases members with
      | none => exact congrArg _ (funext concerned)
      | some r =>
        exact congrArg _ (funext fun _ => congrArg _ (funext fun _ => congrArg _ (funext concerned)))
    | invalidate id route job =>
      unfold Listener.hear
      dsimp only
      split <;> rfl
  run
    | .script name cs => .bind (.log (.job name)) fun _ => .performJob perform name cs
    | .refresh result source d params =>
      Classical.choose (Job.routed_run routed (.refresh result source d params))
  run_act job := by
    cases job with
    | script name cs => exact congrArg _ (funext fun _ => Routine.performJob_act same name cs)
    | refresh result source d params =>
      exact Classical.choose_spec (Job.routed_run routed (.refresh result source d params))

/-- The callbacks and jobs of an engine can be written as routines. -/
theorem nonempty_within (depth : Nat) : Nonempty (Schedule (Reentry.within depth)) := by
  obtain ⟨perform, same⟩ := Classical.axiomOfChoice (Reentry.routed_within depth).perform
  exact ⟨.ofCommands (Reentry.routed_within depth) perform same⟩

end Schedule

namespace Relay

/-- Whoever hears of one key marks a job.  The job marks another one, which marks a third, and
publishes on a second key. -/
def world : World := ((World.start {}).toOption.getD {}).play
  [.subscribe "L" (.id 1) (some (.field "x")) [.mark 7 "first"
      [.mark 8 "second" [.mark 9 "third" []], .publish ⟨.id 1, .field "y", .bool true, .null⟩]],
    .subscribe "M" (.id 1) (some (.field "y")) []]

noncomputable def perform : Command → Routine Reply
  | .mark id name job => .bind (.mark id (.script name job)) fun b => .ret (.bool b)
  | .publish event =>
    .bind (.own (Act.readEvent event)
      (.of_own (K := fun _ => True) (Act.has_readEvent (T := .own _) event))) fun e =>
      .bind (.bind (.own (Act.enqueueAll [e]) (.enqueueAll [e])) fun _ =>
        .dispatch (Reentry.within 7).dispatch (Reentry.routed_within 7).skips) fun _ => .ret .null
  | c => Classical.choose (Command.routed_perform (Reentry.routed_within 7) c)

theorem perform_act (c : Command) : (perform c).act = (Reentry.within 8).perform c := by
  change _ = c.perform (Reentry.within 7)
  cases c with
  | mark id name job =>
    rw [Command.perform]
    rfl
  | publish event =>
    rw [Command.perform]
    rfl
  | _ => exact Classical.choose_spec (Command.routed_perform (Reentry.routed_within 7) _)

noncomputable def schedule : Schedule (Reentry.within 8) :=
  .ofCommands (Reentry.routed_within 8) perform perform_act

def call : Routine.Call Unit := .publish [⟨1, .field "x", .bool true, .null⟩]

def after : World := ((call.act (Reentry.within 9).dispatch).on world).2

theorem gives_call : (call.act (Reentry.within 9).dispatch).Gives world () after :=
  Act.gives_of_toOption (by decide +kernel)

theorem course : ((schedule.ledger world call).stages.map fun s =>
      ((allAccepted s.deeds).map (·.1), (allRan s.deeds).map (·.1))) =
        [([7, 8], [7]), ([9], [8])] ∧ (allLost (schedule.ledger world call).deeds).length = 0 ∧
      (schedule.ledger world call).stages.getLast?.map (fun s => (sinceFlush s.flushed).map (·.1)) =
        some [9] := by
  decide +kernel

/-- Two jobs have their turns in two cycles, and the third, which the last flush accepts, waits. -/
theorem none_lost_call : world.bus.scheduler.waiting ++
      allAccepted (schedule.ledger world call).deeds =
        allRan (schedule.ledger world call).deeds ++ after.bus.scheduler.waiting ∧
    after.bus.scheduler.waiting.map (·.1) = [9] := by
  obtain ⟨-, kept, last⟩ := course
  obtain ⟨s, here, since⟩ := Option.map_eq_some_iff.mp last
  obtain ⟨order, waits⟩ := schedule.none_lost (by decide +kernel) gives_call
    (List.eq_nil_of_length_eq_zero kept)
  exact ⟨order, by rw [waits s here, since]⟩

def start : World := (World.start {}).toOption.getD {}

/-- Who hears of the key has a job marked, which marks another one. -/
def marking : World :=
  start.play [.subscribe "L" .all none [.mark 7 "outer" [.mark 8 "inner" []]]]

/-- Who hears of the key marks a job, and the next one clears the scheduler. -/
def clearing : World := start.play
  [.subscribe "L" .all none [.mark 7 "outer" []], .subscribe "M" .all none [.clear]]

/-- Who hears of the key marks two jobs and flushes by hand, and the first job fails. -/
def flushing : World := start.play
  [.subscribe "L" .all none
    [.mark 7 "outer" [.fail (.invalidOperation "no")], .mark 8 "inner" [], .flush]]

def event : Command := .publish ⟨.id 1, .field "x", .bool true, .null⟩

/-- What the publication fails with, how many marks were accepted, and the jobs that were run. -/
def told (w : World) : Option Error × Nat × List String :=
  (((w.perform event).map (·.1)).bind Reply.error?,
    ((w.next event).log.filter fun
      | .did _ (.value (.bool true)) => true
      | _ => false).length,
    (w.next event).log.filterMap fun
      | .job name => some name
      | _ => none)

/-- A job that the last flush accepts is not run by the time the call returns, and the scheduler may
be cleared or flushed by hand. -/
theorem left_behind : told marking = (none, 2, ["outer"]) ∧ told clearing = (none, 1, []) ∧
    told flushing = (none, 2, ["outer"]) := by
  decide +kernel

end Relay

end ReactiveQuery
