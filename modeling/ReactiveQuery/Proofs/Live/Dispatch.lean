import ReactiveQuery.Engine.Dispatch
import ReactiveQuery.Proofs.Live.Refresh

/-! Dispatch.  Once events and jobs are worked off, every result that was tracked is fresh, and any
other is fresh or as it was. -/

namespace ReactiveQuery

namespace Scheduler

variable {J : Type} {s : Scheduler J} {id id' : Nat} {job : J}

theorem isDirty_mark_self (s : Scheduler J) (id : Nat) (job : J) :
    (s.mark id job).2.isDirty id = true := by
  unfold mark
  split
  · assumption
  · simp [isDirty, Jobs.has]

theorem isDirty_mark (dirty : s.isDirty id' = true) : (s.mark id job).2.isDirty id' = true := by
  unfold mark
  split
  · exact dirty
  · rw [isDirty_iff] at dirty ⊢
    simp only [List.map_append, List.mem_append] at dirty ⊢
    exact dirty.imp_left .inl

theorem running_mark (s : Scheduler J) (id : Nat) (job : J) :
    (s.mark id job).2.running = s.running := by
  unfold mark
  split <;> rfl

theorem mem_marked_mark {x : Nat × J} (member : x ∈ (s.mark id job).2.marked) :
    x ∈ s.marked ∨ x = (id, job) := by
  unfold mark at member
  split at member
  · exact .inl member
  · simpa using member

end Scheduler

/-- Acceptance looks at the target and the key alone. -/
theorem Route.accepts_pair (route : Route) (e : Event) :
    route.accepts e = route.accepts ⟨e.pair.1, e.pair.2, .null, .null⟩ := by cases route <;> rfl

namespace World

variable {M : Nat → Prop} {qs : List LiveQuery} {es : List Event} {e : Event} {v w : World}
  {perform : Command → Act Reply}

/-- Telling listeners marks those that accept, and does nothing else. -/
theorem gives_tell {ls : List Listener}
    (known : ∀ l ∈ ls, ∃ q ∈ qs, ∃ route, l = Listener.invalidate q.result.id route q.job)
    (gives : (Act.tell perform e ls).Gives w () v) :
    ∃ s : Scheduler Job, v = { w with bus := { w.bus with scheduler := s } } ∧
      s.running = w.bus.scheduler.running ∧
      (∀ id, w.bus.scheduler.isDirty id = true → s.isDirty id = true) ∧
      (∀ x ∈ s.marked, x ∈ w.bus.scheduler.marked ∨ ∃ q ∈ qs, x = (q.result.id, q.job)) ∧
      ∀ id route job, Listener.invalidate id route job ∈ ls → route.accepts e = true →
        s.isDirty id = true := by
  induction ls generalizing w with
  | nil =>
    obtain ⟨-, rfl⟩ := Act.gives_pure.mp gives
    exact ⟨w.bus.scheduler, rfl, rfl, fun _ => id, fun _ => .inl, by simp⟩
  | cons l ls ih =>
    obtain ⟨q, member, route, rfl⟩ := known l List.mem_cons_self
    simp only [Act.tell, Act.gives_bind, Act.gives_holding, Listener.hear] at gives
    obtain ⟨_, u, ⟨x, heard, rfl⟩, rest⟩ := gives
    by_cases accepts : route.accepts e = true
    · rw [if_pos accepts, Act.gives_changeBus] at heard
      subst heard
      obtain ⟨s, rfl, running, dirty, marked, told⟩ :=
        ih (fun l inside => known l (List.mem_cons_of_mem _ inside)) rest
      refine ⟨s, rfl, running.trans (Scheduler.running_mark _ _ _),
        fun id before => dirty id (Scheduler.isDirty_mark before), fun x inside => ?_,
        fun id route' job inside ok => ?_⟩
      · rcases marked x inside with before | known
        · rcases Scheduler.mem_marked_mark before with before | rfl
          · exact .inl before
          · exact .inr ⟨q, member, rfl⟩
        · exact .inr known
      · rcases List.mem_cons.mp inside with same | inside
        · cases same
          exact dirty _ (Scheduler.isDirty_mark_self _ _ _)
        · exact told id route' job inside ok
    · rw [if_neg accepts, Act.gives_pure] at heard
      obtain ⟨-, rfl⟩ := heard
      obtain ⟨s, rfl, running, dirty, marked, told⟩ :=
        ih (fun l inside => known l (List.mem_cons_of_mem _ inside)) rest
      refine ⟨s, rfl, running, dirty, marked, fun id route' job inside ok => ?_⟩
      rcases List.mem_cons.mp inside with same | inside
      · cases same
        exact absurd ok accepts
      · exact told id route' job inside ok

namespace Sound

/-- Whoever hears of an event is among the listeners that it reaches. -/
theorem reached_hears (sound : w.Sound M qs) {q : LiveQuery} (member : q ∈ qs)
    (alive : w.heap.isAlive q.result.loc = true) (hears : q.Hears e.pair) :
    ∃ route, Listener.invalidate q.result.id route q.job ∈
      (w.bus.registry.reached e.target e.key).filterMap (w.bus.listeners[·]?) ∧
      route.accepts e = true := by
  obtain ⟨d, inside, topic, accepts⟩ := hears
  obtain ⟨n, listens, here⟩ := sound.registered q member alive d inside
  refine ⟨q.route d, List.mem_filterMap.mpr ⟨n, List.mem_flatMap.mpr ⟨_, topic, here⟩, listens⟩, ?_⟩
  rwa [Route.accepts_pair]

/-- Delivery turns events into jobs. -/
theorem deliver (sound : w.Sound M qs) (queued : w.Queued qs)
    (rested : w.bus.scheduler.running = []) (gives : (Act.deliver perform es).Gives w () v) :
    v.Sound M qs ∧ v.Queued qs ∧ v.bus.scheduler.running = [] ∧ w.Goes qs es [] v := by
  induction es generalizing w with
  | nil =>
    obtain ⟨-, rfl⟩ := Act.gives_pure.mp gives
    exact ⟨sound, queued, rested, .refl ..⟩
  | cons e es ih =>
    obtain ⟨u, told, rest⟩ := Act.gives_deliver_cons.mp gives
    have swept := shrinks_sweep sound.owned
    have waits := waiting_sweep w
    have settled := sound.shrinks swept
    have known : ∀ l ∈ (w.sweep.bus.registry.reached e.target e.key).filterMap
        (w.sweep.bus.listeners[·]?), ∃ q ∈ qs, ∃ route,
        l = Listener.invalidate q.result.id route q.job := fun l inside => by
      obtain ⟨n, -, listens⟩ := List.mem_filterMap.mp inside
      exact settled.listeners n l listens
    obtain ⟨s, rfl, running, dirty, marked, accepted⟩ := gives_tell known told
    have shrinks := swept.waiting w.sweep.bus.queue s
    have queued' : Queued qs { w.sweep with bus := { w.sweep.bus with scheduler := s } } := by
      refine ⟨fun x inside => ?_, ?_, ?_⟩
      · rw [List.mem_append, running, waits.2, rested] at inside
        rcases marked x (by simpa using inside) with before | known
        · exact queued.jobs x (List.mem_append_left _ (waits.2 ▸ before))
        · exact known
      · exact waits.1 ▸ queued.indexed
      · exact waits.1 ▸ queued.contents
    have goes :
        w.Goes qs (e :: es) es { w.sweep with bus := { w.sweep.bus with scheduler := s } } := by
      refine sound.goes_of_shrinks shrinks fun q member alive due => ?_
      rcases due with waiting | ⟨p, hears, firm, ⟨f, inside, pair⟩ | waiting⟩
      · exact .inl (dirty _ (waits.2 ▸ waiting))
      · rcases List.mem_cons.mp inside with rfl | inside
        · obtain ⟨route, here, accepts⟩ := settled.reached_hears member alive (pair ▸ hears)
          exact .inl (accepted _ _ _ here accepts)
        · exact .inr ⟨p, hears, firm, .inl ⟨f, inside, pair⟩⟩
      · exact .inr ⟨p, hears, firm, .inr (waits.1 ▸ waiting)⟩
    obtain ⟨sound', queued', rested', goes'⟩ :=
      ih (sound.shrinks shrinks) queued' (by rw [running, waits.2, rested]) rest
    exact ⟨sound', queued', rested', goes.trans goes'⟩

end Sound

/-- A world in which the job of a query has run: all that rest on the query are tracked, and no
other result has changed or gone stale. -/
structure Runs (w : World) (qs : List LiveQuery) (q : LiveQuery) (v : World) : Prop
    extends w.Passes v where
  refits : w.Refits qs v
  scheduler : v.bus.scheduler = w.bus.scheduler
  waits : ∀ p : Nat × EventKey, p.2 ≠ .length → (w.bus.queue.waiting? p).isSome = true →
    (v.bus.queue.waiting? p).isSome = true
  resting : ∀ r ∈ qs, v.heap.isAlive r.result.loc = true → LiveQuery.Rests qs r q →
    r.Tracked qs [] v
  others : ∀ r ∈ qs, v.heap.isAlive r.result.loc = true → ¬LiveQuery.Rests qs r q →
    (r.Fresh w.heap → r.Fresh v.heap) ∧ v.heap.items r.result = w.heap.items r.result
  cells : ∀ l, l ≠ q.result.loc → v.heap.isAlive l = true → v.heap.cell? l = w.heap.cell? l

namespace Runs

variable {q : LiveQuery} {u : World}

theorem of_refreshes (sound : w.Sound M qs) (after : v.Sound M qs) (member : q ∈ qs)
    (refreshes : w.Refreshes qs q v) : w.Runs qs q v where
  toPasses := refreshes.toPasses
  refits := refreshes.refits
  scheduler := refreshes.scheduler
  waits := refreshes.waits
  cells := refreshes.cells
  resting r inside alive rests := by
    rcases rests.last with rfl | ⟨s, before, uses, -⟩
    · exact .inl (refreshes.fresh alive)
    · obtain ⟨containers, fits⟩ := after.fits
      have among := before.mem inside
      have told := refreshes.told s among (after.alive_of_rests inside alive before) uses
      exact .inr ⟨s, before, .inr ⟨_, (fits.queries s among).hears_content uses, nofun, .inr told⟩⟩
  others r inside alive apart := by
    have other : r.result.loc ≠ q.result.loc := fun same =>
      apart (sound.distinct r inside q member same ▸ .self r)
    have items := Heap.items_eq_of_cell? (refreshes.cells _ other alive)
    refine ⟨sound.fresh_cells after inside inside alive (Nat.le_of_eq refreshes.size.symm)
      refreshes.tags (fun l reaches => refreshes.cells l ?_) items, items⟩
    rintro rfl
    exact apart (sound.rests_of_reaches member reaches)

/-- A job whose result is gone does nothing, and nothing rests on it any more. -/
theorem of_not_isAlive (sound : w.Sound M qs) (dead : ¬w.heap.isAlive q.result.loc = true) :
    w.Runs qs q w where
  toPasses := .refl w
  refits := .refl w qs
  scheduler := rfl
  waits _ _ := id
  cells _ _ _ := rfl
  resting _ inside alive rests := absurd (sound.alive_of_rests inside alive rests) dead
  others _ _ _ _ := ⟨id, rfl⟩

theorem after_sweep (sound : w.Sound M qs) (runs : w.sweep.Runs qs q v) : w.Runs qs q v := by
  have swept := shrinks_sweep sound.owned
  have waits := waiting_sweep w
  have goes : w.Goes qs [] [] w.sweep := sound.goes_of_shrinks swept fun r _ _ due => by
    unfold LiveQuery.Due
    rwa [waits.1, waits.2]
  have cells : ∀ l, w.sweep.heap.isAlive l = true → w.sweep.heap.cell? l = w.heap.cell? l :=
    fun l lives => by
      obtain ⟨cell, here⟩ := Heap.cell?_of_isAlive lives
      rw [here, swept.cells l cell here]
  refine ⟨goes.toPasses.trans runs.toPasses, goes.refits.trans runs.refits,
    runs.scheduler.trans waits.2, fun p firm here => runs.waits p firm (waits.1 ▸ here),
    runs.resting, fun r inside alive apart => ?_, fun l other alive =>
      (runs.cells l other alive).trans (cells l (runs.alive l alive))⟩
  obtain ⟨fresh, items⟩ := runs.others r inside alive apart
  have lives := runs.alive _ alive
  have same := Heap.items_eq_of_cell? (r := r.result) (cells _ lives)
  exact ⟨fun before => fresh (sound.fresh_cells (sound.shrinks swept) inside inside lives
    (Nat.le_of_eq swept.size.symm) goes.tags (fun l _ => cells l) same before), items.trans same⟩

theorem holding {values : List Value} (runs : Runs { w with held := values ++ w.held } qs q v) :
    w.Runs qs q { v with held := w.held } :=
  ⟨runs.toPasses.holding, runs.refits.around rfl rfl, runs.scheduler, runs.waits, runs.resting,
    runs.others, runs.cells⟩

end Runs

namespace Sound

variable {call : Caller} {dispatch : Act Unit} {q : LiveQuery}

theorem run_job (sound : w.Sound M qs) (queued : w.Queued qs)
    (nested : ∀ w v, w.bus.dispatching = true → dispatch.Gives w () v → v = w)
    (dispatching : w.bus.dispatching = true) (member : q ∈ qs)
    (gives : (Job.run call dispatch perform q.job).Gives w () v) :
    v.Sound M qs ∧ v.Queued qs ∧ w.Runs qs q v := by
  simp only [LiveQuery.job, Job.run, Act.isAlive, Act.settle, Act.gives_bind, Act.gives_modify,
    Act.gives_get, Act.gives_pure] at gives
  obtain ⟨_, _, ⟨_, _, rfl, _, _, ⟨rfl, rfl⟩, rfl, rfl⟩, ran⟩ := gives
  have swept := shrinks_sweep sound.owned
  have settled := sound.shrinks swept
  have queued' := queued.of_bus (waiting_sweep w).1 (waiting_sweep w).2
  split at ran
  · next alive =>
    obtain ⟨u, refreshed, rfl⟩ := Act.gives_holding.mp ran
    have held : Sound M qs { w.sweep with held := [.collection q.result] ++ w.sweep.held } :=
      settled.quiet rfl
    have still : w.sweep.bus.dispatching = true := by
      rw [swept.same]
      exact dispatching
    obtain ⟨after, queued'', refreshes⟩ :=
      held.refresh (queued'.of_bus rfl rfl) nested still member alive refreshed
    exact ⟨after.quiet rfl, queued''.of_bus rfl rfl,
      .after_sweep sound (Runs.of_refreshes held after member refreshes).holding⟩
  · next dead =>
    obtain ⟨-, rfl⟩ := Act.gives_pure.mp ran
    exact ⟨settled, queued', .after_sweep sound (.of_not_isAlive settled dead)⟩

/-- Taking a job and running it loses track of nothing. -/
theorem goes_of_runs (sound : w.Sound M qs) (member : q ∈ qs) {rest : Jobs Job}
    (waiting : w.bus.scheduler.running = (q.result.id, q.job) :: rest)
    (runs : Runs { w with
      bus := { w.bus with scheduler := { w.bus.scheduler with running := rest } } } qs q v) :
    w.Goes qs [] [] v := by
  have passes : w.Passes v := ⟨runs.desk, runs.held, runs.dispatching, runs.size, runs.tags,
    runs.alive, runs.rooted⟩
  have refits : w.Refits qs v := runs.refits.around rfl rfl
  refine ⟨passes, refits, fun r inside alive tracked => ?_, fun r inside alive => ?_,
    fun l other => runs.cells l (other q member).symm⟩
  · by_cases rests : LiveQuery.Rests qs r q
    · exact runs.resting r inside alive rests
    · rcases tracked with fresh | ⟨s, before, due⟩
      · exact .inl ((runs.others r inside alive rests).1 fresh)
      · refine .inr ⟨s, before, ?_⟩
        rcases due with dirty | ⟨p, hears, firm, ⟨e, none, -⟩ | waits⟩
        · -- Another job waits than the one that was taken.
          have among := before.mem inside
          have other : s.result.id ≠ q.result.id := fun same => by
            rw [sound.fitting among, sound.fitting member] at same
            exact rests (sound.distinct s among q member (by omega) ▸ before)
          refine .inl ?_
          rw [runs.scheduler, Scheduler.isDirty_iff]
          rw [Scheduler.isDirty_iff, waiting] at dirty
          simp only [List.map_append, List.map_cons, List.mem_append, List.mem_cons] at dirty ⊢
          rcases dirty with marked | same | running
          · exact .inl marked
          · exact absurd same other
          · exact .inr running
        · cases none
        · exact .inr ⟨p, hears, firm, .inr (runs.waits p firm waits)⟩
  · by_cases rests : LiveQuery.Rests qs r q
    · exact .inl (runs.resting r inside alive rests)
    · exact .inr (runs.others r inside alive rests).2

theorem drain (nested : ∀ w v, w.bus.dispatching = true → dispatch.Gives w () v → v = w)
    {count : Nat} (sound : w.Sound M qs) (queued : w.Queued qs)
    (dispatching : w.bus.dispatching = true)
    (gives : (Act.drain call dispatch perform count).Gives w () v) :
    v.Sound M qs ∧ v.Queued qs ∧ v.bus.scheduler.marked = w.bus.scheduler.marked ∧
      v.bus.scheduler.running = [] ∧ w.Goes qs [] [] v := by
  induction count generalizing w with
  | zero =>
    obtain ⟨none, rfl⟩ := Act.gives_drain_zero.mp gives
    exact ⟨sound, queued, rfl, none, .refl ..⟩
  | succ count ih =>
    rcases Act.gives_drain_succ.mp gives with ⟨none, rfl⟩ | ⟨id, job, rest, x, waiting, ran, next⟩
    · exact ⟨sound, queued, rfl, none, .refl ..⟩
    · obtain ⟨q, member, same⟩ := queued.jobs (id, job) (by simp [waiting])
      obtain ⟨rfl, rfl⟩ := Prod.mk.inj same
      obtain ⟨u, worked, rfl⟩ := Act.gives_holding.mp ran
      have taken : Queued qs { w with
          bus := { w.bus with scheduler := { w.bus.scheduler with running := rest } } } := by
        refine ⟨fun x inside => queued.jobs x ?_, queued.indexed, queued.contents⟩
        rw [waiting]
        simp only [List.mem_append, List.mem_cons] at inside ⊢
        exact inside.imp_right .inr
      obtain ⟨sound', queued', runs⟩ := Sound.run_job
        (w := { w with
          held := q.job.values ++ w.held
          bus := { w.bus with scheduler := { w.bus.scheduler with running := rest } } })
        (sound.quiet rfl) (taken.of_bus rfl rfl) nested dispatching member worked
      have goes := sound.goes_of_runs member waiting runs.holding
      obtain ⟨sound'', queued'', marked, running, goes'⟩ := ih
        (w := { u with held := w.held }) (sound'.quiet rfl) (queued'.of_bus rfl rfl)
        (runs.dispatching.trans dispatching) next
      refine ⟨sound'', queued'', marked.trans ?_, running, goes.trans goes'⟩
      rw [runs.scheduler]

/-- A flush runs all that was marked. -/
theorem flush (nested : ∀ w v, w.bus.dispatching = true → dispatch.Gives w () v → v = w)
    (sound : w.Sound M qs) (queued : w.Queued qs) (dispatching : w.bus.dispatching = true)
    (rested : w.bus.scheduler.running = [])
    (gives : (Act.flush call dispatch perform).Gives w () v) :
    v.Sound M qs ∧ v.Queued qs ∧ v.bus.scheduler.marked = [] ∧ v.bus.scheduler.running = [] ∧
      w.Goes qs [] [] v := by
  rw [Act.Gives, Act.on_flush_begin] at gives
  have begun : Queued qs { w with bus := { w.bus with scheduler := w.bus.scheduler.begin } } := by
    refine ⟨fun x inside => queued.jobs x ?_, queued.indexed, queued.contents⟩
    simpa [Scheduler.begin, rested] using inside
  have goes :
      w.Goes qs [] [] { w with bus := { w.bus with scheduler := w.bus.scheduler.begin } } := by
    refine sound.goes_of_shrinks ((Shrinks.refl w).waiting w.bus.queue _) fun r _ _ due => ?_
    refine due.imp_left fun dirty => ?_
    simpa [Scheduler.isDirty, Scheduler.begin, rested, Jobs.has] using dirty
  obtain ⟨sound', queued', marked, running, goes'⟩ := Sound.drain
    (w := { w with bus := { w.bus with scheduler := w.bus.scheduler.begin } }) nested
    (sound.quiet rfl) begun dispatching gives
  exact ⟨sound', queued', marked, running, goes.trans goes'⟩

/-- Cycles go on until nothing waits. -/
theorem cycles (nested : ∀ w v, w.bus.dispatching = true → dispatch.Gives w () v → v = w)
    {count : Nat} (sound : w.Sound M qs) (queued : w.Queued qs)
    (dispatching : w.bus.dispatching = true) (clean : w.bus.scheduler.marked = [])
    (rested : w.bus.scheduler.running = [])
    (gives : (Act.cycles call dispatch perform count).Gives w () v) :
    v.Sound M qs ∧ v.Queued qs ∧ v.bus.scheduler.marked = [] ∧ v.bus.scheduler.running = [] ∧
      v.bus.queue.isEmpty = true ∧ w.Goes qs [] [] v := by
  induction count generalizing w with
  | zero =>
    obtain ⟨none, rfl⟩ := Act.gives_cycles_zero.mp gives
    exact ⟨sound, queued, clean, rested, none, .refl ..⟩
  | succ count ih =>
    rcases Act.gives_cycles_succ.mp gives with ⟨none, rfl⟩ | ⟨-, _, x, delivers, flushed, rest⟩
    · exact ⟨sound, queued, clean, rested, none, .refl ..⟩
    · obtain ⟨u, delivered, rfl⟩ := Act.gives_holding.mp delivers
      have emptied : Queued qs { w with bus := { w.bus with queue := {} } } :=
        ⟨queued.jobs, Queue.indexed_empty, fun p e waits => by simp [Queue.waiting?_empty] at waits⟩
      have goes : w.Goes qs [] w.bus.queue.events { w with bus := { w.bus with queue := {} } } := by
        refine sound.goes_of_shrinks ((Shrinks.refl w).waiting {} w.bus.scheduler)
          fun r _ _ due => due.imp_right fun told => ?_
        obtain ⟨p, hears, firm, ⟨e, none, -⟩ | waits⟩ := told
        · cases none
        · obtain ⟨e, waits⟩ := Option.isSome_iff_exists.mp waits
          have pair := queued.indexed.pair_of_waiting? waits
          exact ⟨p, hears, firm, .inl ⟨e, queued.indexed.mem_events.mpr (by rwa [pair]), pair⟩⟩
      obtain ⟨sound₁, queued₁, rested₁, goes₁⟩ := Sound.deliver
        (w := { w with
          held := w.bus.queue.events.flatMap Event.values ++ w.held
          bus := { w.bus with queue := {} } })
        (sound.quiet rfl) (emptied.of_bus rfl rfl) rested delivered
      obtain ⟨sound₂, queued₂, clean₂, rested₂, goes₂⟩ := Sound.flush
        (w := { u with held := w.held }) nested (sound₁.quiet rfl) (queued₁.of_bus rfl rfl)
        (goes₁.dispatching.trans dispatching) rested₁ flushed
      have still : x.bus.dispatching = true :=
        (goes₂.dispatching.trans goes₁.dispatching).trans dispatching
      obtain ⟨sound₃, queued₃, clean₃, rested₃, none, goes₃⟩ :=
        ih sound₂ queued₂ still clean₂ rested₂ rest
      exact ⟨sound₃, queued₃, clean₃, rested₃, none,
        goes.trans (goes₁.holding.trans (goes₂.trans goes₃))⟩

end Sound

/-- A world between the operations of a caller: nothing waits and nobody dispatches. -/
structure Idle (w : World) : Prop where
  rests : w.bus.dispatching = false
  clean : w.bus.scheduler.marked = []
  rested : w.bus.scheduler.running = []
  silent : w.bus.queue.isEmpty = true

/-- Where nothing waits nothing is due. -/
theorem Idle.not_due (idle : w.Idle) (q : LiveQuery) : ¬q.Due [] w := by
  rintro (dirty | ⟨p, -, -, ⟨e, none, -⟩ | waits⟩)
  · simp [Scheduler.isDirty, Jobs.has, idle.clean, idle.rested] at dirty
  · cases none
  · simp [Queue.waiting?_of_isEmpty idle.silent] at waits

theorem Idle.tracked_iff (idle : w.Idle) (q : LiveQuery) : q.Tracked qs [] w ↔ q.Fresh w.heap :=
  ⟨fun tracked => tracked.elim id fun ⟨r, _, due⟩ => absurd due (idle.not_due r), .inl⟩

namespace Sound

variable {call : Caller} {dispatch : Act Unit} {q : LiveQuery}

/-- A dispatch that succeeds works off all that waits. -/
theorem dispatchIfIdle (nested : ∀ w v, w.bus.dispatching = true → dispatch.Gives w () v → v = w)
    (sound : w.Sound M qs) (queued : w.Queued qs) (rests : w.bus.dispatching = false)
    (clean : w.bus.scheduler.marked = []) (rested : w.bus.scheduler.running = [])
    (gives : (Act.dispatchIfIdle call dispatch perform).Gives w () v) :
    v.Sound M qs ∧ v.Queued qs ∧ v.Idle ∧ w.Goes qs [] [] v := by
  obtain ⟨u, cycled, rfl⟩ := (Act.gives_dispatchIfIdle rests).mp gives
  obtain ⟨sound', queued', clean', rested', none, goes⟩ := Sound.cycles
    (w := { w with bus := { w.bus with dispatching := true } }) nested (sound.quiet rfl)
    (queued.of_bus rfl rfl) rfl clean rested cycled
  refine ⟨sound'.quiet rfl, queued'.of_bus rfl rfl, ⟨rfl, clean', rested', none⟩, ?_⟩
  have outer := goes.within
  rwa [rests] at outer

end Sound

end World

end ReactiveQuery
