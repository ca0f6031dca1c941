import ReactiveQuery.Proofs.Live.Sparing

/-! Failing refreshes.  The turn that fails is the last thing that a dispatch does: the result stays
as it was, those refreshed before it stay refreshed, and nothing is left to wait. -/

namespace ReactiveQuery

/-- An idle bus on which nothing waits. -/
def World.cleared (w : World) : World :=
  { w with bus := { w.bus with dispatching := false, queue := {}, scheduler := {} } }

namespace Act

variable {again : Reentry} {v w x : World} {count : Nat} {e : Error} {t : JobTurn} {r : Round}

section
variable {I : World → Prop}
  (skips : ∀ w s, I w → I { w with bus := { w.bus with scheduler := s } })
  (keeps : ∀ t ∈ turns again count w, I t.world → I ((t.act again).on t.world).2)
include skips keeps

/-- What every turn keeps, whatever comes of it, is kept. -/
theorem keeps_on_drain (start : I w) :
    I ((drain again.call again.dispatch again.perform count).on w).2 := by
  induction count generalizing w with
  | zero =>
    rw [drain, on_bind_ok (on_get w)]
    split <;> exact start
  | succ count ih =>
    rw [on_drain_turns]
    rw [turns] at keeps
    cases next : w.bus.scheduler.running with
    | nil => exact start
    | cons entry running =>
      simp only [next] at keeps
      obtain ⟨now, later⟩ := List.forall_mem_cons.mp keeps
      have kept := now (skips w _ start)
      dsimp only
      rcases ran : ((w.turn entry.1 entry.2 running).act again).on
        (w.turn entry.1 entry.2 running).world with ⟨(e | _) | _, x⟩ <;> rw [ran] at kept
      · exact skips x _ kept
      · exact kept
      · rw [Gives.after ran] at later
        exact ih later kept

/-- What one turn brings about, and every turn keeps, holds in the end. -/
theorem on_drain_of_mem_turns (member : t ∈ turns again count w)
    (starts : I ((t.act again).on t.world).2) :
    I ((drain again.call again.dispatch again.perform count).on w).2 := by
  induction count generalizing w with
  | zero => cases member
  | succ count ih =>
    rw [on_drain_turns]
    rw [turns] at member keeps
    cases next : w.bus.scheduler.running with
    | nil => simp [next] at member
    | cons entry running =>
      simp only [next] at member keeps
      obtain ⟨-, later⟩ := List.forall_mem_cons.mp keeps
      dsimp only
      rcases ran : ((w.turn entry.1 entry.2 running).act again).on
        (w.turn entry.1 entry.2 running).world with ⟨(e | _) | _, x⟩
      · obtain rfl := (List.mem_cons.mp member).resolve_right (by simp [Act.after, ran])
        rw [ran] at starts
        exact skips x _ starts
      · obtain rfl := (List.mem_cons.mp member).resolve_right (by simp [Act.after, ran])
        rw [ran] at starts
        exact starts
      · rw [Gives.after ran] at later member
        rcases List.mem_cons.mp member with rfl | after
        · rw [ran] at starts
          exact keeps_on_drain skips later starts
        · exact ih later after

end

/-- A turn that fails is the last one. -/
theorem last_of_fails (member : t ∈ turns again count w) (fails : t.Fails again) :
    ∃ before, turns again count w = before ++ [t] := by
  induction count generalizing w with
  | zero => cases member
  | succ count ih =>
    rw [turns] at member ⊢
    cases next : w.bus.scheduler.running with
    | nil => simp [next] at member
    | cons entry running =>
      simp only [next] at member
      dsimp only
      rcases ran : ((w.turn entry.1 entry.2 running).act again).on
        (w.turn entry.1 entry.2 running).world with ⟨_ | _, y⟩
      · obtain rfl := (List.mem_cons.mp member).resolve_right (by simp [Act.after, ran])
        exact ⟨[], by rw [Act.after, ran, List.nil_append]⟩
      · rw [Gives.after ran] at member ⊢
        rcases List.mem_cons.mp member with rfl | after
        · exact absurd ran (fails y)
        · obtain ⟨before, split⟩ := ih after
          exact ⟨_ :: before, by rw [split, List.cons_append]⟩

/-- The flush fails with what a turn fails with. -/
theorem drain_of_fails (member : t ∈ turns again count w)
    (fails : (t.act again).on t.world = (.error (.raised e), x)) :
    (drain again.call again.dispatch again.perform count).on w =
      (.error (.raised e), x.abandoned) := by
  induction count generalizing w with
  | zero => cases member
  | succ count ih =>
    rw [on_drain_turns]
    rw [turns] at member
    cases next : w.bus.scheduler.running with
    | nil => simp [next] at member
    | cons entry running =>
      simp only [next] at member
      dsimp only
      rcases List.mem_cons.mp member with rfl | after
      · rw [fails]
      · rcases ran : ((w.turn entry.1 entry.2 running).act again).on
          (w.turn entry.1 entry.2 running).world with ⟨_ | _, y⟩
        · simp [Act.after, ran] at after
        · rw [Gives.after ran] at after
          exact ih after

/-- A round whose flush fails is the last one. -/
theorem cycles_of_fails (member : r ∈ rounds again count w)
    (fails : (flush again.call again.dispatch again.perform).on r.told = (.error (.raised e), v)) :
    (cycles again.call again.dispatch again.perform count).on w = (.error (.raised e), v) ∧
      ∃ before, rounds again count w = before ++ [r] := by
  induction count generalizing w with
  | zero => cases member
  | succ count ih =>
    cases waits : w.bus.queue.isEmpty with
    | true =>
      rw [rounds_of_isEmpty waits] at member
      cases member
    | false =>
      rw [on_cycles_succ waits]
      simp only [rounds, waits, Bool.false_eq_true, if_false] at member ⊢
      rcases delivered : (holding (w.bus.queue.events.flatMap Event.values) (deliver again.perform
        w.bus.queue.events)).on { w with bus := { w.bus with queue := {} } } with ⟨_ | _, told⟩
      · simp [Act.after, delivered] at member
      · rw [on_bind_ok delivered]
        rw [Gives.after delivered] at member ⊢
        rcases List.mem_cons.mp member with rfl | after
        · rw [on_bind_error fails]
          exact ⟨rfl, [], by rw [after_of_raised fails, List.nil_append]⟩
        · rcases flushed : (flush again.call again.dispatch again.perform).on told with ⟨_ | _, y⟩
          · simp [Act.after, flushed] at after
          · rw [on_bind_ok flushed]
            rw [Gives.after flushed] at after ⊢
            obtain ⟨raised, before, split⟩ := ih after
            exact ⟨raised, _ :: before, by rw [split, List.cons_append]⟩

section
variable {K : Command → Prop} (made : again.Made (Scope.clean K) (Settling K))
  (busy : w.bus.Busy K) (clean : w.bus.scheduler.marked = [])
include made busy clean

/-- The bus is open when the turn of a job comes. -/
theorem dispatching_of_mem_turns (member : t ∈ turns again count w) :
    t.world.bus.dispatching = true := by
  induction count generalizing w with
  | zero => cases member
  | succ count ih =>
    rw [turns] at member
    cases next : w.bus.scheduler.running with
    | nil => simp [next] at member
    | cons entry running =>
      simp only [next] at member
      rcases List.mem_cons.mp member with rfl | after
      · exact busy.dispatching
      · rcases ran : ((w.turn entry.1 entry.2 running).act again).on
          (w.turn entry.1 entry.2 running).world with ⟨_ | _, y⟩
        · simp [Act.after, ran] at after
        · rw [Gives.after ran] at after
          obtain ⟨busy', same⟩ := run_busy made busy clean next ran
          exact ih busy' (by rw [same]) after

/-- If no turn fails the flush succeeds. -/
theorem exists_gives_drain (enough : w.bus.scheduler.running.length ≤ count)
    (succeed : ∀ t ∈ turns again count w, ¬t.Fails again) :
    ∃ v, (drain again.call again.dispatch again.perform count).Gives w () v := by
  induction count generalizing w with
  | zero =>
    exact ⟨w, on_drain_of_rested (List.eq_nil_of_length_eq_zero (Nat.le_zero.mp enough))⟩
  | succ count ih =>
    cases next : w.bus.scheduler.running with
    | nil => exact ⟨w, on_drain_of_rested next⟩
    | cons entry running =>
      obtain ⟨id, job⟩ := entry
      have first : w.turn id job running ∈ turns again (count + 1) w := by
        rw [turns, next]
        exact List.mem_cons_self
      have succeeds := succeed _ first
      simp only [JobTurn.Fails, not_forall, not_not] at succeeds
      obtain ⟨x, ran⟩ := succeeds
      obtain ⟨busy', same⟩ := run_busy made busy clean next ran
      rw [turns_cons next ran] at succeed
      rw [next] at enough
      obtain ⟨v, rest⟩ := ih busy' (by rw [same])
        (by rw [same]; exact Nat.le_of_succ_le_succ enough) (List.forall_mem_cons.mp succeed).2
      exact ⟨v, gives_drain_succ.mpr (.inr ⟨id, job, running, x, next, ran, rest⟩)⟩

end

end Act

/-- The extension functions that live queries call are sparing. -/
def World.Sparing (again : Reentry) (w : World) : Prop :=
  ∀ q, w.bus.Lists q → Trait.sparing.Calls again.call q.definition.functions

namespace Round

variable {K : Command → Prop} {again : Reentry} {r : Round}
  (made : again.Made (Scope.clean K) (Act.Settling K)) (proper : again.Proper)
  (begun : r.Begun K again) (sparing : r.told.Sparing again) (silent : again.dispatch.Silent)

/-- What is known of a turn of a live query. -/
structure Ready (r : Round) (t : JobTurn) (q : LiveQuery) : Prop where
  lists : r.told.bus.Lists q
  id : t.id = q.result.id
  job : t.job = q.job
  enrolled : t.world.Enrolled
  later : r.told.Later t.world
  busy : t.world.bus.dispatching = true

/-- A job tells its live query, as far as that matters in a turn. -/
theorem Ready.of_job {t : JobTurn} {p q : LiveQuery} (ready : r.Ready t p) (job : t.job = q.job) :
    r.Ready t q := by
  have own := ready.job.symm.trans job
  have result := own
  rw [LiveQuery.job, LiveQuery.job, Job.refresh.injEq] at result
  exact ⟨by simpa only [Bus.Lists, ← own, ← result.1] using ready.lists,
    by rw [ready.id, result.1], job, ready.enrolled, ready.later, ready.busy⟩

section
include made proper begun

theorem Begun.ready {t : JobTurn} (member : t ∈ r.turns again) : ∃ q, r.Ready t q := by
  obtain ⟨q, lists, id, job⟩ := begun.lists_of_mem_turns made proper member
  obtain ⟨busy, flushes⟩ := begun.busy_flushing made
  have flushing : r.told.Leads r.flushing := World.leads_of_bus rfl rfl (Nat.le_refl _)
  obtain ⟨enrolled, later⟩ := (flushing.trans (Act.comes_of_mem_turns proper member).leads)
    (begun.enrolled_told proper)
  exact ⟨q, lists, id, job, enrolled, later,
    Act.dispatching_of_mem_turns made busy (by rw [flushes]) member⟩

include sparing silent

/-- The turn of one live query writes no cell of another's result. -/
theorem Begun.cell?_of_turn {t : JobTurn} (member : t ∈ r.turns again) {q : LiveQuery}
    (lists : r.told.bus.Lists q) (other : t.id ≠ q.result.id) {cell : Cell}
    (here : ((t.act again).on t.world).2.heap.cell? q.result.loc = some cell) :
    t.world.heap.cell? q.result.loc = some cell := by
  obtain ⟨p, ready⟩ := begun.ready made proper member
  have writes := t.writes_act silent (sparing p ready.lists) ready.busy ready.job
  refine writes.cells _ (ready.enrolled.ranked.below q (ready.later.lists lists)).2 ?_ cell here
  intro same
  have one := ready.enrolled.ranked.one q p (ready.later.lists lists)
    (ready.later.lists ready.lists) (.inr same)
  rw [LiveQuery.job, LiveQuery.job, Job.refresh.injEq] at one
  exact other (by rw [ready.id, one.1])

/-- The rows that a result is given in its turn stay until the flush ends, however it ends. -/
theorem Begun.items_of_flush {t : JobTurn} (member : t ∈ r.turns again) {q : LiveQuery}
    (ready : r.Ready t q) (succeeds : ¬t.Fails again)
    (alive : t.begun.sweep.heap.isAlive q.result.loc = true) :
    ∃ rows, t.evaluates again q = .ok rows ∧
      ∀ cell, ((Act.flush again.call again.dispatch again.perform).on r.told).2.heap.cell?
        q.result.loc = some cell →
          ((Act.flush again.call again.dispatch again.perform).on r.told).2.heap.items q.result =
            rows := by
  simp only [JobTurn.Fails, not_forall, not_not] at succeeds
  obtain ⟨x, ran⟩ := succeeds
  obtain ⟨rows, evaluates, items⟩ := t.items_of_gives silent (sparing q ready.lists) ready.busy
    ready.job proper ready.enrolled (ready.later.lists ready.lists) alive ran
  have starts : ∀ cell, ((t.act again).on t.world).2.heap.cell? q.result.loc = some cell →
      ((t.act again).on t.world).2.heap.items q.result = rows := by
    rw [ran.on]
    exact items
  refine ⟨rows, evaluates, ?_⟩
  rw [Act.on_flush]
  refine Act.on_drain_of_mem_turns (I := fun y => ∀ cell, y.heap.cell? q.result.loc = some cell →
    y.heap.items q.result = rows) (fun _ _ => id) (fun t' member' before cell here => ?_) member
      starts
  by_cases same : t'.id = t.id
  · obtain rfl := List.inj_on_of_nodup_map (begun.nodup_turns made) member' member same
    exact starts cell here
  · have there := begun.cell?_of_turn made proper sparing silent member' ready.lists
      (fun own => same (own.trans ready.id.symm)) here
    rw [Heap.items_eq_of_cell? (here.trans there.symm)]
    exact before cell there

end

section
include made proper begun sparing silent

variable {t : JobTurn} {q : LiveQuery} {e : Error} {x : World}
  (member : t ∈ r.turns again) (ready : r.Ready t q)
  (fails : (t.act again).on t.world = (.error (.raised e), x))
include member ready fails

/-- The result whose turn fails has not been written since the flush began. -/
theorem Begun.cell?_of_fails {cell : Cell} (here : x.heap.cell? q.result.loc = some cell) :
    r.told.heap.cell? q.result.loc = some cell := by
  obtain ⟨spares, -⟩ := t.spares_of_raised silent (sparing q ready.lists) ready.busy ready.job
    proper ready.enrolled (ready.later.lists ready.lists) fails
  have inside := (ready.enrolled.ranked.below q (ready.later.lists ready.lists)).2
  let I (y : World) := ∀ cell, y.heap.cell? q.result.loc = some cell →
    r.told.heap.cell? q.result.loc = some cell
  suffices kept : I ((Act.flush again.call again.dispatch again.perform).on r.told).2 by
    rw [Act.on_flush, Act.drain_of_fails member fails] at kept
    exact kept cell here
  rw [Act.on_flush]
  refine Act.keeps_on_drain (fun _ _ => id) (fun t' member' before cell here => ?_) fun _ => id
  by_cases same : t'.id = t.id
  · obtain rfl := List.inj_on_of_nodup_map (begun.nodup_turns made) member' member same
    rw [fails] at here
    exact before cell (spares.heap.cells _ inside id cell here)
  · exact before cell (begun.cell?_of_turn made proper sparing silent member' ready.lists
      (fun own => same (own.trans ready.id.symm)) here)

/-- The results refreshed before the turn that fails keep their rows. -/
theorem Begun.items_of_fails {t' : JobTurn} (member' : t' ∈ r.turns again) (other : t'.id ≠ t.id)
    {q' : LiveQuery} (job : t'.job = q'.job)
    (alive : t'.begun.sweep.heap.isAlive q'.result.loc = true) :
    ∃ rows, t'.evaluates again q' = .ok rows ∧
      ∀ cell, x.heap.cell? q'.result.loc = some cell → x.heap.items q'.result = rows := by
  have succeeds : ¬t'.Fails again := fun fails' => by
    obtain ⟨before, last⟩ := Act.last_of_fails member fun v ran => by
      rw [Act.Gives, fails] at ran
      cases ran
    obtain ⟨before', last'⟩ := Act.last_of_fails member' fails'
    obtain ⟨-, same⟩ := List.append_inj' (last'.symm.trans last) rfl
    obtain rfl := List.singleton_inj.mp same
    exact other rfl
  obtain ⟨p, ready'⟩ := begun.ready made proper member'
  obtain ⟨rows, evaluates, items⟩ := begun.items_of_flush made proper sparing silent member'
    (ready'.of_job job) succeeds alive
  rw [Act.on_flush, Act.drain_of_fails member fails] at items
  exact ⟨rows, evaluates, items⟩

end

/-- The result of the query is given the rows that the query has when its turn comes, and keeps them
until the flush ends. -/
def Renews (again : Reentry) (r : Round) (q : LiveQuery) : Prop :=
  ∃ t ∈ r.turns again, t.job = q.job ∧ ∃ z,
    (Act.flush again.call again.dispatch again.perform).Gives r.told () z ∧
      (t.begun.sweep.heap.isAlive q.result.loc = true → ∃ rows, t.evaluates again q = .ok rows ∧
        (z.heap.isAlive q.result.loc = true → z.heap.items q.result = rows))

include made proper begun sparing silent in
/-- Where no turn fails, a live query that hears of an event is renewed. -/
theorem Begun.renews (succeed : ∀ t ∈ r.turns again, ¬t.Fails again) {q : LiveQuery} {base : Nat}
    (attached : r.opened.Attached q base) (stays : r.told.Attached q base)
    (hears : ∃ e ∈ r.batch, q.Hears e.pair) : r.Renews again q := by
  obtain ⟨t, member, id, job⟩ := begun.exists_turn made proper attached stays hears
    fun t member fails => absurd fails (succeed t member)
  obtain ⟨p, ready⟩ := begun.ready made proper member
  obtain ⟨busy, flushes⟩ := begun.busy_flushing made
  obtain ⟨z, drained⟩ := Act.exists_gives_drain made busy (by rw [flushes]) (Nat.le_refl _) succeed
  have flushed : (Act.flush again.call again.dispatch again.perform).Gives r.told () z := by
    rw [Act.Gives, Act.on_flush]
    exact drained
  refine ⟨t, member, job, z, flushed, fun alive => ?_⟩
  obtain ⟨rows, evaluates, items⟩ := begun.items_of_flush made proper sparing silent member
    ⟨stays.lists, id, job, ready.enrolled, ready.later, ready.busy⟩ (succeed t member) alive
  rw [flushed.on] at items
  refine ⟨rows, evaluates, fun lives => ?_⟩
  obtain ⟨cell, here⟩ := Heap.cell?_of_isAlive lives
  exact items cell here

end Round

/-- What a dispatch leaves that ends with the failing turn of a live query. -/
structure World.Breaks (u : World) (again : Reentry) (r : Round) (t : JobTurn) (q : LiveQuery)
    (e : Error) (v : World) : Prop where
  /-- The error is the one of the evaluation, and it comes out of the dispatch. -/
  evaluates : t.evaluates again q = .error (.raised e)
  raises : (Act.dispatchIfIdle again.call again.dispatch again.perform).on u =
    (.error (.raised e), v)
  /-- No later job runs, and no further cycle. -/
  lastTurn : ∃ before, r.turns again = before ++ [t]
  lastRound : ∃ before, Act.rounds again u.bus.ceiling u.opened = before ++ [r]
  /-- The result has the items that it had when the flush began, and nothing is published of it. -/
  kept : v.heap.isAlive q.result.loc = true → v.heap.items q.result = r.told.heap.items q.result
  silent : ((t.act again).on t.world).2.bus.queue = t.world.bus.queue
  /-- Results refreshed before have the rows that they were given. -/
  renewed : ∀ t' ∈ r.turns again, t'.id ≠ t.id → ∀ q', t'.job = q'.job →
    t'.begun.sweep.heap.isAlive q'.result.loc = true → ∃ rows, t'.evaluates again q' = .ok rows ∧
      (v.heap.isAlive q'.result.loc = true → v.heap.items q'.result = rows)
  /-- Nothing waits. -/
  idle : v.bus.dispatching = false
  queue : v.bus.queue = {}
  scheduler : v.bus.scheduler = {}
  attached : ∀ base, r.told.Attached q base → v.heap.isAlive q.result.loc = true →
    v.Attached q base

/-- A round in which a turn fails breaks its dispatch. -/
theorem Round.Begun.breaks_off {K : Command → Prop} {again : Reentry} {u x : World} {r : Round}
    {t : JobTurn} {q : LiveQuery} {e : Error} (made : again.Made (Scope.clean K) (Act.Settling K))
    (proper : again.Proper) (begun : r.Begun K again) (sparing : r.told.Sparing again)
    (silent : again.dispatch.Silent) (idle : u.bus.dispatching = false)
    (round : r ∈ Act.rounds again u.bus.ceiling u.opened) (turn : t ∈ r.turns again)
    (ready : r.Ready t q) (fails : (t.act again).on t.world = (.error (.raised e), x)) :
    u.Breaks again r t q e x.abandoned.cleared := by
  have flushed : (Act.flush again.call again.dispatch again.perform).on r.told =
      (.error (.raised e), x.abandoned) := by
    rw [Act.on_flush]
    exact Act.drain_of_fails turn fails
  obtain ⟨cycled, lastRound⟩ := Act.cycles_of_fails round flushed
  obtain ⟨spares, evaluates⟩ := t.spares_of_raised silent (sparing q ready.lists) ready.busy
    ready.job proper ready.enrolled (ready.later.lists ready.lists) fails
  have kept : x.heap.isAlive q.result.loc = true →
      x.heap.cell? q.result.loc = r.told.heap.cell? q.result.loc := fun alive => by
    obtain ⟨cell, here⟩ := Heap.cell?_of_isAlive alive
    rw [here, begun.cell?_of_fails made proper sparing silent turn ready fails here]
  refine ⟨evaluates, (Act.raises_dispatchIfIdle idle).mpr ⟨x.abandoned, cycled, rfl⟩, ?_, lastRound,
    fun alive => Heap.items_eq_of_cell? (kept alive), ?_, fun t' member other q' job alive => ?_,
    rfl, rfl, rfl, fun base attached alive => ⟨attached.derived, fun d => ?_, fun s => ?_⟩⟩
  · refine Act.last_of_fails turn fun v ran => ?_
    rw [Act.Gives, fails] at ran
    cases ran
  · rw [fails, spares.bus]
  · obtain ⟨rows, gives, items⟩ := begun.items_of_fails made proper sparing silent turn ready fails
      member other job alive
    refine ⟨rows, gives, fun lives => ?_⟩
    obtain ⟨cell, here⟩ := Heap.cell?_of_isAlive lives
    exact items cell here
  · have same : x.bus.listeners = t.world.bus.listeners := by rw [spares.bus]
    change x.bus.listeners[_]? = _
    rw [same]
    exact ready.later.listeners _ _ (attached.listens d)
  · have same : x.heap.subscriptions q.result.loc = r.told.heap.subscriptions q.result.loc := by
      rw [Heap.subscriptions, kept alive, Heap.subscriptions]
    rw [← attached.retains, ← same]
    rfl

namespace Engine

variable {K : Command → Prop} {E : Engine (Scope.clean K)} {u : World}

/-- A failing refresh is atomic and ordered: with sparing extension functions it changes and
publishes nothing, it ends its dispatch, whose call fails with its very error, and the results
refreshed before it stay refreshed.  Any later dispatch in which no turn fails renews the result if
its query hears of an event. -/
theorem Begins.breaks (begins : E.Begins u) (proper : E.Proper) (depth : Nat) {r : Round}
    {t : JobTurn} (round : r ∈ Act.rounds (E.within depth) u.bus.ceiling u.opened)
    (sparing : r.told.Sparing (E.within depth)) (turn : t ∈ r.turns (E.within depth)) {e : Error}
    {x : World} (fails : (t.act (E.within depth)).on t.world = (.error (.raised e), x)) :
    ∃ v : World, (∃ q : LiveQuery, r.told.bus.Lists q ∧ t.job = q.job) ∧
      (∀ q : LiveQuery, t.job = q.job → u.Breaks (E.within depth) r t q e v) ∧
      (∀ w es, (Act.enqueueAll es).Gives w () u →
        (Act.publishAll (E.within (depth + 1)).dispatch es).on w = (.error (.raised e), v)) ∧
      (∀ (α : Type) (body : Act α) (result : Except Error α) w y, w.bus.dispatching = false →
        (Act.attempt body).Gives w.opened result y →
        u = { y with bus := { y.bus with dispatching := false } } →
        (Act.batch (E.within (depth + 1)).dispatch body).on w = (.error (.raised e), v)) ∧
      ∀ u', E.Begins u' → ∀ depth', ∀ r' ∈ Act.rounds (E.within depth') u'.bus.ceiling u'.opened,
        r'.told.Sparing (E.within depth') →
        (∀ t' ∈ r'.turns (E.within depth'), ¬t'.Fails (E.within depth')) →
        ∀ (q : LiveQuery) (base : Nat), t.job = q.job →
          r'.opened.Attached q base → r'.told.Attached q base →
            (∃ e ∈ r'.batch, q.Hears e.pair) → r'.Renews (E.within depth') q := by
  have made := E.made_within depth
  have within := proper.within depth
  obtain ⟨begun, -⟩ := begins.begun proper round
  obtain ⟨-, idle, -⟩ := begins.orderly
  obtain ⟨p, ready⟩ := begun.ready made within turn
  have breaks : ∀ q : LiveQuery, t.job = q.job →
      u.Breaks (E.within depth) r t q e x.abandoned.cleared := fun q job =>
    begun.breaks_off made within sparing (E.silent_within depth) idle round turn
      (ready.of_job job) fails
  have raises := (breaks p ready.job).raises
  have surfaces := Act.surfaces (E.within depth)
  refine ⟨_, ⟨p, ready.lists, ready.job⟩, breaks,
    fun w es queued => surfaces.publishAll _ _ _ _ _ queued raises,
    fun α body result w y rests ran same => ?_, ?_⟩
  · subst same
    exact surfaces.batch _ _ _ _ _ _ rests ran raises
  · intro u' begins' depth' r' member sparing' succeed q base _ attached stays hears
    obtain ⟨begun', -⟩ := begins'.begun proper member
    exact begun'.renews (E.made_within depth') (proper.within depth') sparing'
      (E.silent_within depth') succeed attached stays hears

end Engine

namespace Strict

def setup : Setup where
  queries := [
    ("shown", { select := some (.path .here [.key (.text "n")]) }),
    ("strict", { filter := some (.tagged "and"
      [.tagged "or" [
        .tagged "lte" [.path .here [.key (.text "n")], .literal (.number .zero)],
        .call "fail" [.path .here [.key (.text "n")]]],
      .tagged "eq" [.path .here [.key (.text "n")], .literal (.number .zero)]]) })]
  extensions := [("fail", .fail)]

def start : World := (World.start setup).toOption.getD {}

theorem started : World.start setup = .ok start := rfl

def engine : Engine (Scope.clean Command.Clean) := .standard Command.closed_clean

/-- A record in a collection, and a live query over it that tells its number. -/
def source : World := start.play
  [.bind "r" (.newRecord [("n", .number .zero)] none),
    .bind "s" (.newCollection [.named "r"] none), .bind "a" (.live "s" "shown" [])]

/-- A live query over it for a record whose number is zero, which fails for positive numbers. -/
def watch : Act Ref :=
  Act.live (engine.within 8).call (engine.within 8).dispatch ⟨1, 2⟩ "strict" []

def named : World := ((Act.bindName "b" (.collection ⟨3, 4⟩)).on (watch.on source).2).2

theorem gives_watch : watch.Gives source ⟨3, 4⟩ (watch.on source).2 :=
  Act.gives_of_toOption (by decide +kernel)

/-- The record's number is changed, and events are about to be dispatched. -/
def put (n : Double) : Act Unit := Act.changeHeap (·.setField ⟨0, 1⟩ "n" (.number n))

def pushed (w : World) (n : Double) (es : List Event) : World :=
  ((Act.enqueueAll es).on ((put n).on w).2).2

/-- A number is written that the query fails for. -/
def raised : World := pushed named .one [⟨1, .field "n", .number .one, .number .zero⟩]

/-- After that it is taken back, and the source is told of. -/
def upset : World := named.play [.onRecord "r" (.write "n" (.number .one))]

def mended : World := pushed upset .zero (changeEvents 2 1 1)

def round (u : World) : Round :=
  (Act.rounds (engine.within 8) u.bus.ceiling u.opened).headD ⟨u, u⟩

def turn (r : Round) : JobTurn := (r.turns (engine.within 8)).getLastD ⟨0, .script "" [], r.told⟩

/-- All that live queries call are functions that only look and tell. -/
def reads : Listener → Bool
  | .invalidate _ _ (.refresh _ _ d _) =>
    d.functions.all fun e => [.id, .args, .tick, .ctx, .fail].contains e.action
  | _ => true

theorem sparing_of_reads {w : World} (all : w.bus.listeners.all reads = true) :
    w.Sparing (engine.within 8) := by
  rintro q ⟨n, route, listens⟩ e member ctx args
  have here := Array.all_eq_true_iff_forall_mem.mp all _ (Array.mem_of_getElem? listens)
  have reads := List.all_eq_true.mp here e member
  exact Extension.has_invoke_of_reads (List.contains_iff_mem.mp reads) ctx args

theorem mem_rounds {u : World}
    (some : (Act.rounds (engine.within 8) u.bus.ceiling u.opened).isEmpty = false) :
    round u ∈ Act.rounds (engine.within 8) u.bus.ceiling u.opened := by
  unfold round
  cases rounds : Act.rounds (engine.within 8) u.bus.ceiling u.opened with
  | nil => simp [rounds] at some
  | cons r rs => exact List.mem_cons_self

theorem mem_turns {r : Round} (some : (r.turns (engine.within 8)).isEmpty = false) :
    turn r ∈ r.turns (engine.within 8) := by
  unfold turn
  rw [List.getLastD_eq_getLast?, List.getLast?_eq_getLast_of_ne_nil (by simpa using some)]
  exact List.getLast_mem _

/-- What is raised in a turn. -/
def error? (t : JobTurn) : Option Error :=
  match ((t.act (engine.within 8)).on t.world).1 with
  | .error (.raised e) => some e
  | _ => none

theorem fails_of_error? {t : JobTurn} {e : Error} (tells : error? t = some e) :
    ∃ x, (t.act (engine.within 8)).on t.world = (.error (.raised e), x) := by
  unfold error? at tells
  split at tells
  · next same =>
    obtain rfl := Option.some.inj tells
    exact ⟨_, Prod.ext_iff.mpr ⟨same, rfl⟩⟩
  · cases tells

theorem course : (Act.rounds (engine.within 8) raised.bus.ceiling raised.opened).isEmpty = false ∧
    ((round raised).turns (engine.within 8)).isEmpty = false ∧
    error? (turn (round raised)) = some (.invalidOperation "1") ∧ (turn (round raised)).id = 4 ∧
    (round raised).told.bus.listeners.all reads = true ∧
    (round raised).told.heap.subscriptions 3 ≠ [] := by
  decide +kernel

theorem course_mended :
    (Act.rounds (engine.within 8) mended.bus.ceiling mended.opened).isEmpty = false ∧
    (round mended).told.bus.listeners.all reads = true ∧
    (round mended).opened.heap.subscriptions 3 ≠ [] ∧
    (round mended).told.heap.subscriptions 3 ≠ [] ∧
    (∃ e ∈ (round mended).batch, e.pair = (2, .content)) ∧
    ∀ t ∈ (round mended).turns (engine.within 8),
      ((t.act (engine.within 8)).on t.world).1.toOption = some () := by
  decide +kernel

theorem proper : engine.Proper := Engine.proper_standard Command.closed_clean

theorem runs_source : engine.Runs source :=
  (Engine.Runs.start started).play (Command.allClean_iff.mp ⟨trivial, trivial, trivial, trivial⟩)

theorem runs_named : engine.Runs named := (runs_source.live proper gives_watch).name "b" _

theorem begins_pushed {w : World} (runs : engine.Runs w) (n : Double) (es : List Event) :
    engine.Begins (pushed w n es) := by
  have made : (put n).Made (Scope.clean Command.Clean) engine.Dispatches := .of_bus fun _ => rfl
  have wrote : engine.Runs ((put n).on w).2 :=
    runs.step made (Act.Proper.setField _ _ _) (Act.leaves_self nofun)
  obtain ⟨v, queued, -⟩ := Act.enqueueAll_fills wrote.visits.orderly.1 es
  have gives : (Act.enqueueAll es).Gives ((put n).on w).2 () (pushed w n es) := by
    rw [pushed, Act.Gives, queued.on]
  exact .publish wrote gives

theorem comes_pushed (w : World) (n : Double) (es : List Event) : w.Comes (pushed w n es) :=
  (World.Comes.here.step (Act.Proper.setField _ _ _)).step (Act.Proper.enqueueAll es)

theorem comes_named : (watch.on source).2.Comes named :=
  World.Comes.here.step (Act.has_changeDesk (C := .proper) (fun _ => rfl) fun _ => rfl)

theorem begins_raised : engine.Begins raised := begins_pushed runs_named _ _

theorem runs_upset : engine.Runs upset :=
  runs_named.play (Command.allClean_iff.mp ⟨trivial, trivial⟩)

theorem begins_mended : engine.Begins mended := begins_pushed runs_upset _ _

theorem comes_raised : (watch.on source).2.Comes raised := comes_named.trans (comes_pushed _ _ _)

theorem comes_mended : (watch.on source).2.Comes mended :=
  (comes_named.play _).trans (comes_pushed upset _ _)

/-- The dispatch fails, and the next one that tells of the source renews the result. -/
theorem breaks_raised : ∃ (q : LiveQuery) (v : World), q.result = ⟨3, 4⟩ ∧
    raised.Breaks (engine.within 8) (round raised) (turn (round raised)) q
      (.invalidOperation "1") v ∧ (round mended).Renews (engine.within 8) q := by
  have within := proper.within 8
  obtain ⟨q, base, result, above, -, attached⟩ := Act.attached_of_live within.call within.dispatch
    runs_source.enrolled gives_watch
  obtain ⟨some, turns, raises, id, all, keeps⟩ := course
  obtain ⟨some', all', keeps', stays', ⟨e, inside, pair⟩, ends⟩ := course_mended
  obtain ⟨begun, opened⟩ := begins_raised.begun proper (mem_rounds some)
  obtain ⟨begun', opened'⟩ := begins_mended.begun proper (mem_rounds some')
  have told := (comes_raised.trans opened).trans
    ((begun.comes_told within).1.trans (begun.comes_told within).2)
  have told' := (comes_mended.trans opened').trans
    ((begun'.comes_told within).1.trans (begun'.comes_told within).2)
  obtain ⟨p, lists, number, own⟩ :=
    begun.lists_of_mem_turns (engine.made_within 8) within (mem_turns turns)
  have same : p.result.id = q.result.id := by rw [← number, id, result]
  have job := own.trans ((begun.enrolled_told within).ranked.one p q lists
    (attached _ told keeps).lists (.inl same))
  have opens := attached _ (comes_mended.trans opened') keeps'
  obtain ⟨x, fails⟩ := fails_of_error? raises
  obtain ⟨v, -, breaks, -, -, recovers⟩ := begins_raised.breaks proper 8 (mem_rounds some)
    (sparing_of_reads all) (mem_turns turns) fails
  refine ⟨q, v, result, breaks q job, recovers _ begins_mended 8 _ (mem_rounds some')
    (sparing_of_reads all') (fun t turn fails => absurd (Act.gives_of_toOption (ends t turn))
      (fails _)) q base job opens (attached _ told' stays') ⟨e, inside, ?_⟩⟩
  rw [pair, show (2 : Nat) = q.source.id by rw [above]]
  exact opens.derived.hears_source

/-- A listener that flushes by hand. -/
def flushing : World := named.play [.subscribe "L" .all none [.flush]]

/-- One that clears the scheduler, after the query has failed. -/
def clearing : World := upset.play [.subscribe "L" .all none [.clear]]

/-- A job that has been marked by hand for the number of the result, after the query has failed. -/
def marking : World := upset.play [.mark 4 "own" []]

def write (n : Int) : Command := .onRecord "r" (.write "n" (.number (.ofInt n)))

/-- What the write answers, the errors that callbacks met, and the result's rows afterwards. -/
def told (w : World) (n : Int) : Option Error × List Error × List Nat :=
  (((w.perform (write n)).map (·.1)).bind Reply.error?,
    (w.next (write n)).log.filterMap fun
      | .did _ reply => reply.error?
      | _ => none,
    ((w.next (write n)).heap.items ⟨3, 4⟩).filterMap Value.id?)

/-- Whoever uses the scheduler by hand can take the error of a refresh away from the outermost call,
and keep a result from being renewed. -/
theorem meddles : told named 1 = (some (.invalidOperation "1"), [], [1]) ∧
    told flushing 1 = (none, [.invalidOperation "1"], [1]) ∧ told upset (-1) = (none, [], []) ∧
      told clearing (-1) = (none, [], [1]) ∧ told marking (-1) = (none, [], [1]) := by
  decide +kernel

end Strict

end ReactiveQuery
