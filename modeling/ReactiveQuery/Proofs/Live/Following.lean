import ReactiveQuery.Proofs.Live.Flush
import ReactiveQuery.Proofs.Live.Patience
import ReactiveQuery.Proofs.Live.Precedence

/-! Who is refreshed afterwards.  A refresh tells of the content of its result, so whatever is over
the result is refreshed in the next round, in whatever order the two came before. -/

namespace ReactiveQuery

namespace World

variable {u v w : World} {q : LiveQuery} {base : Nat}

/-- The live query is attached wherever one comes by from one world to another. -/
def Stays (w v : World) (q : LiveQuery) (base : Nat) : Prop :=
  ∀ x : World, w.Comes x → x.Comes v → x.Attached q base

theorem Enrolled.stays (enrolled : w.Enrolled) (before : w.Attached q base)
    (after : v.Attached q base) : w.Stays v q base := fun _ first second => by
  obtain ⟨enrolled', later⟩ := first.leads enrolled
  exact before.between later (second.leads enrolled').2 after

theorem Stays.inside {w' v' : World} (stays : w.Stays v q base) (first : w.Comes w')
    (last : v'.Comes v) : w'.Stays v' q base := fun x before after =>
  stays x (first.trans before) (after.trans last)

theorem Comes.holding (comes : w.Comes v) (held : List Value) : w.Comes { v with held } :=
  comes.step (Act.Proper.hold held)

end World

namespace Act

variable {again : Reentry} {b : LiveQuery} {j : Nat} {u v w : World} {P : Nat → Prop}

/-- Content that somebody is over comes to wait when it is told of. -/
theorem awaits_of_enqueue {e : Event} (pair : e.pair = (b.source.id, .content)) (counts : e.Counts)
    (enrolled : w.Enrolled) (awaits : w.Awaits P) (stays : w.Stays v b j)
    (gives : (enqueue e).Gives w () v) : v.Awaits (· = b.source.id) := by
  obtain ⟨_, u, swept, queued⟩ := gives_bind.mp gives
  obtain rfl := gives_modify.mp swept
  have attached := stays _ World.Comes.here.sweep (World.Comes.here.gives (.arrive e) queued)
  obtain ⟨d, inside, topic, -⟩ := attached.derived.hears_source
  have member := (attached.mem_on_iff (World.leads_sweep w enrolled).1).mpr
    (LiveQuery.mem_subscriptions.mpr ⟨d, inside, rfl⟩)
  rw [← pair] at topic
  have listens : w.sweep.bus.registry.hasListeners e.target e.key = true :=
    Registry.hasListeners_of_mem member.1 topic
  have news : e.new.strictEq e.old = false := by
    obtain ⟨old, n, new⟩ := counts (Prod.mk.inj pair).2
    rw [old, new]
    rfl
  rw [gives_changeBus] at queued
  rw [queued, listens, news, if_neg (by decide)]
  exact awaits.sweep.enqueue counts fun id same => .inl (by rw [pair, same])

/-- So it does among other changes. -/
theorem awaits_of_publishAll (proper : again.Proper) (silent : again.dispatch.Silent) {e : Event}
    {es : List Event} (pair : e.pair = (b.source.id, .content))
    (counts : ∀ x ∈ e :: es, x.Counts) (enrolled : w.Enrolled) (awaits : w.Awaits P)
    (stays : w.Stays v b j) (gives : (publishAll again.dispatch (e :: es)).Gives w () v) :
    v.Awaits (· = b.source.id) := by
  obtain ⟨now, later⟩ := List.forall_mem_cons.mp counts
  obtain ⟨_, u, queued, dispatched⟩ := gives_bind.mp gives
  obtain ⟨_, x, first, others⟩ := gives_bind.mp queued
  obtain ⟨y, inner, rfl⟩ := gives_holding.mp first
  have rest : (publishAll again.dispatch es).Gives { y with held := w.held } () v :=
    gives_bind.mpr ⟨_, u, others, dispatched⟩
  have before := World.Comes.here.holding (w := w) ((e :: es).flatMap Event.values ++ w.held)
  have after : y.Comes v := (World.Comes.here.holding w.held).gives
    (Proper.publishAll proper.dispatch es) rest
  have waits : y.Awaits (· = b.source.id) := awaits_of_enqueue pair now (before.leads enrolled).1
    (awaits.holding _) (stays.inside before after) inner
  exact (Patient.publishAll silent later).gives (waits.holding w.held) rest

theorem exists_changeEvents_eq (id old new : Nat) :
    ∃ es, changeEvents id old new = ⟨id, .content, .ofNat new, .null⟩ :: es := by
  unfold changeEvents
  split <;> exact ⟨_, rfl⟩

variable {a : LiveQuery} {i : Nat}

section
variable (proper : again.Proper) (silent : again.dispatch.Silent) (above : b.source = a.result)
  (enrolled : w.Enrolled) (awaits : w.Awaits P) (stays : w.Stays v a i) (stays' : w.Stays v b j)
include proper silent above enrolled awaits stays stays'

/-- New rows in a result that somebody is over are told of. -/
theorem awaits_of_change {rows out : List Value}
    (gives : (a.result.change again.dispatch (.replaceAll rows)).Gives w out v) :
    v.Awaits (· = b.source.id) := by
  have last : w.Comes v := World.Comes.here.gives
    (has_change (C := .proper) proper.dispatch _ _) gives
  have attached := stays w .here last
  obtain ⟨c, here⟩ := attached.cell?
  obtain ⟨_, same, sink⟩ := enrolled.sinks a attached.lists _ here
  cases same
  obtain ⟨items, -, reported⟩ := (gives_change here sink).mp gives
  have writes : w.Comes
      { w with heap := w.heap.put a.result.loc (some (.collection { c with items })) } := by
    have step := World.Comes.here.step (w := w) (Proper.setItems a.result items)
    rwa [on_changeHeap, Heap.setItems_eq_put here] at step
  obtain ⟨y, inner, rfl⟩ := gives_holding.mp reported
  obtain ⟨es, events⟩ := exists_changeEvents_eq a.result.id c.items.length items.length
  have counts : ∀ e ∈ changeEvents a.result.id c.items.length items.length, e.Counts :=
    fun e member => (tells_changeEvents _ _ _ e member).counts
  rw [events] at inner counts
  have before := writes.holding (out ++ w.held)
  have waits : y.Awaits (· = b.source.id) := awaits_of_publishAll proper silent (by rw [above]; rfl)
    counts (before.leads enrolled).1 (awaits.of_bus rfl rfl)
    (stays'.inside before (World.Comes.here.holding w.held)) inner
  exact waits.holding w.held

/-- So are those of a refresh. -/
theorem awaits_of_refresh (patient : ∀ e ctx args, (again.call e ctx args).Patient)
    (gives : (refresh again.call again.dispatch a.result a.source a.definition a.params).Gives w ()
      v) : v.Awaits (· = b.source.id) := by
  unfold refresh at gives
  simp only [gives_bind, gives_get, gives_holding, gives_pure] at gives
  obtain ⟨_, _, ⟨rfl, rfl⟩, y, ⟨rows, x, executed, out, z, changed, -, rfl⟩, rfl⟩ := gives
  have begun := World.Comes.here.holding (w := w) (w.heap.items a.source ++ w.held)
  have before := begun.gives (a.definition.has_execute (T := .proper) _
    (fun e _ => proper.call e) _) executed
  have between := (a.definition.has_execute (T := .patient) _ (fun e _ => patient e) _ :
    (a.definition.execute again.call ⟨a.source, a.params⟩ _).Patient).gives (awaits.holding _) executed
  have after := World.Comes.here.holding (w := z) w.held
  have waits : z.Awaits (· = b.source.id) := awaits_of_change proper silent above
    (before.leads enrolled).1 between (stays.inside before after) (stays'.inside before after) changed
  exact waits.holding w.held

end

end Act

/-- A turn that refreshes a result leaves its content waiting for those who are over it. -/
theorem JobTurn.awaits {again : Reentry} {a b : LiveQuery} {i j : Nat} {P : Nat → Prop}
    {t : JobTurn} {v : World} (proper : again.Proper) (silent : again.dispatch.Silent)
    (patient : ∀ e ctx args, (again.call e ctx args).Patient) (above : b.source = a.result)
    (enrolled : t.world.Enrolled) (waiting : t.world.Awaits P) (stays : t.world.Stays v a i)
    (stays' : t.world.Stays v b j) (job : t.job = a.job)
    (alive : t.begun.sweep.heap.isAlive a.result.loc = true)
    (ran : (t.act again).Gives t.world () v) : v.Awaits (· = b.source.id) := by
  obtain ⟨x, inner, rfl⟩ := Act.gives_holding.mp ran
  have runs : (t.job.run again.call again.dispatch again.perform).Gives t.begun () x := inner
  rw [job, LiveQuery.job, Act.Gives, Job.on_run_refresh, if_pos alive] at runs
  obtain ⟨y, refreshed, rfl⟩ := Act.gives_holding.mp runs
  have before : t.world.Comes _ :=
    (World.Comes.here.holding (t.job.values ++ t.world.held)).sweep.holding
    (.collection a.result :: t.begun.sweep.held)
  have after := (World.Comes.here.holding (w := y) t.begun.sweep.held).holding t.world.held
  have waits : y.Awaits (· = b.source.id) := Act.awaits_of_refresh proper silent above
    (before.leads enrolled).1 ((waiting.holding _).sweep.holding _) (stays.inside before after)
    (stays'.inside before after) patient refreshed
  exact (waits.holding _).holding _

namespace Round.Begun

variable {K : Command → Prop} {again : Reentry} {r : Round} {a b : LiveQuery} {i j n : Nat}
  {v x : World} (made : again.Made (Scope.clean K) (Act.Settling K)) (begun : r.Begun K again)
  (patient : again.Patient K)
include made begun patient

theorem awaits_flushing : r.flushing.Awaits fun _ => False := by
  obtain ⟨u, delivered, same⟩ := begun.told
  have busy : r.taken.bus.Busy K :=
    ⟨⟨Queue.indexed_empty, begun.busy.orderly.listeners, begun.busy.orderly.jobs⟩,
      begun.busy.dispatching⟩
  have told : u.Awaits fun _ => False := Act.keeps_of_deliver (T := .patient)
    (I := World.Awaits fun _ => False) (fun _ patient _ _ gives awaits => patient.gives awaits gives)
    patient.perform (fun _ _ _ awaits => awaits.of_bus rfl rfl)
    (fun _ _ _ _ awaits => awaits.of_bus rfl rfl) made busy
    ⟨busy.dispatching, Queue.counts_empty, nofun⟩ delivered
  exact told.of_bus (by rw [flushing, same]) (by rw [flushing, same])

variable (proper : again.Proper) (silent : again.dispatch.Silent)
include proper silent

theorem patient_of_mem_turns {t : JobTurn} (member : t ∈ r.turns again) :
    (t.act again).Patient := by
  obtain ⟨q, -, -, job⟩ := begun.lists_of_mem_turns made proper member
  have admits : (Scope.clean fun _ => False).Admits t.job := by
    rw [job]
    trivial
  have runs := Act.has_run (C := .patient (Scope.clean fun _ => False) (fun _ => id) fun _ => id)
    ⟨patient.call, silent, nofun⟩ admits
  exact Trait.patient.holding _ runs

/-- After a flush in which a result is refreshed its content waits for those who are over it. -/
theorem awaits_of_refreshes (above : b.source = a.result)
    (flushed : (Act.flush again.call again.dispatch again.perform).Gives r.told () x)
    (stays : r.told.Stays x a i) (stays' : r.told.Stays x b j)
    (refreshed : a.result ∈ r.refreshes again) : x.Awaits (· = b.source.id) := by
  have enrolled := begun.enrolled_told proper
  have flushing : r.told.Comes r.flushing := World.Comes.here.step
    (Act.Proper.changeBus (fun _ => rfl) (fun _ => rfl) fun _ => Nat.le_refl _ :
      (Act.changeBus fun b => { b with scheduler := b.scheduler.begin }).Proper)
  have skips : ∀ P (w : World) s, w.Awaits P →
      World.Awaits P { w with bus := { w.bus with scheduler := s } } :=
    fun _ _ _ awaits => awaits.of_bus rfl rfl
  have keeps : ∀ P, ∀ t ∈ r.turns again, ∀ y, (t.act again).Gives t.world () y →
      t.world.Awaits P → y.Awaits P := fun P t member y ran awaits =>
    (begun.patient_of_mem_turns made patient proper silent member).gives awaits ran
  obtain ⟨t, member, found⟩ := List.mem_filterMap.mp refreshed
  obtain ⟨q, lists, -, job, same, alive⟩ :=
    (begun.refreshes?_eq_some made proper member).mp found
  have one := enrolled.ranked.one q a lists
    (stays r.told .here (World.Comes.here.gives (Act.Proper.flush proper) flushed)).lists
    (.inl (by rw [same]))
  have comes := flushing.trans (Act.comes_of_mem_turns proper member)
  have waiting := Act.keeps_of_mem_turns (skips _) (keeps _)
    (begun.awaits_flushing made patient) member
  refine Act.drain_of_mem_turns (skips _) (keeps _) member (fun y ran => ?_) flushed
  have rest := Act.comes_of_drain proper member ran flushed
  exact JobTurn.awaits proper silent patient.call above (comes.leads enrolled).1 waiting
    (stays.inside comes rest) (stays'.inside comes rest) (job.trans one) alive ran

omit patient silent

/-- In a flush that succeeds whoever stays attached and hears of the batch is refreshed once. -/
theorem count_refreshes
    (flushed : (Act.flush again.call again.dispatch again.perform).Gives r.told () x)
    (stays : r.opened.Stays x b j) (hears : ∃ e ∈ r.batch, b.Hears e.pair) :
    (r.refreshes again).count b.result = 1 := by
  have flushes := World.Comes.here.gives (Act.Proper.flush proper) flushed
  have told : r.opened.Comes r.told := by
    obtain ⟨first, second⟩ := begun.comes_told proper
    exact first.trans second
  have flushing : r.told.Comes r.flushing := World.Comes.here.step
    (Act.Proper.changeBus (fun _ => rfl) (fun _ => rfl) fun _ => Nat.le_refl _ :
      (Act.changeBus fun b => { b with scheduler := b.scheduler.begin }).Proper)
  have succeeds : ∀ t ∈ r.turns again, ∃ y, (t.act again).Gives t.world () y := fun t member => by
    simpa [JobTurn.Fails] using Act.not_fails_of_drain member flushed
  refine (begun.exact made proper).once b j (stays _ .here (told.trans flushes))
    (stays _ told flushes) (fun t member job => ?_) (fun t member fails => ?_) hears
  · obtain ⟨y, ran⟩ := succeeds t member
    -- A result that were gone when its turn comes would be gone when the turn has passed.
    by_contra dead
    obtain ⟨z, inner, rfl⟩ := Act.gives_holding.mp ran
    have runs : (t.job.run again.call again.dispatch again.perform).Gives t.begun () z := inner
    rw [job, LiveQuery.job, Act.Gives, Job.on_run_refresh, if_neg dead] at runs
    obtain ⟨-, rfl⟩ := Prod.mk.inj runs
    have comes := (told.trans flushing).trans (Act.comes_of_mem_turns proper member)
    have attached := stays _
      (comes.gives (Trait.proper.holding _ (Act.Proper.run proper t.job)) ran)
      (Act.comes_of_drain proper member ran flushed)
    obtain ⟨c, here⟩ := attached.cell?
    exact dead (by rw [Heap.isAlive, here]; rfl)
  · obtain ⟨y, ran⟩ := succeeds t member
    exact absurd ran (fails y)

end Round.Begun

/-- How the refreshes of two live queries go together in a dispatch, where the one is over the
result of the other. -/
structure World.Follows (u : World) (K : Command → Prop) (again : Reentry) (a b : LiveQuery)
    (i j : Nat) : Prop where
  /-- A round that refreshes both begins with the source if and only if the source hears first. -/
  order : ∀ r ∈ Act.rounds again u.bus.ceiling u.opened, r.told.Attached a i →
    r.told.Attached b j → a.result ∈ r.refreshes again → b.result ∈ r.refreshes again →
      ([a.result, b.result].Sublist (r.refreshes again) ↔ a.Precedes b r.batch)
  /-- If nothing takes back content that waits, and the dispatch succeeds, then every round that
  refreshes the source is followed by one that refreshes the other. -/
  next : again.Patient K → ∀ v,
    (Act.dispatchIfIdle again.call again.dispatch again.perform).Gives u () v → v.Attached a i →
      v.Attached b j → ∀ k r, (Act.rounds again u.bus.ceiling u.opened)[k]? = some r →
        a.result ∈ r.refreshes again → ∃ s,
          (Act.rounds again u.bus.ceiling u.opened)[k + 1]? = some s ∧
            (s.refreshes again).count b.result = 1

/-- A live query over the result of another is refreshed before it or after it, as the two hear of
the events, and in any case once more in the round after. -/
theorem Engine.Begins.dependents_follow {K : Command → Prop} {E : Engine (Scope.clean K)}
    {u : World} (begins : E.Begins u) (proper : E.Proper) (depth : Nat) {a b : LiveQuery}
    {i j : Nat} (feeds : a.Feeds b) (first : u.Attached a i) (second : u.Attached b j) :
    u.Follows K (E.within depth) a b i j := by
  have made := E.made_within depth
  have proper' := proper.within depth
  have enrolled := begins.enrolled
  refine ⟨fun r member stays stays' refreshed refreshed' => ?_,
    fun patient v gives stays stays' k r here refreshed => ?_⟩
  · obtain ⟨begun, opened⟩ := begins.begun proper member
    obtain ⟨before, after⟩ := begun.comes_told proper'
    have told := before.trans after
    exact begun.sublist_refreshes_iff made proper' (enrolled.stays first stays _ opened told)
      (enrolled.stays second stays' _ opened told) feeds.older stays stays' refreshed refreshed'
  · have waiting : u.bus.queue.isEmpty = false := by
      refine Bool.eq_false_iff.mpr fun empty => ?_
      rw [Act.rounds_of_isEmpty (w := u.opened) empty] at here
      cases here
    obtain ⟨y, cycled, rfl⟩ := Act.exists_cycles_of_dispatchIfIdle begins.orderly.2.1 waiting gives
    have closes : y.Comes { y with bus := { y.bus with dispatching := false } } :=
      World.Comes.here.step (Act.Proper.flag false)
    obtain ⟨n, x, flushed, rest, more⟩ := Act.after_round cycled here
    obtain ⟨begun, opened⟩ := begins.begun proper (List.mem_of_getElem? here)
    obtain ⟨before, after⟩ := begun.comes_told proper'
    have told := (opened.trans before).trans after
    have flushes := World.Comes.here.gives (Act.Proper.flush proper') flushed
    have ends := (World.Comes.here.gives (Act.Proper.cycles proper' n) rest).trans closes
    have awaits := begun.awaits_of_refreshes made patient proper' (E.silent_within depth)
      feeds.source flushed ((enrolled.stays first stays).inside told ends)
      ((enrolled.stays second stays').inside told ends) refreshed
    obtain ⟨e, waits, pair⟩ := awaits.waits _ rfl
    have more' : x.bus.queue.isEmpty = false := by
      refine Bool.eq_false_iff.mpr fun empty => ?_
      rw [awaits.counts.indexed.isEmpty_iff.mp empty] at waits
      cases waits
    obtain ⟨s, ss, z, same, rfl, flushed', m, rest'⟩ := Act.exists_round_of_cycles rest more'
    have member : (Act.rounds (E.within depth) u.bus.ceiling u.opened)[k + 1]? = some s := by
      have first := congrArg (·[0]?) (more.trans same)
      simpa using first
    obtain ⟨begun', opened'⟩ := begins.begun proper (List.mem_of_getElem? member)
    have ends' := (World.Comes.here.gives (Act.Proper.cycles proper' m) rest').trans closes
    refine ⟨s, member, begun'.count_refreshes made proper' flushed'
      ((enrolled.stays second stays').inside opened' ends') ⟨e, waits, ?_⟩⟩
    rw [pair]
    exact second.derived.hears_source

namespace Chained

/-- The rounds of the dispatch. -/
def rounds : List Round := Act.rounds (engine.within 8) pushed.bus.ceiling pushed.opened

theorem comes_pushed : (known.on source).2.Comes watched ∧ (level.on watched).2.Comes pushed := by
  have names : ∀ name v, (Act.bindName name v).Proper := fun _ _ =>
    Act.has_changeDesk (C := .proper) (fun _ => rfl) fun _ => rfl
  exact ⟨World.Comes.here.step (names _ _), ((World.Comes.here.step (names "b" _)).step
    (Act.Proper.setField ⟨0, 1⟩ "n" _)).gives (Act.Proper.enqueueAll _) gives_push⟩

/-- Both results retain something. -/
def Kept (w : World) : Prop := w.heap.subscriptions 2 ≠ [] ∧ w.heap.subscriptions 3 ≠ []

instance : DecidablePred Kept := fun _ => inferInstanceAs (Decidable (_ ∧ _))

/-- The two live queries stay attached as long as their results retain anything. -/
theorem exists_attached : ∃ (a b : LiveQuery) (i j : Nat), a.result = ⟨2, 3⟩ ∧ b.result = ⟨3, 4⟩ ∧
    a.Feeds b ∧ ∀ v, pushed.Comes v → Kept v → v.Attached a i ∧ v.Attached b j := by
  have within := proper.within 8
  obtain ⟨a, i, result, -, -, first⟩ := Act.attached_of_live within.call within.dispatch
    runs_source.enrolled gives_known
  obtain ⟨b, j, result', above, -, second⟩ := Act.attached_of_live within.call within.dispatch
    runs_watched.enrolled gives_level
  have between : watched.Comes (level.on watched).2 := World.Comes.here.gives
    (Act.has_live (C := .proper) within.dispatch within.call _ _ _) gives_level
  refine ⟨a, b, i, j, result, result', ⟨above.trans result.symm, ?_⟩, fun v comes kept => ?_⟩
  · rw [result, result']
    decide
  · have later := comes_pushed.2.trans comes
    exact ⟨first v ((comes_pushed.1.trans between).trans later) kept.1, second v later kept.2⟩

/-- The dispatch of what waits. -/
def dispatched : Act Unit := Act.dispatchIfIdle (engine.within 8).call (engine.within 8).dispatch
  (engine.within 8).perform

/-- What a round refreshes, and how many rows the two results have before its batch is taken. -/
def sight (r : Round) : List Ref × Nat × Nat :=
  (r.refreshes (engine.within 8), (r.opened.heap.items ⟨2, 3⟩).length,
    (r.opened.heap.items ⟨3, 4⟩).length)

/-- The course of the dispatch, in which no result is discarded. -/
theorem course : rounds.map sight = [([⟨3, 4⟩, ⟨2, 3⟩], 0, 0), ([⟨3, 4⟩], 1, 0)] ∧
    Kept pushed ∧ (∀ r ∈ rounds, Kept r.told) ∧ Kept (dispatched.on pushed).2 ∧
      (dispatched.on pushed).1.toOption = some () := by
  decide +kernel

theorem exists_rounds : ∃ r s, rounds = [r, s] ∧ sight r = ([⟨3, 4⟩, ⟨2, 3⟩], 0, 0) ∧
    sight s = ([⟨3, 4⟩], 1, 0) := by
  obtain ⟨r, rs, same, first, rest⟩ := List.map_eq_cons_iff.mp course.1
  obtain ⟨s, ss, rfl, second, none⟩ := List.map_eq_cons_iff.mp rest
  rw [List.map_eq_nil_iff.mp none] at same
  exact ⟨r, s, same, first, second⟩

/-- The one over the result hears first and is refreshed in the first round, and in the second. -/
theorem follows_pushed : ∃ (a b : LiveQuery) (r s : Round), a.Feeds b ∧ rounds = [r, s] ∧
    ¬a.Precedes b r.batch ∧ (s.refreshes (engine.within 8)).count b.result = 1 := by
  obtain ⟨a, b, i, j, result, result', feeds, attached⟩ := exists_attached
  obtain ⟨r, s, all, first, -⟩ := exists_rounds
  obtain ⟨-, kept, told, last, ends⟩ := course
  have refreshes : r.refreshes (engine.within 8) = [b.result, a.result] := by
    rw [result, result']
    exact congrArg Prod.fst first
  have follows := begins_pushed.dependents_follow proper 8 feeds (attached pushed .here kept).1
    (attached pushed .here kept).2
  have member : r ∈ Act.rounds (engine.within 8) pushed.bus.ceiling pushed.opened := by
    rw [← rounds, all]
    exact List.mem_cons_self
  refine ⟨a, b, r, s, feeds, all, fun precedes => ?_, ?_⟩
  · obtain ⟨begun, opened⟩ := begins_pushed.begun proper member
    obtain ⟨before, after⟩ := begun.comes_told (proper.within 8)
    obtain ⟨now, now'⟩ := attached _ ((opened.trans before).trans after) (told r member)
    have order := (follows.order r member now now' (by simp [refreshes])
      (by simp [refreshes])).mpr precedes
    rw [refreshes, result, result'] at order
    revert order
    decide
  · have dispatches : pushed.Comes (dispatched.on pushed).2 :=
      World.Comes.here.step (Act.Proper.dispatchIfIdle (proper.within 8))
    have patient := Engine.patient_standard closed_looks (fun _ => nofun) (fun _ => nofun) 8
    have gives : dispatched.Gives pushed () (dispatched.on pushed).2 := Act.gives_of_toOption ends
    obtain ⟨now, now'⟩ := attached _ dispatches last
    obtain ⟨s', next, once⟩ := follows.next patient _ gives now now' 0 r
      (by rw [← rounds, all, List.getElem?_cons_zero]) (by simp [refreshes])
    rw [← rounds, all] at next
    obtain rfl : s = s' := by simpa using next
    exact once

/-- A round refreshes the one over the result first, while the result has yet to get its row. -/
theorem dependent_first : ∃ (a b : LiveQuery) (i j : Nat) (r s : Round), engine.Begins pushed ∧
    a.Feeds b ∧ pushed.Attached a i ∧ pushed.Attached b j ∧ rounds = [r, s] ∧
      r.refreshes (engine.within 8) = [b.result, a.result] ∧
      ¬[a.result, b.result].Sublist (r.refreshes (engine.within 8)) ∧
      (s.opened.heap.items a.result).length = 1 ∧ (s.opened.heap.items b.result).length = 0 := by
  obtain ⟨a, b, i, j, result, result', feeds, attached⟩ := exists_attached
  obtain ⟨r, s, all, first, second⟩ := exists_rounds
  simp only [sight, Prod.mk.injEq] at first second
  rw [← result, ← result'] at first second
  obtain ⟨now, now'⟩ := attached pushed .here course.2.1
  refine ⟨a, b, i, j, r, s, begins_pushed, feeds, now, now', all, first.1, ?_, second.2⟩
  rw [first.1, result, result']
  decide

end Chained

end ReactiveQuery
