import ReactiveQuery.Proofs.Live.Course

/-! The rounds of a dispatch.  A round takes the waiting events, marks a job for each live query that
accepts one of them, and then gives each marked job its turn. -/

namespace ReactiveQuery

namespace Jobs

variable {J : Type}

/-- The first entry of each identity. -/
def firsts : Jobs J → Jobs J
  | [] => []
  | x :: rest => x :: (firsts rest).filter (·.1 != x.1)

theorem mem_of_mem_firsts {x : Nat × J} {jobs : Jobs J} (member : x ∈ jobs.firsts) : x ∈ jobs := by
  induction jobs with
  | nil => exact member
  | cons y rest ih =>
    rcases List.mem_cons.mp member with rfl | later
    · exact List.mem_cons_self
    · exact List.mem_cons_of_mem _ (ih (List.mem_of_mem_filter later))

theorem exists_mem_firsts {x : Nat × J} {jobs : Jobs J} (member : x ∈ jobs) :
    ∃ job, (x.1, job) ∈ jobs.firsts := by
  induction jobs with
  | nil => cases member
  | cons y rest ih =>
    by_cases same : x.1 = y.1
    · exact ⟨y.2, by rw [same]; exact List.mem_cons_self⟩
    · rcases List.mem_cons.mp member with rfl | later
      · exact absurd rfl same
      · obtain ⟨job, here⟩ := ih later
        exact ⟨job, List.mem_cons_of_mem _ (List.mem_filter.mpr ⟨here, by simpa using same⟩)⟩

theorem nodup_firsts (jobs : Jobs J) : (jobs.firsts.map (·.1)).Nodup := by
  induction jobs with
  | nil => exact List.nodup_nil
  | cons x rest ih =>
    refine List.nodup_cons.mpr ⟨fun member => ?_, ih.sublist (List.filter_sublist.map _)⟩
    obtain ⟨y, inside, same⟩ := List.mem_map.mp member
    simp [same] at inside

theorem firsts_cons_of_has {marked : Jobs J} {x : Nat × J} {rest : Jobs J}
    (known : marked.has x.1 = true) :
    (firsts (x :: rest)).filter (fun y => !marked.has y.1) =
      (firsts rest).filter fun y => !marked.has y.1 := by
  rw [firsts, List.filter_cons, if_neg (by simp [known]), List.filter_filter]
  refine List.filter_congr fun y _ => ?_
  by_cases same : y.1 = x.1 <;> simp [same, known]

end Jobs

/-- Marking one after the other keeps the first mark of each identity. -/
theorem Scheduler.foldl_mark {J : Type} (accepted marked : Jobs J) :
    accepted.foldl (fun s x => (s.mark x.1 x.2).2) (⟨marked, []⟩ : Scheduler J) =
      ⟨marked ++ accepted.firsts.filter (fun x => !marked.has x.1), []⟩ := by
  induction accepted generalizing marked with
  | nil => simp [Jobs.firsts]
  | cons x rest ih =>
    rw [List.foldl_cons]
    have first : ((⟨marked, []⟩ : Scheduler J).mark x.1 x.2).2 =
        ⟨if marked.has x.1 then marked else marked ++ [x], []⟩ := by
      have dirty : (⟨marked, []⟩ : Scheduler J).isDirty x.1 = marked.has x.1 := by
        simp [isDirty, Jobs.has]
      rw [mark, dirty]
      cases marked.has x.1 <;> rfl
    rw [first, ih]
    cases known : marked.has x.1 with
    | true => rw [if_pos rfl, Jobs.firsts_cons_of_has known]
    | false =>
      rw [if_neg (by simp), Jobs.firsts, List.filter_cons, if_pos (by simp [known]),
        List.filter_filter, List.append_assoc, List.singleton_append]
      congr 4
      funext y
      simp [Jobs.has, bne, BEq.comm (a := x.1)]

/-- The mark that a listener makes when it hears of an event. -/
def Listener.acceptance? (e : Event) : Listener → Option (Nat × Job)
  | .script .. => none
  | .invalidate id route job => if route.accepts e then some (id, job) else none

/-- A job whose turn has come, in the world in which it is run. -/
structure JobTurn where
  id : Nat
  job : Job
  world : World

/-- What is done in the turn. -/
def JobTurn.act (again : Reentry) (t : JobTurn) : Act Unit :=
  Act.holding t.job.values (t.job.run again.call again.dispatch again.perform)

/-- The world in which the job runs, with what the job holds. -/
def JobTurn.begun (t : JobTurn) : World :=
  { t.world with held := t.job.values ++ t.world.held }

/-- The turn of the first of the jobs that a flush still has to run. -/
def World.turn (w : World) (id : Nat) (job : Job) (running : Jobs Job) : JobTurn :=
  ⟨id, job, { w with bus := { w.bus with scheduler := { w.bus.scheduler with running } } }⟩

/-- A cycle that has delivered its events: the world that it took them from, and the one in which
they have been told. -/
structure Round where
  opened : World
  told : World

def Round.batch (r : Round) : List Event := r.opened.bus.queue.events

namespace Act

variable (again : Reentry)

/-- What listeners accept while events are delivered. -/
def acceptances : List Event → World → Jobs Job
  | [], _ => []
  | e :: es, w =>
    let hearers := w.sweep.bus.hearers e
    hearers.filterMap (Listener.acceptance? e) ++
      (tell again.perform e hearers).after w.sweep fun _ v => acceptances es v

/-- The jobs that come to their turn, up to the first that fails. -/
def turns : Nat → World → List JobTurn
  | 0, _ => []
  | count + 1, w =>
    match w.bus.scheduler.running with
    | [] => []
    | (id, job) :: running =>
      let t := w.turn id job running
      t :: (t.act again).after t.world fun _ v => turns count v

/-- The cycles that deliver something. -/
def rounds : Nat → World → List Round
  | 0, _ => []
  | count + 1, w =>
    let values := w.bus.queue.events.flatMap Event.values
    if w.bus.queue.isEmpty then [] else
      (holding values (deliver again.perform w.bus.queue.events)).after
        { w with bus := { w.bus with queue := {} } } fun _ told => ⟨w, told⟩ ::
          (flush again.call again.dispatch again.perform).after told fun _ v => rounds count v

end Act

namespace Round

variable (r : Round) (again : Reentry)

/-- The world in which the delivery of the batch begins. -/
def taken : World := { r.opened with
  bus := { r.opened.bus with queue := {} }
  held := r.batch.flatMap Event.values ++ r.opened.held }

/-- The batch is delivered. -/
def Delivers : Prop := ∃ u, (Act.deliver again.perform r.batch).Gives r.taken () u ∧
  r.told = { u with held := r.opened.held }

/-- What listeners accept of the batch, in order. -/
def accepted : Jobs Job := Act.acceptances again r.batch r.taken

/-- The world in which the flush begins. -/
def flushing : World :=
  { r.told with bus := { r.told.bus with scheduler := r.told.bus.scheduler.begin } }

/-- The jobs that come to their turn in the flush. -/
def turns : List JobTurn :=
  Act.turns again r.flushing.bus.scheduler.running.length r.flushing

end Round

namespace JobTurn

/-- The result that is refreshed in a turn: the one of the job, if it is still alive. -/
def refreshes? (t : JobTurn) : Option Ref :=
  match t.job with
  | .refresh result .. => if t.begun.sweep.heap.isAlive result.loc then some result else none
  | .script .. => none

/-- The job does not succeed. -/
def Fails (again : Reentry) (t : JobTurn) : Prop := ∀ v, ¬(t.act again).Gives t.world () v

end JobTurn

/-- The results that are refreshed in a round, in order. -/
def Round.refreshes (again : Reentry) (r : Round) : List Ref :=
  (r.turns again).filterMap JobTurn.refreshes?

namespace Act

variable {K : Command → Prop} {again : Reentry} {v w : World} {e : Event} {es : List Event}

theorem acceptances_cons {u : World}
    (told : (tell again.perform e (w.sweep.bus.hearers e)).Gives w.sweep () u) :
    acceptances again (e :: es) w =
      (w.sweep.bus.hearers e).filterMap (Listener.acceptance? e) ++ acceptances again es u := by
  rw [acceptances, told.after]

section
variable (made : again.Made (Scope.clean K) (Settling K))
include made

theorem hear_scheduler {l : Listener} (hears : (Scope.clean K).Hears l)
    (busy : w.bus.Busy K) (leaves : (l.hear again.perform e).Leaves w v) :
    v.bus.scheduler = ((l.acceptance? e).toList).foldl (fun s x => (s.mark x.1 x.2).2)
      w.bus.scheduler := by
  cases l with
  | script name members actions =>
    exact (Made.busy (has_hear_script made.allows.perform (fun _ _ => Made.log _) e name members
      hears) busy leaves).2
  | invalidate id route job =>
    simp only [Listener.hear, Listener.acceptance?] at leaves ⊢
    split at leaves
    · next accepts =>
      rw [leaves_changeBus] at leaves
      rw [leaves, if_pos accepts]
      rfl
    · next rejects =>
      rw [leaves_pure] at leaves
      rw [leaves, if_neg rejects]
      rfl

theorem tell_scheduler {ls : List Listener} (hear : ∀ l ∈ ls, (Scope.clean K).Hears l)
    (busy : w.bus.Busy K) (gives : (tell again.perform e ls).Gives w () v) :
    v.bus.scheduler = (ls.filterMap (Listener.acceptance? e)).foldl (fun s x => (s.mark x.1 x.2).2)
      w.bus.scheduler := by
  induction ls generalizing w with
  | nil =>
    obtain ⟨-, rfl⟩ := gives_pure.mp gives
    rfl
  | cons l ls ih =>
    have ⟨first, others⟩ := List.forall_mem_cons.mp hear
    obtain ⟨_, _, told, rest⟩ := gives_bind.mp gives
    obtain ⟨u, heard, rfl⟩ := gives_holding.mp told
    have busy' : u.bus.Busy K := hear_busy made first
      (w := { w with held := (l :: ls).flatMap Listener.values ++ w.held }) busy heard.leaves
    have marked := hear_scheduler made first
      (w := { w with held := (l :: ls).flatMap Listener.values ++ w.held }) busy heard.leaves
    rw [ih (w := { u with held := w.held }) others busy' rest, marked, List.filterMap_cons]
    cases l.acceptance? e <;> rfl

/-- Delivery marks what is accepted, in order. -/
theorem deliver_scheduler (busy : w.bus.Busy K)
    (gives : (deliver again.perform es).Gives w () v) :
    v.bus.scheduler = (acceptances again es w).foldl (fun s x => (s.mark x.1 x.2).2)
      w.bus.scheduler := by
  induction es generalizing w with
  | nil =>
    obtain ⟨-, rfl⟩ := gives_pure.mp gives
    rfl
  | cons e es ih =>
    obtain ⟨u, told, rest⟩ := gives_deliver_cons.mp gives
    have busy' := busy.sweep
    have hear := busy'.hears (w.sweep.bus.registry.reached e.target e.key)
    rw [acceptances_cons told, List.foldl_append, ih (tell_busy made hear busy' told.leaves) rest,
      tell_scheduler made hear busy' told, (World.waiting_sweep w).2]
    rfl

end

theorem mem_acceptance_iff {ls : List Listener} {x : Nat × Job} :
    x ∈ ls.filterMap (Listener.acceptance? e) ↔
      ∃ route, .invalidate x.1 route x.2 ∈ ls ∧ route.accepts e = true := by
  rw [List.mem_filterMap]
  constructor
  · rintro ⟨l, inside, accepted⟩
    cases l with
    | script => cases accepted
    | invalidate id route job =>
      simp only [Listener.acceptance?] at accepted
      split at accepted
      · next accepts =>
        obtain rfl := Option.some.inj accepted
        exact ⟨route, inside, accepts⟩
      · cases accepted
  · rintro ⟨route, inside, accepts⟩
    exact ⟨_, inside, by rw [Listener.acceptance?, if_pos accepts]⟩

section
variable (proper : again.Proper) (enrolled : w.Enrolled)
include proper enrolled

/-- What is accepted are jobs of live queries that hear of an event. -/
theorem exists_of_mem_acceptances {x : Nat × Job} (gives : (deliver again.perform es).Gives w () v)
    (member : x ∈ acceptances again es w) : ∃ (q : LiveQuery) (u : World),
      x = (q.result.id, q.job) ∧ q.Derived ∧ (∃ e ∈ es, q.Hears e.pair) ∧ u.Live q ∧
        w.Later u ∧ u.Later v := by
  induction es generalizing w with
  | nil => cases member
  | cons e es ih =>
    obtain ⟨u, told, rest⟩ := gives_deliver_cons.mp gives
    have ⟨swept, first⟩ := World.leads_sweep w enrolled
    have ⟨enrolled', second⟩ := World.Comes.here.gives (.tell proper e _) told |>.leads swept
    have ⟨_, third⟩ := World.Comes.here.gives (.deliver proper es) rest |>.leads enrolled'
    rw [acceptances_cons told, List.mem_append] at member
    rcases member with now | after
    · obtain ⟨route, among, accepts⟩ := mem_acceptance_iff.mp now
      obtain ⟨q, number, job, derived, hears, live⟩ := swept.exists_of_hearers among accepts
      exact ⟨q, w.sweep, by rw [number, job], derived, ⟨e, List.mem_cons_self, hears⟩, live, first,
        second.trans third⟩
    · obtain ⟨q, x, same, derived, ⟨e', inside, hears⟩, live, before, later⟩ :=
        ih enrolled' rest after
      exact ⟨q, x, same, derived, ⟨e', List.mem_cons_of_mem _ inside, hears⟩, live,
        (first.trans second).trans before, later⟩

/-- A live query that stays attached accepts an event if and only if it hears of one. -/
theorem mem_acceptances_iff {q : LiveQuery} {base : Nat}
    (attached : w.Attached q base) (stays : v.Attached q base)
    (gives : (deliver again.perform es).Gives w () v) :
    (q.result.id, q.job) ∈ acceptances again es w ↔ ∃ e ∈ es, q.Hears e.pair := by
  induction es generalizing w with
  | nil => simp [acceptances]
  | cons e es ih =>
    obtain ⟨u, told, rest⟩ := gives_deliver_cons.mp gives
    have ⟨swept, first⟩ := World.leads_sweep w enrolled
    have ⟨enrolled', second⟩ := World.Comes.here.gives (.tell proper e _) told |>.leads swept
    have ⟨_, third⟩ := World.Comes.here.gives (.deliver proper es) rest |>.leads enrolled'
    have attached' := attached.between first (second.trans third) stays
    have now : (q.result.id, q.job) ∈
        (w.sweep.bus.hearers e).filterMap (Listener.acceptance? e) ↔ q.Hears e.pair := by
      rw [mem_acceptance_iff, attached'.mem_hearers_iff swept]
    rw [acceptances_cons told, List.mem_append, now,
      ih enrolled' (attached'.between second third stays) rest]
    simp

end

section
variable (made : again.Made (Scope.clean K) (Settling K))
include made

/-- While a job runs the others wait. -/
theorem run_busy {id : Nat} {job : Job} {running : Jobs Job} (busy : w.bus.Busy K)
    (clean : w.bus.scheduler.marked = []) (next : w.bus.scheduler.running = (id, job) :: running)
    (gives : ((w.turn id job running).act again).Gives (w.turn id job running).world () v) :
    v.bus.Busy K ∧ v.bus.scheduler = ⟨[], running⟩ := by
  obtain ⟨u, inner, rfl⟩ := gives_holding.mp gives
  have jobs := busy.orderly.jobs
  rw [next, clean, List.nil_append] at jobs
  have ⟨admits, others⟩ := List.forall_mem_cons.mp jobs
  have begun : Bus.Busy K { w.bus with scheduler := { w.bus.scheduler with running } } := by
    refine ⟨⟨busy.orderly.indexed, busy.orderly.listeners, ?_⟩, busy.dispatching⟩
    simpa only [clean, List.nil_append] using others
  obtain ⟨after, same⟩ := Made.busy (has_run made.allows admits)
    (w := { w with
      bus := { w.bus with scheduler := { w.bus.scheduler with running } }
      held := job.values ++ w.held }) begun inner.leaves
  exact ⟨after, same.trans (congrArg (Scheduler.mk · running) clean)⟩

/-- Jobs come to their turn one after the other. -/
theorem turns_isPrefix {count : Nat} (busy : w.bus.Busy K) (clean : w.bus.scheduler.marked = []) :
    (turns again count w).map (fun t => (t.id, t.job)) <+: w.bus.scheduler.running := by
  induction count generalizing w with
  | zero => exact List.nil_prefix
  | succ count ih =>
    rw [turns]
    split
    · exact List.nil_prefix
    · next id job running next =>
      rw [next, List.map_cons, List.cons_prefix_cons]
      refine ⟨rfl, ?_⟩
      rw [Act.after]
      split
      · next v ran =>
        obtain ⟨busy', same⟩ := run_busy made busy clean next ran
        have rest := ih busy' (by rw [same])
        rwa [same] at rest
      · exact List.nil_prefix

/-- A job has its turn unless an earlier one fails. -/
theorem mem_turns {count : Nat} {x : Nat × Job} (busy : w.bus.Busy K)
    (clean : w.bus.scheduler.marked = []) (enough : w.bus.scheduler.running.length ≤ count)
    (member : x ∈ w.bus.scheduler.running)
    (first : ∀ t ∈ turns again count w, t.Fails again → (t.id, t.job) = x) :
    ∃ t ∈ turns again count w, (t.id, t.job) = x := by
  induction count generalizing w with
  | zero =>
    rw [List.eq_nil_of_length_eq_zero (Nat.le_zero.mp enough)] at member
    cases member
  | succ count ih =>
    cases next : w.bus.scheduler.running with
    | nil => simp [next] at member
    | cons entry running =>
      obtain ⟨id, job⟩ := entry
      simp only [turns, next] at first ⊢
      obtain ⟨now, later⟩ := List.forall_mem_cons.mp first
      by_cases here : (id, job) = x
      · exact ⟨_, List.mem_cons_self, here⟩
      · have succeeds := mt now here
        simp only [JobTurn.Fails, not_forall, not_not] at succeeds
        obtain ⟨v, ran⟩ := succeeds
        obtain ⟨busy', same⟩ := run_busy made busy clean next ran
        rw [ran.after] at later ⊢
        rw [next] at member enough
        have member' := (List.mem_cons.mp member).resolve_left (Ne.symm here)
        obtain ⟨t, inside, found⟩ := ih busy' (by rw [same])
          (by rw [same]; exact Nat.le_of_succ_le_succ enough) (by rwa [same]) later
        exact ⟨t, List.mem_cons_of_mem _ inside, found⟩

end

/-- What every turn keeps holds when the turn of any job comes. -/
theorem keeps_of_mem_turns {I : World → Prop} {count : Nat} {t : JobTurn}
    (skips : ∀ w s, I w → I { w with bus := { w.bus with scheduler := s } })
    (keeps : ∀ t ∈ turns again count w, ∀ x, (t.act again).Gives t.world () x → I t.world → I x)
    (start : I w) (member : t ∈ turns again count w) : I t.world := by
  induction count generalizing w with
  | zero => cases member
  | succ count ih =>
    cases next : w.bus.scheduler.running with
    | nil => simp [turns, next] at member
    | cons entry running =>
      simp only [turns, next] at member keeps
      have begun := skips w { w.bus.scheduler with running } start
      obtain ⟨now, after⟩ := List.forall_mem_cons.mp keeps
      rcases List.mem_cons.mp member with rfl | later
      · exact begun
      · rcases ran : ((w.turn entry.1 entry.2 running).act again).on
            (w.turn entry.1 entry.2 running).world with ⟨_ | _, x⟩
        · simp [Act.after, ran] at later
        · rw [Gives.after ran] at later after
          exact ih after (now x ran begun) later

theorem comes_of_mem_turns (proper : again.Proper) {count : Nat} {t : JobTurn}
    (member : t ∈ turns again count w) : w.Comes t.world :=
  keeps_of_mem_turns (fun _ s comes => comes.step
    (Act.Proper.changeBus (fun _ => rfl) (fun _ => rfl) fun _ => Nat.le_refl _ :
      (changeBus ({ · with scheduler := s })).Proper))
    (fun t _ _ ran comes => comes.gives (Trait.proper.holding _ (Act.Proper.run proper t.job)) ran)
    .here member

end Act

namespace Round

/-- What holds at the beginning of a round: nothing is marked, and the events are delivered. -/
structure Begun (K : Command → Prop) (again : Reentry) (r : Round) : Prop where
  busy : r.opened.bus.Busy K
  clean : r.opened.bus.scheduler = {}
  enrolled : r.opened.Enrolled
  told : r.Delivers again

/-- How often each live query is refreshed in a round. -/
structure Exact (again : Reentry) (r : Round) : Prop where
  /-- The jobs are those of the live queries that have accepted events, in the order of the first
  acceptance. -/
  order : (r.turns again).map (fun t => (t.id, t.job)) <+: (r.accepted again).firsts
  /-- A result that is gone when its turn comes is skipped. -/
  skips : ∀ t ∈ r.turns again, ∀ result source d params, t.job = .refresh result source d params →
    (t.job.run again.call again.dispatch again.perform).on t.begun =
      if t.begun.sweep.heap.isAlive result.loc then
        (Act.holding [.collection result] (Act.refresh again.call again.dispatch result source d
          params)).on t.begun.sweep
      else (.ok (), t.begun.sweep)
  once : ∀ q base, r.opened.Attached q base → r.told.Attached q base →
    (∀ t ∈ r.turns again, t.job = q.job → t.begun.sweep.heap.isAlive q.result.loc = true) →
    (∀ t ∈ r.turns again, t.Fails again → t.job = q.job) →
    (∃ e ∈ r.batch, q.Hears e.pair) → (r.refreshes again).count q.result = 1
  never : ∀ q base, r.opened.Attached q base → r.told.Attached q base →
    (¬∃ e ∈ r.batch, q.Hears e.pair) → (r.refreshes again).count q.result = 0

namespace Begun

variable {K : Command → Prop} {again : Reentry} {r : Round}
  (made : again.Made (Scope.clean K) (Act.Settling K)) (proper : again.Proper)
  (begun : r.Begun K again)

include made begun

theorem busy_told : r.told.bus.Busy K ∧ r.told.bus.scheduler = ⟨(r.accepted again).firsts, []⟩ := by
  obtain ⟨u, delivered, same⟩ := begun.told
  have taken : r.taken.bus.Busy K :=
    ⟨⟨Queue.indexed_empty, begun.busy.orderly.listeners, begun.busy.orderly.jobs⟩,
      begun.busy.dispatching⟩
  have marked := Act.deliver_scheduler made taken delivered
  have clean : r.taken.bus.scheduler = {} := begun.clean
  have busy := Act.deliver_busy made taken delivered.leaves
  rw [same]
  refine ⟨busy, marked.trans ?_⟩
  rw [clean, Scheduler.foldl_mark]
  simp [Jobs.has, accepted]

theorem busy_flushing : r.flushing.bus.Busy K ∧
    r.flushing.bus.scheduler = ⟨[], (r.accepted again).firsts⟩ := by
  obtain ⟨busy, marked⟩ := begun.busy_told made
  refine ⟨⟨⟨busy.orderly.indexed, busy.orderly.listeners, fun e member => ?_⟩, busy.dispatching⟩, ?_⟩
  · exact busy.orderly.jobs e (List.mem_append_left _ member)
  · rw [flushing, marked, Scheduler.begin]

theorem turns_isPrefix :
    (r.turns again).map (fun t => (t.id, t.job)) <+: (r.accepted again).firsts := by
  obtain ⟨busy, same⟩ := begun.busy_flushing made
  have ordered : (r.turns again).map (fun t => (t.id, t.job)) <+: r.flushing.bus.scheduler.running :=
    Act.turns_isPrefix made busy (by rw [same])
  rwa [same] at ordered

omit made
include proper

theorem comes_told : r.opened.Comes r.taken ∧ r.taken.Comes r.told := by
  obtain ⟨u, delivered, same⟩ := begun.told
  have take : (Act.changeBus ({ · with queue := {} })).Proper :=
    .changeBus (fun _ => rfl) (fun _ => rfl) fun _ => Nat.le_refl _
  rw [same]
  exact ⟨(World.Comes.here.step take).step (.hold _),
    (World.Comes.here.gives (.deliver proper _) delivered).step (.hold r.opened.held)⟩

theorem enrolled_told : r.told.Enrolled := by
  obtain ⟨first, second⟩ := begun.comes_told proper
  exact (second.leads (first.leads begun.enrolled).1).1

/-- Jobs are accepted for live queries that hear of an event. -/
theorem exists_of_mem_accepted {x : Nat × Job} (member : x ∈ r.accepted again) :
    ∃ (q : LiveQuery) (u : World), x = (q.result.id, q.job) ∧ q.Derived ∧
      (∃ e ∈ r.batch, q.Hears e.pair) ∧ u.Live q ∧ r.opened.Later u ∧ u.Later r.told := by
  obtain ⟨u, delivered, same⟩ := begun.told
  obtain ⟨first, -⟩ := begun.comes_told proper
  obtain ⟨enrolled, before⟩ := first.leads begun.enrolled
  obtain ⟨q, x, here, derived, hears, live, after, later⟩ :=
    Act.exists_of_mem_acceptances proper enrolled delivered member
  rw [same]
  exact ⟨q, x, here, derived, hears, live, before.trans after, later.size, later.dead,
    later.listeners, later.subscriptions⟩

theorem mem_accepted_iff {q : LiveQuery} {base : Nat} (attached : r.opened.Attached q base)
    (stays : r.told.Attached q base) :
    (q.result.id, q.job) ∈ r.accepted again ↔ ∃ e ∈ r.batch, q.Hears e.pair := by
  obtain ⟨u, delivered, same⟩ := begun.told
  obtain ⟨first, second⟩ := begun.comes_told proper
  obtain ⟨enrolled, later⟩ := first.leads begun.enrolled
  obtain ⟨-, later'⟩ := second.leads enrolled
  have between := attached.between later later' stays
  rw [same] at stays
  exact Act.mem_acceptances_iff (v := u) proper enrolled between
    ⟨stays.derived, stays.listens, stays.retains⟩ delivered

include made

/-- Every turn is one of a live query. -/
theorem lists_of_mem_turns {t : JobTurn} (member : t ∈ r.turns again) :
    ∃ q : LiveQuery, r.told.bus.Lists q ∧ t.id = q.result.id ∧ t.job = q.job := by
  have among := (begun.turns_isPrefix made).subset (List.mem_map_of_mem member)
  obtain ⟨q, u, same, -, -, live, -, later⟩ :=
    begun.exists_of_mem_accepted proper (Jobs.mem_of_mem_firsts among)
  exact ⟨q, later.lists live.1, Prod.mk.inj same⟩

theorem refreshes?_eq_some {t : JobTurn} (member : t ∈ r.turns again) {result : Ref} :
    t.refreshes? = some result ↔ ∃ q : LiveQuery, r.told.bus.Lists q ∧ t.id = q.result.id ∧
      t.job = q.job ∧ q.result = result ∧ t.begun.sweep.heap.isAlive result.loc = true := by
  constructor
  · intro refreshed
    obtain ⟨q, lists, id, job⟩ := begun.lists_of_mem_turns made proper member
    simp only [JobTurn.refreshes?, job, LiveQuery.job, Option.ite_none_right_eq_some,
      Option.some.injEq] at refreshed
    obtain ⟨alive, rfl⟩ := refreshed
    exact ⟨q, lists, id, job, rfl, alive⟩
  · rintro ⟨q, -, -, job, rfl, alive⟩
    simp [JobTurn.refreshes?, job, LiveQuery.job, alive]

omit proper in
/-- No identity comes to its turn twice. -/
theorem nodup_turns : ((r.turns again).map JobTurn.id).Nodup := by
  have ids := (Jobs.nodup_firsts (r.accepted again)).sublist
    ((begun.turns_isPrefix made).sublist.map (·.1))
  rwa [List.map_map] at ids

/-- No result is refreshed twice. -/
theorem nodup_refreshes : (r.refreshes again).Nodup := by
  have ids := begun.nodup_turns made
  rw [List.Nodup, List.pairwise_map] at ids
  refine List.pairwise_filterMap.mpr (ids.imp_of_mem fun {t t'} member member' differ => ?_)
  rintro result here _ there rfl
  obtain ⟨q, -, id, -, rfl, -⟩ := (begun.refreshes?_eq_some made proper member).mp here
  obtain ⟨q', -, id', -, same, -⟩ := (begun.refreshes?_eq_some made proper member').mp there
  exact differ (show t.id = t'.id by rw [id, id', same])

/-- A live query that hears of an event has its turn, unless another one's fails. -/
theorem exists_turn {q : LiveQuery} {base : Nat} (attached : r.opened.Attached q base)
    (stays : r.told.Attached q base) (hears : ∃ e ∈ r.batch, q.Hears e.pair)
    (first : ∀ t ∈ r.turns again, t.Fails again → t.job = q.job) :
    ∃ t ∈ r.turns again, t.id = q.result.id ∧ t.job = q.job := by
  have enrolled := begun.enrolled_told proper
  have accepted := (begun.mem_accepted_iff proper attached stays).mpr hears
  obtain ⟨job, here⟩ := Jobs.exists_mem_firsts accepted
  obtain ⟨q', u, same, -, -, live, -, later⟩ :=
    begun.exists_of_mem_accepted proper (Jobs.mem_of_mem_firsts here)
  obtain ⟨number, rfl⟩ := Prod.mk.inj same
  have one := enrolled.ranked.one q' q (later.lists live.1) stays.lists (.inl number.symm)
  obtain ⟨busy, flushes⟩ := begun.busy_flushing made
  have alone : ∀ t ∈ r.turns again, t.Fails again → (t.id, t.job) = (q.result.id, q.job) := by
    intro t member fails
    obtain ⟨q'', -, id, job⟩ := begun.lists_of_mem_turns made proper member
    have own := first t member fails
    rw [own, LiveQuery.job, LiveQuery.job, Job.refresh.injEq] at job
    rw [own, id, job.1]
  obtain ⟨t, member, entry⟩ := Act.mem_turns made busy (by rw [flushes]) (Nat.le_refl _)
    (by rw [flushes, ← one]; exact here) alone
  exact ⟨t, member, Prod.mk.inj entry⟩

theorem exact : r.Exact again where
  order := begun.turns_isPrefix made
  skips t _ result source d params job := by
    rw [job]
    exact Job.on_run_refresh again result source d params t.begun
  once q base attached stays alive first hears := by
    obtain ⟨t, member, id, job⟩ := begun.exists_turn made proper attached stays hears first
    refine List.count_eq_one_of_mem (begun.nodup_refreshes made proper)
      (List.mem_filterMap.mpr ⟨t, member, ?_⟩)
    exact (begun.refreshes?_eq_some made proper member).mpr
      ⟨q, stays.lists, id, job, rfl, alive t member job⟩
  never q base attached stays deaf := by
    refine List.count_eq_zero.mpr fun refreshed => deaf ?_
    obtain ⟨t, member, found⟩ := List.mem_filterMap.mp refreshed
    obtain ⟨q', lists, id, job, same, -⟩ := (begun.refreshes?_eq_some made proper member).mp found
    refine (begun.mem_accepted_iff proper attached stays).mp ?_
    have among := (begun.turns_isPrefix made).subset (List.mem_map_of_mem member)
    have one := (begun.enrolled_told proper).ranked.one q' q lists stays.lists (.inr (by rw [same]))
    rw [id, job, one, same] at among
    exact Jobs.mem_of_mem_firsts among

end Begun

end Round

namespace Act

variable {K : Command → Prop} {again : Reentry} {w : World} {r : Round} {count : Nat}

/-- The first round comes before those of the world that it leads to. -/
theorem rounds_cases (again : Reentry) (count : Nat) (w : World) : rounds again (count + 1) w = [] ∨
    ∃ r : Round, r.opened = w ∧ w.bus.queue.isEmpty = false ∧ r.Delivers again ∧
      (rounds again (count + 1) w = [r] ∨
        ∃ v, (flush again.call again.dispatch again.perform).Gives r.told () v ∧
          rounds again (count + 1) w = r :: rounds again count v) := by
  rw [rounds]
  dsimp only
  split
  · exact .inl rfl
  · next some =>
    unfold Act.after
    split
    · next told delivered =>
      refine .inr ⟨⟨w, told⟩, rfl, Bool.eq_false_iff.mpr some, gives_holding.mp delivered, ?_⟩
      dsimp only
      split
      · next v flushed => exact .inr ⟨v, flushed, rfl⟩
      · exact .inl rfl
    · exact .inl rfl

theorem begun_of_mem_rounds (made : again.Made (Scope.clean K) (Settling K))
    (proper : again.Proper) (busy : w.bus.Busy K) (clean : w.bus.scheduler = {})
    (enrolled : w.Enrolled) (member : r ∈ rounds again count w) :
    r.Begun K again ∧ w.Comes r.opened := by
  suffices ∀ u : World, u.Comes w → r.Begun K again ∧ u.Comes r.opened from this w .here
  intro u comes
  induction count generalizing w with
  | zero => cases member
  | succ count ih =>
    rcases rounds_cases again count w with none | ⟨s, rfl, -, told, last | ⟨v, flushed, more⟩⟩
    · rw [none] at member
      cases member
    · rw [last, List.mem_singleton] at member
      exact member ▸ ⟨⟨busy, clean, enrolled, told⟩, comes⟩
    · have begun : s.Begun K again := ⟨busy, clean, enrolled, told⟩
      rw [more, List.mem_cons] at member
      rcases member with rfl | later
      · exact ⟨begun, comes⟩
      · obtain ⟨busy', settled⟩ := flush_busy made (begun.busy_told made).1 flushed nofun
        obtain ⟨first, second⟩ := begun.comes_told proper
        have flushes := World.Comes.here.gives (Proper.flush proper) flushed
        exact ih busy' (settled rfl) (flushes.leads (begun.enrolled_told proper)).1 later
          (((comes.trans first).trans second).trans flushes)

end Act

/-- The world with its bus open, in which the cycles of a dispatch begin. -/
def World.opened (w : World) : World := { w with bus := { w.bus with dispatching := true } }

namespace Engine

variable {K : Command → Prop}

/-- The worlds that come about when programs that leave registrations alone run one after the other,
each until it ends. -/
inductive Runs (E : Engine (Scope.clean K)) : World → Prop
  | start {setup : Setup} {w : World} (started : World.start setup = .ok w) : Runs E w
  | step {α : Type} {act : Act α} {w v : World} (runs : Runs E w)
    (made : act.Made (Scope.clean K) E.Dispatches) (proper : act.Proper) (leaves : act.Leaves w v) :
    Runs E v

/-- The worlds in which an idle bus begins to dispatch: after events have been queued, or after the
body of a batch has ended. -/
inductive Begins (E : Engine (Scope.clean K)) : World → Prop
  | publish {w u : World} {es : List Event} (runs : E.Runs w)
    (gives : (Act.enqueueAll es).Gives w () u) : Begins E u
  | batch {α : Type} {body : Act α} {w u : World} (runs : E.Runs w)
    (made : body.Made (Scope.clean K) E.Dispatches) (proper : body.Proper)
    (leaves : body.Leaves w.opened u) :
    Begins E { u with bus := { u.bus with dispatching := false } }

variable {E : Engine (Scope.clean K)} {u w : World}

/-- A command from outside that ends leads from one such world to another. -/
theorem Runs.next {closed : (Scope.clean K).Closed} (runs : (standard closed).Runs w) {c : Command}
    (may : K c) : (standard closed).Runs (w.next c) := by
  unfold World.next
  cases performs : w.perform c with
  | none => exact runs
  | some result =>
    have made := ((standard closed).made_dispatches 20000).perform c may
    rw [within_standard] at made
    exact runs.step made ((Reentry.proper_within 20000).perform c trivial)
      (World.leaves_of_perform performs)

theorem Runs.play {closed : (Scope.clean K).Closed} (runs : (standard closed).Runs w)
    {cs : List Command} (may : ∀ c ∈ cs, K c) : (standard closed).Runs (w.play cs) := by
  induction cs generalizing w with
  | nil => exact runs
  | cons c cs ih =>
    obtain ⟨first, others⟩ := List.forall_mem_cons.mp may
    exact ih (runs.next first) others

theorem Runs.name (runs : E.Runs w) (name : String) (v : Value) :
    E.Runs ((Act.bindName name v).on w).2 := by
  have has : ∀ C : Conduct, C.Has (Act.bindName name v) := fun _ =>
    Act.has_changeDesk (fun _ => rfl) fun _ => rfl
  exact runs.step (has (.made _ _)) (has .proper) (Act.leaves_self nofun)

theorem Runs.live (runs : E.Runs w) (proper : E.Proper) {depth : Nat} {source result : Ref}
    {text : String} {params : List Value} (gives : (Act.live (E.within depth).call
      (E.within depth).dispatch source text params).Gives w result u) : E.Runs u := by
  have made := (E.made_dispatches depth).allows
  have within := proper.within depth
  exact runs.step (Act.has_live made.dispatch made.call source text params)
    (Act.has_live (C := .proper) within.dispatch within.call source text params) gives.leaves

theorem Runs.visits (runs : E.Runs w) : E.Visits w := by
  induction runs with
  | start started => exact .start started
  | step _ made _ leaves ih => exact ih.step made leaves

theorem Runs.enrolled (runs : E.Runs w) : w.Enrolled := by
  induction runs with
  | start started => exact World.enrolled_start started
  | step _ _ proper leaves ih =>
    obtain ⟨r, outcome, -⟩ := leaves
    have leads := proper _ ih
    rw [outcome] at leads
    exact leads.1

theorem Begins.orderly (begins : E.Begins u) :
    u.bus.Orderly K ∧ u.bus.dispatching = false ∧ u.bus.scheduler = {} := by
  cases begins with
  | publish runs gives =>
    obtain ⟨orderly, idle, quiet⟩ := runs.visits.orderly
    obtain ⟨v, queued, fills⟩ := Act.enqueueAll_fills orderly _
    obtain ⟨-, rfl⟩ := gives.unique queued
    exact ⟨fills.orderly, fills.dispatching.trans idle, fills.scheduler.trans quiet.scheduler⟩
  | @batch _ body w v runs made proper leaves =>
    obtain ⟨orderly, idle, quiet⟩ := runs.visits.orderly
    have settles : ∀ d, E.Dispatches d → Act.Settling K d := fun d ⟨depth, same⟩ =>
      same ▸ (E.made_within depth).dispatch
    obtain ⟨busy, scheduler⟩ := Act.Made.busy (made.mono settles)
      (w := w.opened) ⟨⟨orderly.indexed, orderly.listeners, orderly.jobs⟩, rfl⟩ leaves
    exact ⟨⟨busy.orderly.indexed, busy.orderly.listeners, busy.orderly.jobs⟩, rfl,
      scheduler.trans quiet.scheduler⟩

theorem Begins.enrolled (begins : E.Begins u) : u.Enrolled := by
  cases begins with
  | publish runs gives =>
    exact (World.Comes.here.gives (Act.Proper.enqueueAll _) gives |>.leads runs.enrolled).1
  | @batch _ body w v runs made proper leaves =>
    obtain ⟨r, outcome, -⟩ := leaves
    have opens : w.Comes w.opened := World.Comes.here.step (Act.Proper.flag true)
    have comes := opens.step proper
    rw [outcome] at comes
    exact ((comes.step (Act.Proper.flag false)).leads runs.enrolled).1

theorem Begins.begun (begins : E.Begins u) (proper : E.Proper) {depth : Nat} {r : Round}
    (member : r ∈ Act.rounds (E.within depth) u.bus.ceiling u.opened) :
    r.Begun K (E.within depth) ∧ u.Comes r.opened := by
  obtain ⟨orderly, -, clean⟩ := begins.orderly
  have opened : u.Comes u.opened := World.Comes.here.step (Act.Proper.flag true)
  obtain ⟨begun, comes⟩ := Act.begun_of_mem_rounds (E.made_within depth) (proper.within depth)
    (w := u.opened) ⟨⟨orderly.indexed, orderly.listeners, orderly.jobs⟩, rfl⟩ clean
    (opened.leads begins.enrolled).1 member
  exact ⟨begun, opened.trans comes⟩

end Engine

namespace Watched

def engine : Engine (Scope.clean Command.Clean) := .standard Command.closed_clean

theorem runs_source : engine.Runs source :=
  (Engine.Runs.start started).play (Command.allClean_iff.mp ⟨trivial, trivial, trivial⟩)

theorem runs_named : engine.Runs named :=
  (runs_source.live (Engine.proper_standard Command.closed_clean)
    (show (Act.live (engine.within 8).call (engine.within 8).dispatch ⟨1, 2⟩ "known" []).Gives source
      ⟨2, 3⟩ _ from gives_watch)).name "a" _

/-- The record is put into the collection once more. -/
def put : Act Unit := Act.changeHeap (·.setItems ⟨1, 2⟩ [.record ⟨0, 1⟩, .record ⟨0, 1⟩])

/-- This is about to be dispatched. -/
def push : Act Unit := Act.enqueueAll (changeEvents 2 1 2)

def filled : World := (put.on named).2

def pushed : World := (push.on filled).2

theorem proper_put : put.Proper := Act.Proper.setItems _ _

theorem comes_pushed : (watch.on source).2.Comes pushed :=
  (comes_named.step proper_put).step (Act.Proper.enqueueAll (changeEvents 2 1 2))

theorem gives_push : push.Gives filled () pushed := Act.gives_of_toOption (by decide +kernel)

theorem begins_pushed : engine.Begins pushed := by
  have made : put.Made (Scope.clean Command.Clean) engine.Dispatches := .of_bus fun _ => rfl
  have runs : engine.Runs filled := runs_named.step made proper_put (Act.leaves_self nofun)
  exact .publish runs gives_push

/-- The rounds of the dispatch. -/
def rounds : List Round := Act.rounds (engine.within 8) pushed.bus.ceiling pushed.opened

def round : Round := rounds.headD ⟨pushed, pushed⟩

/-- In the first round the result is told of and keeps its subscriptions, and every turn ends. -/
theorem course : rounds.isEmpty = false ∧ round.opened.heap.subscriptions 2 ≠ [] ∧
    round.told.heap.subscriptions 2 ≠ [] ∧ (∃ e ∈ round.batch, e.pair = (2, .content)) ∧
    ∀ t ∈ round.turns (engine.within 8), t.begun.sweep.heap.isAlive 2 = true ∧
      ((t.act (engine.within 8)).on t.world).1.toOption = some () := by
  decide +kernel

end Watched

end ReactiveQuery
