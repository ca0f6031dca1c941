import ReactiveQuery.Proofs.Frame.Footprint

/-! A dispatch within its footprint.  Callbacks that mutate nothing and refreshes that call nothing
keep to the items of live results, in whatever order cycles run and however they end. -/

namespace ReactiveQuery

variable {S : Slot → Prop} {L : Prop} {w : World}

/-- A job that writes, with a query that calls nothing, a result that may be written. -/
def Job.Renews (S : Slot → Prop) (job : Job) : Prop :=
  ∃ q : LiveQuery, job = q.job ∧ q.definition.functions = [] ∧ S (.items q.result.loc)

/-- A listener that does one of some commands, or marks a job that may be run. -/
inductive Listener.Docile (S : Slot → Prop) (K : Command → Prop) : Listener → Prop
  | script {name : String} {members : Option Ref} {actions : List Command}
    (keeps : ∀ c ∈ actions, K c) : Docile S K (.script name members actions)
  | invalidate {id : Nat} {route : Route} {job : Job} (renews : job.Renews S) :
    Docile S K (.invalidate id route job)

/-- A world that has kept within the footprint, and whose waiting jobs will. -/
structure World.Calm (S : Slot → Prop) (L : Prop) (w u : World) : Prop extends
    w.Remains S L u where
  jobs : ∀ e ∈ u.bus.scheduler.marked ++ u.bus.scheduler.running, e.2.Renews S

/-- Whatever comes of it, the activity keeps within the footprint. -/
def Act.Framed (S : Slot → Prop) (L : Prop) (w : World) {α : Type} (act : Act α) : Prop :=
  ∀ u, w.Calm S L u → w.Calm S L (act.on u).2 ∧ (act.on u).2.held = u.held

namespace World.Calm

variable {u v : World}

theorem of_scheduler (calm : w.Calm S L u) (remains : w.Remains S L v)
    (scheduler : v.bus.scheduler = u.bus.scheduler) : w.Calm S L v :=
  ⟨remains, scheduler ▸ calm.jobs⟩

theorem hold (calm : w.Calm S L u) (enrolled : w.Enrolled) {held : List Value}
    (more : w.held <:+ held) : w.Calm S L { u with held } :=
  calm.of_scheduler (calm.toRemains.hold enrolled more) rfl

/-- Jobs may come that may be run. -/
theorem reschedule (calm : w.Calm S L u) (enrolled : w.Enrolled) {scheduler : Scheduler Job}
    (jobs : ∀ e ∈ scheduler.marked ++ scheduler.running, e.2.Renews S) :
    w.Calm S L { u with bus := { u.bus with scheduler } } :=
  ⟨calm.toRemains.withBus enrolled rfl rfl (Nat.le_refl _), jobs⟩

end World.Calm

/-- What keeps within the footprint, as a trait. -/
def Trait.framed (S : Slot → Prop) (L : Prop) {w : World} (enrolled : w.Enrolled) : Trait where
  Has := Act.Framed S L w
  still still u calm := ⟨calm.of_scheduler (calm.toRemains.still enrolled (still u))
    (by rw [(still u).bus]), (still u).held⟩
  bind {_ _ x _} first rest u calm := by
    obtain ⟨between, held⟩ := first u calm
    rw [Act.on_bind]
    rcases outcome : x.on u with ⟨_ | a, v⟩ <;> rw [outcome] at between held
    · exact ⟨between, held⟩
    · obtain ⟨after, held'⟩ := rest a v between
      exact ⟨after, held'.trans held⟩
  holding {_ x} values framed u calm := by
    have more : w.held <:+ values ++ u.held := calm.held.trans (List.suffix_append _ _)
    obtain ⟨after, -⟩ := framed { u with held := values ++ u.held } (calm.hold enrolled more)
    exact ⟨after.hold enrolled calm.held, rfl⟩
  attempt {_ x} framed u calm := by
    have inner := framed u calm
    rw [Act.on_attempt]
    rcases outcome : x.on u with ⟨(_ | _) | _, _⟩ <;> rw [outcome] at inner <;> exact inner
  settle u calm := ⟨calm.of_scheduler (calm.toRemains.sweep enrolled) (World.waiting_sweep u).2,
    by rw [Act.settle, Act.on_modify, World.same_sweep]⟩

namespace Act.Framed

section
variable (enrolled : w.Enrolled)
include enrolled

theorem withBus {change : Bus → Bus} (registry : ∀ b, (change b).registry = b.registry)
    (listeners : ∀ b, (change b).listeners = b.listeners)
    (nextId : ∀ b, b.nextId ≤ (change b).nextId)
    (scheduler : ∀ b, (change b).scheduler = b.scheduler) :
    (Trait.framed S L enrolled).Has (Act.changeBus change) := fun _ calm =>
  ⟨calm.of_scheduler (calm.toRemains.withBus enrolled (registry _) (listeners _) (nextId _))
    (scheduler _), rfl⟩

theorem nextId : (Trait.framed S L enrolled).Has Act.nextId := fun _ calm =>
  ⟨calm.of_scheduler (calm.toRemains.withBus enrolled rfl rfl (Nat.le_succ _)) rfl, rfl⟩

theorem definition (text : String) :
    (Trait.framed S L enrolled).Has (Act.definition text) := fun u calm => by
  have remains := calm.toRemains.definition enrolled text
  obtain ⟨heap, parsers, cache, patterns, same, -⟩ := u.after_definition text
  rw [same] at remains ⊢
  exact ⟨calm.of_scheduler remains rfl, rfl⟩

theorem setField {r : Ref} {key : String} (may : S (.field r.loc key)) (value : Value) :
    (Trait.framed S L enrolled).Has (Act.changeHeap (·.setField r key value)) := fun _ calm =>
  ⟨calm.of_scheduler (calm.toRemains.setField enrolled may value) rfl, rfl⟩

theorem setItems {r : Ref} (may : S (.items r.loc)) (items : List Value) :
    (Trait.framed S L enrolled).Has (Act.changeHeap (·.setItems r items)) := fun _ calm =>
  ⟨calm.of_scheduler (calm.toRemains.setItems enrolled may items) rfl, rfl⟩

theorem log (entry : LogEntry) : (Trait.framed S L enrolled).Has (Act.log entry) :=
  fun _ calm => ⟨calm.of_scheduler (calm.toRemains.grow enrolled (.refl _) rfl rfl (Nat.le_refl _)
    rfl calm.held rfl rfl fun _ free => free.of_same rfl rfl) rfl, rfl⟩

theorem newCollection (items : List Value) :
    (Trait.framed S L enrolled).Has (Act.newCollection items) :=
  .bind (nextId enrolled) fun _ => .onHeap fun h => .allocate h _ rfl

theorem enqueueAll (es : List Event) :
    (Trait.framed S L enrolled).Has (Act.enqueueAll es) := by
  have arrive : ∀ e : Event, (Trait.framed S L enrolled).Has (Act.changeBus fun b =>
      if e.new.strictEq e.old || !b.registry.hasListeners e.target e.key then b
      else { b with queue := b.queue.enqueue e }) := fun e => by
    refine withBus enrolled (fun b => ?_) (fun b => ?_) (fun b => ?_) fun b => ?_
    · split <;> rfl
    · split <;> rfl
    · split <;> exact Nat.le_refl _
    · split <;> rfl
  induction es with
  | nil => exact .ret ()
  | cons e es ih => exact .bind (.holding (.bind .settle fun _ => arrive e)) fun _ => ih

section
variable {dispatch : Act Unit} (framed : (Trait.framed S L enrolled).Has dispatch)
include framed

theorem report (sink : Sink) (es : List Event) :
    (Trait.framed S L enrolled).Has (Act.report dispatch sink es) := by
  unfold Act.report
  split
  · exact .ret ()
  · exact .bind (enqueueAll enrolled _) fun _ => framed
  · exact .forM (fun _ => log enrolled _) _
  · exact .ret ()
  · exact .bind (log enrolled _) fun _ => .raise _

theorem write {r : Ref} {key : String} (may : S (.field r.loc key)) (value : Value) :
    (Trait.framed S L enrolled).Has (r.setField dispatch key value) := by
  refine .bind .world fun u => ?_
  split
  · split
    · exact .raise _
    · exact .ite (.ret _) (.bind (setField enrolled may value) fun _ => report enrolled framed _ _)
  · exact .ret ()

theorem change {r : Ref} (may : S (.items r.loc)) (f : ItemChange) :
    (Trait.framed S L enrolled).Has (r.change dispatch f) := by
  refine .bind .world fun u => ?_
  split
  · exact .bind (.ofExcept _) fun _ => .bind (setItems enrolled may _) fun _ =>
      .bind (.holding (report enrolled framed _ _)) fun _ => .ret _
  · exact .ret _

theorem batch {α : Type} {body : Act α} (inner : (Trait.framed S L enrolled).Has body) :
    (Trait.framed S L enrolled).Has (Act.batch dispatch body) := by
  have flag : ∀ dispatching, (Trait.framed S L enrolled).Has
      (Act.changeBus fun b => { b with dispatching }) := fun _ =>
    withBus enrolled (fun _ => rfl) (fun _ => rfl) (fun _ => Nat.le_refl _) fun _ => rfl
  refine .bind .world fun u => ?_
  split
  · exact inner
  · exact .bind (flag true) fun _ => .bind (.attempt inner) fun result => .bind (flag false) fun _ =>
      .bind framed fun _ => .ofExcept result

/-- A refresh whose query calls nothing writes its result. -/
theorem refresh {result : Ref} (may : S (.items result.loc)) {d : Definition}
    (calls : d.functions = []) (call : Caller) (source : Ref) (params : List Value) :
    (Trait.framed S L enrolled).Has (Act.refresh call dispatch result source d params) :=
  .bind .world fun _ => .holding (.bind (d.has_execute _ (calls ▸ Trait.Calls.nil) _) fun _ =>
    .bind (change enrolled framed may _) fun _ => .ret ())

end

variable {again : Reentry} {K : Command → Prop}
  (performs : ∀ c, K c → (Trait.framed S L enrolled).Has (again.perform c))
include performs

theorem hear (e : Event) {l : Listener} (docile : l.Docile S K) :
    (Trait.framed S L enrolled).Has (l.hear again.perform e) := by
  cases docile with
  | script keeps => exact has_hear_script performs (fun _ _ => log enrolled _) e _ _ keeps
  | @invalidate id route job renews =>
    refine .ite (fun u calm => ⟨calm.reschedule enrolled fun entry member => ?_, rfl⟩) (.ret _)
    unfold Scheduler.mark at member
    split at member
    · exact calm.jobs entry member
    · simp only [List.append_assoc, List.singleton_append] at member
      rcases List.mem_append.mp member with marked | later
      · exact calm.jobs entry (List.mem_append_left _ marked)
      · rcases List.mem_cons.mp later with rfl | running
        · exact renews
        · exact calm.jobs entry (List.mem_append_right _ running)

theorem tell (e : Event) {ls : List Listener} (docile : ∀ l ∈ ls, l.Docile S K) :
    (Trait.framed S L enrolled).Has (Act.tell again.perform e ls) := by
  induction ls with
  | nil => exact .ret ()
  | cons l ls ih =>
    obtain ⟨first, others⟩ := List.forall_mem_cons.mp docile
    exact .bind (.holding (hear enrolled performs e first)) fun _ => ih others

end

end Act.Framed

/-- Listeners that are registered do what keeps within the footprint, and what comes about may be
written. -/
structure World.Guarded (S : Slot → Prop) (K : Command → Prop) (w : World) : Prop where
  enrolled : w.Enrolled
  new : ∀ s : Slot, w.heap.cells.size ≤ s.loc → S s
  docile : ∀ t, ∀ n ∈ w.bus.registry.on t, ∀ l, w.bus.listeners[n]? = some l → l.Docile S K

/-- Whoever listens later is docile, too. -/
theorem World.Remains.docile {u : World} {K : Command → Prop} (remains : w.Remains S L u)
    (guarded : w.Guarded S K) {t : Topic} {n : Nat} (on : n ∈ u.bus.registry.on t) {l : Listener}
    (listens : u.bus.listeners[n]? = some l) : l.Docile S K := by
  rcases Nat.lt_or_ge n w.bus.listeners.size with inside | outside
  · obtain ⟨old, new, both, sublist, high⟩ := remains.on t
    have among : n ∈ old := by
      rw [both] at on
      exact (List.mem_append.mp on).resolve_right fun fresh =>
        absurd inside (Nat.not_lt.mpr (high n fresh))
    have here := Array.getElem?_eq_getElem inside
    have same := remains.later.listeners n _ here
    rw [listens] at same
    exact guarded.docile t n (sublist.subset among) l (here.trans same.symm)
  · obtain ⟨-, q, route, rfl, high, calls⟩ := remains.made n l listens outside
    exact .invalidate ⟨q, rfl, calls, guarded.new (.items q.result.loc) high⟩

namespace Act.Framed

section
variable {again : Reentry} {K : Command → Prop} (guarded : w.Guarded S K)
  (performs : ∀ c, K c → (Trait.framed S L guarded.enrolled).Has (again.perform c))

section
include performs

/-- Events are delivered to whoever is registered when their turn comes. -/
theorem deliver (es : List Event) :
    (Trait.framed S L guarded.enrolled).Has (Act.deliver again.perform es) := by
  induction es with
  | nil => exact .ret ()
  | cons e es ih =>
    intro u calm
    obtain ⟨swept, held⟩ := (Trait.framed S L guarded.enrolled).settle u calm
    have docile : ∀ l ∈ (u.sweep.bus.registry.reached e.target e.key).filterMap
        (u.sweep.bus.listeners[·]?), l.Docile S K := fun l member => by
      obtain ⟨n, reached, listens⟩ := List.mem_filterMap.mp member
      obtain ⟨t, -, on⟩ := List.mem_flatMap.mp reached
      exact swept.toRemains.docile guarded on listens
    have rest : (Trait.framed S L guarded.enrolled).Has (do
        Act.tell again.perform e
          ((u.sweep.bus.registry.reached e.target e.key).filterMap (u.sweep.bus.listeners[·]?))
        Act.deliver again.perform es) :=
      .bind (tell guarded.enrolled performs e docile) fun _ => ih
    obtain ⟨after, held'⟩ := rest u.sweep swept
    exact ⟨after, held'.trans held⟩

end

section
variable (framed : (Trait.framed S L guarded.enrolled).Has again.dispatch)
include framed

theorem run {job : Job} (renews : job.Renews S) : (Trait.framed S L guarded.enrolled).Has
    (job.run again.call again.dispatch again.perform) := by
  obtain ⟨q, rfl, calls, may⟩ := renews
  exact .bind (has_isAlive _) fun _ => .ite
    (.holding (refresh guarded.enrolled framed may calls _ _ _)) (.ret _)

/-- The jobs of a flush write their own results, whether or not one of them fails. -/
theorem drain (count : Nat) : (Trait.framed S L guarded.enrolled).Has
    (Act.drain again.call again.dispatch again.perform count) := by
  have abandons : (Trait.framed S L guarded.enrolled).Has
      (Act.changeBus fun b => { b with scheduler := b.scheduler.abandon }) := fun u calm =>
    ⟨calm.reschedule guarded.enrolled fun e member =>
      calm.jobs e (List.mem_append_left _ (by simpa [Scheduler.abandon] using member)), rfl⟩
  induction count with
  | zero => exact .bind .world fun _ => .ite (.ret _) (.fault _)
  | succ count ih =>
    intro u calm
    rw [Act.drain, on_bind_ok (on_get u)]
    rcases running : u.bus.scheduler.running with _ | ⟨⟨id, job⟩, rest⟩
    · simp only [Scheduler.next?, running]
      exact ⟨calm, rfl⟩
    · simp only [Scheduler.next?, running]
      have waits := calm.jobs
      rw [running] at waits
      have taken : w.Calm S L { u with bus := { u.bus with
          scheduler := { u.bus.scheduler with running := rest } } } :=
        calm.reschedule guarded.enrolled fun e member => waits e (by
          rcases List.mem_append.mp member with marked | later
          · exact List.mem_append_left _ marked
          · exact List.mem_append_right _ (List.mem_cons_of_mem _ later))
      have renews := waits ⟨id, job⟩ (List.mem_append_right _ List.mem_cons_self)
      rw [on_bind_ok (on_changeBus ..)]
      have ran : (Trait.framed S L guarded.enrolled).Has (Act.attempt (Act.holding job.values
          (job.run again.call again.dispatch again.perform))) :=
        .attempt (.holding (run guarded framed renews))
      refine (Trait.Has.bind ran fun result => ?_ : (Trait.framed S L guarded.enrolled).Has _) _ taken
      cases result with
      | ok _ => exact ih
      | error e => exact .bind abandons fun _ => .raise e

theorem flush : (Trait.framed S L guarded.enrolled).Has
    (Act.flush again.call again.dispatch again.perform) := by
  have begins : (Trait.framed S L guarded.enrolled).Has
      (Act.changeBus fun b => { b with scheduler := b.scheduler.begin }) := fun u calm =>
    ⟨calm.reschedule guarded.enrolled fun e member =>
      calm.jobs e (List.mem_append_left _ (by simpa [Scheduler.begin] using member)), rfl⟩
  exact .bind begins fun _ => .bind .world fun _ => drain guarded framed _

include performs

/-- Cycles keep within the footprint, however many there are. -/
theorem cycles (count : Nat) : (Trait.framed S L guarded.enrolled).Has
    (Act.cycles again.call again.dispatch again.perform count) := by
  have taken : (Trait.framed S L guarded.enrolled).Has
      (Act.changeBus ({ · with queue := {} })) :=
    withBus guarded.enrolled (fun _ => rfl) (fun _ => rfl) (fun _ => Nat.le_refl _) fun _ => rfl
  induction count with
  | zero => exact .bind .world fun _ => .ite (.ret _) (.raise _)
  | succ count ih =>
    refine .bind .world fun u => ?_
    exact .ite (.ret _) (.bind taken fun _ =>
      .bind (.holding (deliver guarded performs _)) fun _ =>
        .bind (flush guarded framed) fun _ => ih)

theorem dispatchIfIdle : (Trait.framed S L guarded.enrolled).Has
    (Act.dispatchIfIdle again.call again.dispatch again.perform) := by
  have flag : ∀ dispatching, (Trait.framed S L guarded.enrolled).Has
      (Act.changeBus fun b => { b with dispatching }) := fun _ =>
    withBus guarded.enrolled (fun _ => rfl) (fun _ => rfl) (fun _ => Nat.le_refl _) fun _ => rfl
  have emptied : (Trait.framed S L guarded.enrolled).Has
      (Act.changeBus ({ · with queue := {}, scheduler := {} })) := fun u calm =>
    ⟨⟨calm.toRemains.withBus guarded.enrolled rfl rfl (Nat.le_refl _), nofun⟩, rfl⟩
  refine .bind .world fun u => .ite (.ret _) (.bind (flag true) fun _ =>
    .bind (.attempt (cycles guarded performs framed _)) fun result => .bind (flag false) fun _ => ?_)
  cases result with
  | ok _ => exact .ret _
  | error e => exact .bind emptied fun _ => .raise e

end

end

end Act.Framed

end ReactiveQuery
