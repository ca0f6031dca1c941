import ReactiveQuery.Proofs.Bus.Delivery
import ReactiveQuery.Proofs.Live.Proper

/-! The course of a live query.  It begins with an attachment, and from then on the result keeps the
registrations that came with it or none at all. -/

namespace ReactiveQuery

/-- A job refreshes its result if that is alive. -/
theorem Job.on_run_refresh (again : Reentry) (result source : Ref) (d : Definition)
    (params : List Value) (w : World) :
    ((Job.refresh result source d params).run again.call again.dispatch again.perform).on w =
      if w.sweep.heap.isAlive result.loc then
        (Act.holding [.collection result] (Act.refresh again.call again.dispatch result source d
          params)).on w.sweep
      else (.ok (), w.sweep) := by
  have asked : (Act.isAlive result).on w = (.ok (w.sweep.heap.isAlive result.loc), w.sweep) := rfl
  rw [Job.run, Act.on_bind_ok asked]
  split <;> rfl

namespace World

/-- The second world comes about as proper activities run one after the other, whole or in part. -/
inductive Comes (w : World) : World → Prop
  | here : Comes w w
  | step {α : Type} {act : Act α} {v : World} (comes : Comes w v) (proper : act.Proper) :
    Comes w (act.on v).2

variable {u v w : World}

theorem Comes.trans (first : u.Comes v) (second : v.Comes w) : u.Comes w := by
  induction second with
  | here => exact first
  | step _ proper ih => exact ih.step proper

theorem Comes.leads (comes : w.Comes v) : w.Leads v := by
  induction comes with
  | here => exact .refl w
  | step _ proper ih => exact ih.trans (proper _)

theorem Comes.gives {α : Type} {act : Act α} {a : α} (comes : w.Comes u) (proper : act.Proper)
    (gives : act.Gives u a v) : w.Comes v := by
  have step := comes.step proper
  rwa [gives.on] at step

theorem Comes.sweep (comes : w.Comes v) : w.Comes v.sweep :=
  comes.gives Trait.proper.settle (show Act.settle.Gives v () v.sweep from rfl)

theorem enrolled_start {setup : Setup} (started : World.start setup = .ok w) : w.Enrolled := by
  obtain ⟨known, serial, rfl⟩ := World.start_same started
  have unlisted : ∀ (b : Bus), b.listeners = #[] → ∀ q, ¬b.Lists q := by
    rintro b none q ⟨n, route, listens⟩
    simp [none] at listens
  exact {
    tidy := Registry.tidy_empty
    known := by simp [Registry.on]
    ordered := fun _ => .nil
    ranked := ⟨by simp, fun q listed => absurd listed (unlisted _ rfl q),
      fun q _ listed => absurd listed (unlisted _ rfl q)⟩
    registered := fun t n loc here => by simp [Bus.place?] at here
    owned := by simp [Heap.subscriptions, Heap.cell?]
    follows := by simp
    sinks := fun q listed => absurd listed (unlisted _ rfl q)
    desk := by simp [Desk.numbers, FieldMap.values] }

end World

namespace Engine

variable {S : Scope}

/-- Callbacks and extension functions that leave the registrations of live queries alone. -/
structure Proper (E : Engine S) : Prop where
  call : ∀ {again}, again.Proper → ∀ e ctx args, (E.call again e ctx args).Proper
  perform : ∀ {again}, again.Proper → ∀ c, (E.perform again c).Proper

theorem Proper.within {E : Engine S} (proper : E.Proper) (depth : Nat) :
    (E.within depth).Proper := by
  induction depth with
  | zero =>
    exact ⟨fun _ _ _ => Trait.Has.fault (T := .proper) _, Trait.Has.fault (T := .proper) _,
      fun _ _ => Trait.Has.fault (T := .proper) _⟩
  | succ depth ih =>
    exact ⟨proper.call ih, Act.Proper.dispatchIfIdle ih, fun c _ => proper.perform ih c⟩

/-- All commands and all extension functions there are do so. -/
theorem proper_standard (closed : S.Closed) : (standard closed).Proper where
  call proper := Extension.has_invoke (C := .proper) proper.call proper.dispatch
  perform proper c :=
    Command.has_perform (C := .proper) Scope.closed_any proper c trivial

end Engine

theorem Reentry.proper_within (depth : Nat) : (Reentry.within depth).Proper := by
  rw [← Engine.within_standard Scope.closed_any]
  exact (Engine.proper_standard Scope.closed_any).within depth

namespace World

variable {u w : World}

/-- A command from outside is one step, if it ends. -/
theorem Comes.next (comes : u.Comes w) (c : Command) : u.Comes (w.next c) := by
  have step : u.Comes ((Reentry.deepest.perform c).on w).2 :=
    comes.step ((Reentry.proper_within _).perform c trivial)
  unfold World.next World.perform
  unfold Act.on at step
  rcases outcome : (Reentry.deepest.perform c).run.run w with ⟨(_ | _) | _, _⟩ <;>
    rw [outcome] at step
  · exact step
  · exact comes
  · exact step

theorem Comes.play (comes : u.Comes w) (cs : List Command) : u.Comes (w.play cs) := by
  induction cs generalizing w with
  | nil => exact comes
  | cons c cs ih => exact ih (comes.next c)

end World

/-- The listeners on a topic. -/
def Bus.listenersOn (b : Bus) (t : Topic) : List Listener :=
  (b.registry.on t).filterMap (b.listeners[·]?)

theorem Bus.hearers_eq (b : Bus) (e : Event) :
    b.hearers e = (Event.topics e.target e.key).flatMap b.listenersOn :=
  List.filterMap_flatMap

/-- The query hears of an event through a topic. -/
def LiveQuery.HearsOn (q : LiveQuery) (call : Topic × Event) : Prop :=
  ∃ d ∈ q.dependencies, d.topic = call.1 ∧ (q.route d).accepts call.2 = true

theorem LiveQuery.hears_iff {q : LiveQuery} {e : Event} :
    q.Hears e.pair ↔ ∃ t ∈ Event.topics e.target e.key, q.HearsOn (t, e) := by
  unfold Hears HearsOn
  simp only [← Route.accepts_pair]
  constructor
  · rintro ⟨d, inside, topic, accepts⟩
    exact ⟨d.topic, topic, d, inside, rfl, accepts⟩
  · rintro ⟨_, topic, d, inside, rfl, accepts⟩
    exact ⟨d, inside, topic, accepts⟩

/-- Where in the registry the listeners of a live query have been put, and what it still keeps of
that. -/
structure World.Attached (w : World) (q : LiveQuery) (base : Nat) : Prop where
  derived : q.Derived
  listens : ∀ d : Dependency, w.bus.listeners[d.listener base]? =
    some (.invalidate q.result.id (q.route d) q.job)
  retains : ∀ s, s ∈ w.heap.subscriptions q.result.loc ↔ s ∈ q.subscriptions base

theorem LiveQuery.Derived.source {q : LiveQuery} (derived : q.Derived) :
    .source ⟨some q.source.id, some .content⟩ ∈ q.dependencies := by
  obtain ⟨h, all⟩ := derived
  simp only [Dependency.all, Option.bind_eq_bind, Option.bind_eq_some_iff, pure,
    Option.some.injEq] at all
  obtain ⟨lists, -, listed⟩ := all
  rw [← listed]
  exact List.mem_cons_self

theorem LiveQuery.Derived.hears_source {q : LiveQuery} (derived : q.Derived) :
    q.Hears (q.source.id, .content) :=
  ⟨_, derived.source, by simp [Dependency.topic, Event.topics], rfl⟩

namespace World

variable {u v w : World} {q : LiveQuery} {base : Nat}

namespace Attached

theorem place? (attached : w.Attached q base) (d : Dependency) :
    w.bus.place? (d.listener base) = some q.result.loc :=
  Bus.place?_of_listeners (attached.listens d)

theorem lists (attached : w.Attached q base) : w.bus.Lists q :=
  ⟨_, _, attached.listens (.source ⟨none, none⟩)⟩

theorem subscriptions_ne_nil (attached : w.Attached q base) :
    w.heap.subscriptions q.result.loc ≠ [] := by
  have member := (attached.retains _).mpr
    (LiveQuery.mem_subscriptions.mpr ⟨_, attached.derived.source, rfl⟩)
  exact List.ne_nil_of_mem member

theorem cell? (attached : w.Attached q base) :
    ∃ c, w.heap.cell? q.result.loc = some (.collection c) := by
  obtain ⟨s, member⟩ := List.exists_mem_of_ne_nil _ attached.subscriptions_ne_nil
  obtain ⟨c, here, -⟩ := Heap.exists_of_mem_subscriptions member
  exact ⟨c, here⟩

/-- A result that still keeps something keeps what it was given. -/
theorem later (attached : w.Attached q base) (later : w.Later v)
    (keeps : v.heap.subscriptions q.result.loc ≠ []) : v.Attached q base where
  derived := attached.derived
  listens d := later.listeners _ _ (attached.listens d)
  retains s := by
    have same := (later.subscriptions _ _ (attached.place? (.source ⟨none, none⟩))).resolve_right
      keeps
    rw [same]
    exact attached.retains s

theorem between (attached : u.Attached q base) (first : u.Later v) (second : v.Later w)
    (after : w.Attached q base) : v.Attached q base := by
  refine attached.later first fun none => after.subscriptions_ne_nil ?_
  have place := (attached.later (.refl u) attached.subscriptions_ne_nil).place?
    (.source ⟨Option.none, Option.none⟩)
  rcases second.subscriptions _ _ (first.place? place) with same | none'
  · rw [same, none]
  · exact none'

variable (enrolled : w.Enrolled) (attached : w.Attached q base)
include enrolled attached

/-- Its listeners are registered for what it depends on, and no other listener of its is. -/
theorem mem_on_iff {t : Topic} {n : Nat} :
    n ∈ w.bus.registry.on t ∧ w.bus.place? n = some q.result.loc ↔
      ⟨t, n⟩ ∈ q.subscriptions base := by
  rw [← attached.retains]
  constructor
  · exact fun ⟨member, place⟩ => (enrolled.registered t n _ place).mp member
  · intro retained
    have place := enrolled.owned _ _ retained
    exact ⟨(enrolled.registered t n _ place).mpr retained, place⟩

/-- Its listeners on a topic that accept an event are those through which it hears of the event. -/
theorem mem_listenersOn_iff {t : Topic} {e : Event} :
    (∃ route, Listener.invalidate q.result.id route q.job ∈ w.bus.listenersOn t ∧
      route.accepts e = true) ↔ q.HearsOn (t, e) := by
  constructor
  · rintro ⟨route, among, accepts⟩
    obtain ⟨n, here, listens⟩ := List.mem_filterMap.mp among
    have place := Bus.place?_of_listeners listens
    obtain ⟨d, inside, same⟩ :=
      LiveQuery.mem_subscriptions.mp ((attached.mem_on_iff enrolled).mp ⟨here, place⟩)
    obtain ⟨rfl, rfl⟩ := Subscription.mk.inj same
    rw [attached.listens d, Option.some.injEq, Listener.invalidate.injEq] at listens
    exact ⟨d, inside, rfl, by rwa [listens.2.1]⟩
  · rintro ⟨d, inside, rfl, accepts⟩
    have member : ⟨d.topic, d.listener base⟩ ∈ q.subscriptions base :=
      LiveQuery.mem_subscriptions.mpr ⟨d, inside, rfl⟩
    have here := ((attached.mem_on_iff enrolled).mpr member).1
    exact ⟨q.route d, List.mem_filterMap.mpr ⟨_, here, attached.listens d⟩, accepts⟩

/-- Whoever hears of an event is among the listeners that it reaches and that accept it. -/
theorem mem_hearers_iff {e : Event} :
    (∃ route, Listener.invalidate q.result.id route q.job ∈ w.bus.hearers e ∧
      route.accepts e = true) ↔ q.Hears e.pair := by
  simp only [Bus.hearers_eq, List.mem_flatMap, LiveQuery.hears_iff,
    ← attached.mem_listenersOn_iff enrolled]
  constructor
  · rintro ⟨route, ⟨t, topic, among⟩, accepts⟩
    exact ⟨t, topic, route, among, accepts⟩
  · rintro ⟨t, topic, route, among, accepts⟩
    exact ⟨route, ⟨t, topic, among⟩, accepts⟩

end Attached

/-- Whatever an event reaches, if it accepts the event, is a live query that hears of it. -/
theorem Enrolled.exists_of_hearers (enrolled : w.Enrolled) {e : Event} {id : Nat} {route : Route}
    {job : Job} (reached : Listener.invalidate id route job ∈ w.bus.hearers e)
    (accepts : route.accepts e = true) : ∃ q : LiveQuery, q.result.id = id ∧ q.job = job ∧
      q.Derived ∧ q.Hears e.pair ∧ w.Live q := by
  obtain ⟨n, among, listens⟩ := List.mem_filterMap.mp reached
  obtain ⟨t, topic, here⟩ := List.mem_flatMap.mp among
  obtain ⟨q, d, rfl, rfl, derived, inside, rfl, rfl⟩ :=
    enrolled.follows t n id route job here listens
  refine ⟨q, rfl, rfl, derived, ⟨d, inside, topic, ?_⟩, ⟨n, _, listens⟩, ?_⟩
  · rwa [← Route.accepts_pair]
  · exact List.ne_nil_of_mem
      ((enrolled.registered _ n _ (Bus.place?_of_listeners listens)).mp here)

theorem Bare.attached {c : CollectionCell} (enrolled : w.Enrolled) (bare : w.Bare q.result c)
    (derived : q.Derived) : (w.attached q c).Attached q w.bus.listeners.size where
  derived := derived
  listens d := q.getElem?_listeners w.bus.listeners d
  retains s := by
    rw [subscriptions_attached bare.here, if_pos rfl]
    exact enrolled.mem_added

end World

namespace Act

variable {call : Caller} {dispatch : Act Unit} {w v : World}

/-- Asking for a live query makes a collection, attaches the query to it and goes on from there. -/
theorem exists_attached_of_live (calls : ∀ e ctx args, (call e ctx args).Proper)
    (proper : dispatch.Proper) {source result : Ref} {text : String} {params : List Value}
    (enrolled : w.Enrolled) (gives : (live call dispatch source text params).Gives w result v) :
    ∃ (q : LiveQuery) (u : World) (c : CollectionCell), q.result = result ∧ q.source = source ∧
      q.params = params ∧ q.Derived ∧ w.Comes u ∧ u.Enrolled ∧ u.Bare result c ∧
      (attach q.result q.source q.definition q.params).Gives u () (u.attached q c) ∧
      (u.attached q c).Comes v := by
  simp only [live, gives_bind, gives_pure, gives_holding] at gives
  obtain ⟨d, x, defined, r, y, created, _, _, ⟨z, ⟨_, u, attached, computed⟩, rfl⟩, rfl, rfl⟩ :=
    gives
  obtain ⟨rfl, rfl⟩ : r = x.nextRef ∧ y = x.withCell (.collection x.empty) := by
    obtain ⟨same, made⟩ := Prod.mk.inj (created.symm.trans
      (show (newCollection []).on x = (.ok x.nextRef, x.withCell (.collection x.empty)) from rfl))
    exact ⟨Except.ok.inj same, made⟩
  have asked : w.Comes x := World.Comes.here.gives (has_definition (C := .proper) text) defined
  have enrolled' : x.Enrolled := (asked.leads enrolled).1
  have made := asked.gives (has_newCollection (C := .proper) []) created
  have held := made.step (.hold (.collection x.nextRef :: .collection source :: params ++
    (x.withCell (.collection x.empty)).held))
  have bare := (World.bare_withCell enrolled').holding (.collection x.nextRef ::
    .collection source :: params ++ (x.withCell (.collection x.empty)).held)
  obtain ⟨ds, follows⟩ := follows_of_attach attached
  let q : LiveQuery := ⟨x.nextRef, source, text, params, d, ds⟩
  have attaches := on_attach (q := q) bare.here bare.bare follows
  obtain ⟨-, rfl⟩ := attached.unique attaches
  have refreshes : (batch dispatch (refresh call dispatch x.nextRef source d params)).Proper :=
    .batch proper (has_refresh (C := .proper) proper _ _ _ _ fun e _ => calls e)
  exact ⟨q, _, x.empty, rfl, rfl, rfl, ⟨_, follows⟩, held, (held.leads enrolled).1, bare, attaches,
    (World.Comes.here.gives refreshes computed).step (.hold _)⟩

/-- A result that has been asked for is attached from then on, as long as it retains anything. -/
theorem attached_of_live (calls : ∀ e ctx args, (call e ctx args).Proper)
    (proper : dispatch.Proper) {source result : Ref} {text : String} {params : List Value}
    (enrolled : w.Enrolled) (gives : (live call dispatch source text params).Gives w result v) :
    ∃ (q : LiveQuery) (base : Nat), q.result = result ∧ q.source = source ∧ q.params = params ∧
      ∀ u, v.Comes u → u.heap.subscriptions result.loc ≠ [] → u.Attached q base := by
  obtain ⟨q, x, c, rfl, rfl, rfl, derived, -, ready, bare, -, rest⟩ :=
    exists_attached_of_live calls proper enrolled gives
  obtain ⟨begun, -⟩ := bare.leads_attached derived ready
  obtain ⟨between, first⟩ := rest.leads begun
  refine ⟨q, x.bus.listeners.size, rfl, rfl, rfl, fun u later keeps => ?_⟩
  exact (bare.attached ready derived).later (first.trans (later.leads between).2) keeps

end Act

namespace Watched

def setup : Setup where
  queries := [("known", { filter := some (.tagged "gte"
    [.path .here [.key (.text "n")], .literal (.number .zero)]) })]

def start : World := (World.start setup).toOption.getD {}

/-- A collection with a record. -/
def source : World := start.play
  [.bind "r" (.newRecord [("n", .number .zero)] none),
    .bind "s" (.newCollection [.named "r"] none)]

/-- A live query over it. -/
def watch : Act Ref :=
  Act.live (Reentry.within 8).call (Reentry.within 8).dispatch ⟨1, 2⟩ "known" []

/-- The live result has a name. -/
def named : World := ((Act.bindName "a" (.collection ⟨2, 3⟩)).on (watch.on source).2).2

theorem started : World.start setup = .ok start := rfl

theorem gives_watch : watch.Gives source ⟨2, 3⟩ (watch.on source).2 :=
  Act.gives_of_toOption (by decide +kernel)

theorem proper_naming : (Act.bindName "a" (.collection ⟨2, 3⟩)).Proper :=
  Act.has_changeDesk (C := .proper) (fun _ => rfl) fun _ => rfl

theorem comes_named : (watch.on source).2.Comes named := World.Comes.here.step proper_naming

end Watched

end ReactiveQuery
