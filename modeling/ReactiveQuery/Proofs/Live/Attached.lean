import ReactiveQuery.Proofs.Live.Enrolled

/-! Attaching a live query to a new collection.  Its registrations come last on their topics and no
other changes, so the order among registrations is kept. -/

namespace ReactiveQuery

namespace LiveQuery

/-- The registrations of a live query whose listeners come after so many others. -/
def subscriptions (q : LiveQuery) (base : Nat) : List Subscription :=
  q.dependencies.map fun d => ⟨d.topic, d.listener base⟩

theorem mem_subscriptions {q : LiveQuery} {base : Nat} {s : Subscription} :
    s ∈ q.subscriptions base ↔ ∃ d ∈ q.dependencies, ⟨d.topic, d.listener base⟩ = s :=
  List.mem_map

end LiveQuery

theorem Dependency.le_listener (d : Dependency) (base : Nat) : base ≤ d.listener base := by
  cases d <;> simp [listener]

namespace Act

theorem on_subscribeAll (listener : Dependency → Nat) (ds : List Dependency) (w : World) :
    (subscribeAll listener ds).on w =
      (.ok (w.bus.registry.addAll (ds.map fun d => ⟨d.topic, listener d⟩)).1, { w with
        bus := { w.bus with
          registry := (w.bus.registry.addAll (ds.map fun d => ⟨d.topic, listener d⟩)).2 } }) := by
  induction ds generalizing w with
  | nil => rfl
  | cons d ds ih =>
    rw [subscribeAll, on_bind]
    simp only [subscribe, on_onBus, List.map_cons, Registry.addAll]
    split
    · rw [on_bind, ih]
      simp
    · rw [ih]

end Act

namespace World

/-- The world after a live query has been attached. -/
def attached (w : World) (q : LiveQuery) (c : CollectionCell) : World :=
  let added := w.bus.registry.addAll (q.subscriptions w.bus.listeners.size)
  { w with
    heap := w.heap.put q.result.loc
      (some (.collection { c with retained := ⟨added.1, q.job.values⟩ }))
    bus := { w.bus with registry := added.2, listeners := q.listeners w.bus.listeners } }

end World

namespace Act

variable {w : World} {q : LiveQuery} {c : CollectionCell}

/-- Attaching never fails once it is known what to follow. -/
theorem on_attach (here : w.heap.cell? q.result.loc = some (.collection c))
    (bare : c.retained.subscriptions = [])
    (follows : Dependency.all w.heap q.source q.definition q.params = some q.dependencies) :
    (attach q.result q.source q.definition q.params).on w = (.ok (), w.attached q c) := by
  have subscribed : ∀ numbers : Dependency → Nat,
      (∀ d, numbers d = d.listener w.bus.listeners.size) → (subscribeAll numbers q.dependencies).on
          { w with bus := { w.bus with listeners := q.listeners w.bus.listeners } } =
        (.ok (w.bus.registry.addAll (q.subscriptions w.bus.listeners.size)).1, { w with
          bus := { w.bus with
            registry := (w.bus.registry.addAll (q.subscriptions w.bus.listeners.size)).2
            listeners := q.listeners w.bus.listeners } }) := fun numbers same => by
    rw [on_subscribeAll, funext same]
    rfl
  have retained : ∀ (registry : Registry) (ss : List Subscription),
      (q.result.retain ⟨ss, q.job.values⟩).on { w with
        bus := { w.bus with registry, listeners := q.listeners w.bus.listeners } } =
      (.ok (), { w with
        heap := w.heap.put q.result.loc
          (some (.collection { c with retained := ⟨ss, q.job.values⟩ }))
        bus := { w.bus with registry, listeners := q.listeners w.bus.listeners } }) := by
    intro registry ss
    have found := Heap.collection?_eq_some.mpr here
    simp [Ref.retain, found, bare, Heap.setRetained, World.unsubscribeAll]
  change Gives _ _ _ _
  simp only [attach, addListener, gives_bind, gives_ask, gives_onBus]
  refine ⟨_, _, ⟨follows, rfl⟩, _, _, ⟨rfl, rfl⟩, _, _, ⟨rfl, rfl⟩, _, _, ⟨rfl, rfl⟩, _, _,
    subscribed _ fun d => by cases d <;> simp [Dependency.listener], ?_⟩
  exact retained _ _

end Act

namespace World

variable {w : World} {q : LiveQuery} {c : CollectionCell}

/-- A collection that has just been made: it retains nothing, and no live query has its number or
place. -/
structure Bare (w : World) (r : Ref) (c : CollectionCell) : Prop where
  here : w.heap.cell? r.loc = some (.collection c)
  bare : c.retained.subscriptions = []
  sink : c.sink = .bus
  numbered : r.id < w.bus.nextId
  fresh : ∀ q, w.bus.Lists q → q.result.id ≠ r.id ∧ q.result.loc < r.loc

theorem subscriptions_attached (here : w.heap.cell? q.result.loc = some (.collection c)) (l : Nat) :
    (w.attached q c).heap.subscriptions l = if l = q.result.loc then
      (w.bus.registry.addAll (q.subscriptions w.bus.listeners.size)).1
    else w.heap.subscriptions l := by
  have inside := Heap.lt_size_of_cell? here
  rw [attached, Heap.subscriptions_put]
  by_cases at_ : l = q.result.loc
  · simp [at_, inside, Cell.subscriptions]
  · simp [at_, Ne.symm at_]

/-- The numbers that come with a live query have never been registered. -/
theorem Enrolled.mem_added (enrolled : w.Enrolled) {s : Subscription} :
    s ∈ (w.bus.registry.addAll (q.subscriptions w.bus.listeners.size)).1 ↔
      s ∈ q.subscriptions w.bus.listeners.size := by
  rw [Registry.mem_addAll, and_iff_left_iff_imp]
  intro member known
  obtain ⟨d, -, rfl⟩ := LiveQuery.mem_subscriptions.mp member
  exact absurd (enrolled.known _ _ known) (Nat.not_lt.mpr (d.le_listener _))

theorem Enrolled.mem_on_attached (enrolled : w.Enrolled) {t : Topic} {n : Nat} :
    n ∈ (w.attached q c).bus.registry.on t ↔
      n ∈ w.bus.registry.on t ∨ ⟨t, n⟩ ∈ q.subscriptions w.bus.listeners.size := by
  change n ∈ (w.bus.registry.addAll (q.subscriptions w.bus.listeners.size)).2.on t ↔ _
  rw [Registry.on_addAll, List.mem_append]
  refine or_congr_right ?_
  simp only [List.mem_map, List.mem_filter, enrolled.mem_added, decide_eq_true_eq]
  constructor
  · rintro ⟨⟨_, _⟩, ⟨member, rfl⟩, rfl⟩
    exact member
  · exact fun member => ⟨⟨t, n⟩, ⟨member, rfl⟩, rfl⟩

theorem listeners_attached (w : World) (q : LiveQuery) (c : CollectionCell) :
    (w.attached q c).bus.listeners = q.listeners w.bus.listeners := rfl

theorem place?_attached_of_old {n loc : Nat} (there : w.bus.place? n = some loc) :
    (w.attached q c).bus.place? n = some loc := by
  obtain ⟨id, route, result, source, d, params, rfl, listens⟩ := Bus.exists_of_place? there
  have still := q.getElem?_listeners_of_old w.bus.listeners listens
  simp [Bus.place?, listeners_attached, still, Listener.place?]

theorem place?_attached_new (d : Dependency) :
    (w.attached q c).bus.place? (d.listener w.bus.listeners.size) = some q.result.loc :=
  Bus.place?_of_listeners (q.getElem?_listeners w.bus.listeners d)

/-- Who is listed has been there, or is the new live query under whatever dependencies. -/
theorem lists_attached {r : LiveQuery} (listed : (w.attached q c).bus.Lists r) :
    w.bus.Lists r ∨ r.result = q.result ∧ r.job = q.job := by
  obtain ⟨n, route, listens⟩ := listed
  rcases q.getElem?_listeners_cases w.bus.listeners listens with listens | ⟨route', same⟩
  · exact .inl ⟨n, route, listens⟩
  · rw [Listener.invalidate.injEq] at same
    have job := same.2.2
    rw [LiveQuery.job, LiveQuery.job, Job.refresh.injEq] at job
    exact .inr ⟨job.1, same.2.2⟩

section
variable (enrolled : w.Enrolled) (bare : w.Bare q.result c)
include enrolled bare

/-- A number stands for what it stood for, or it is new. -/
theorem Bare.place?_attached {n loc : Nat} (there : (w.attached q c).bus.place? n = some loc) :
    w.bus.place? n = some loc ∧ loc < q.result.loc ∨
      w.bus.listeners.size ≤ n ∧ loc = q.result.loc := by
  obtain ⟨id, route, result, source, d, params, rfl, listens⟩ := Bus.exists_of_place? there
  rcases q.getElem?_listeners_cases w.bus.listeners listens with listens | ⟨route', same⟩
  · obtain ⟨r, rfl, same⟩ := enrolled.ranked.live n id route _ listens
    rw [LiveQuery.job, Job.refresh.injEq] at same
    obtain ⟨rfl, rfl, rfl, rfl⟩ := same
    exact .inl ⟨Bus.place?_of_listeners listens, (bare.fresh r ⟨n, route, listens⟩).2⟩
  · rw [Listener.invalidate.injEq, LiveQuery.job, Job.refresh.injEq] at same
    refine .inr ⟨Nat.le_of_not_lt fun low => ?_, by rw [same.2.2.1]⟩
    -- A number in use has kept its listener, which would be one of this very query.
    have listens' := Array.getElem?_eq_getElem low
    rw [listeners_attached, q.getElem?_listeners_of_old w.bus.listeners listens',
      ← listens'] at listens
    obtain ⟨r, number, job⟩ := enrolled.ranked.live n id route _ listens
    refine (bare.fresh r ⟨n, route, ?_⟩).1 (number.trans same.1)
    rw [listens, number, job]

theorem Bare.ranked_attached :
    (w.attached q c).bus.Ranked (w.attached q c).heap.cells.size where
  live n id route job listens := by
    rcases q.getElem?_listeners_cases w.bus.listeners listens with listens | ⟨route', same⟩
    · exact enrolled.ranked.live n id route job listens
    · rw [Listener.invalidate.injEq] at same
      exact ⟨q, same.1.symm, same.2.2.symm⟩
  below r listed := by
    have cells : (w.attached q c).heap.cells.size = w.heap.cells.size := Heap.size_put _ _
    rw [cells]
    rcases lists_attached listed with listed | ⟨same, -⟩
    · exact enrolled.ranked.below r listed
    · rw [same]
      exact ⟨bare.numbered, Heap.lt_size_of_cell? bare.here⟩
  one r s first second same := by
    rcases lists_attached first with first | ⟨at_, job⟩ <;>
      rcases lists_attached second with second | ⟨at_', job'⟩
    · exact enrolled.ranked.one r s first second same
    · rw [at_'] at same
      have ⟨id, loc⟩ := bare.fresh r first
      exact (same.elim id (Nat.ne_of_lt loc)).elim
    · rw [at_] at same
      have ⟨id, loc⟩ := bare.fresh s second
      exact (same.elim id.symm (Nat.ne_of_gt loc)).elim
    · rw [job, job']

/-- The registrations of the new live query come after all others. -/
theorem Bare.ordered_attached (t : Topic) :
    ((w.attached q c).bus.registry.on t).Pairwise fun m n =>
      ∀ k ∈ (w.attached q c).bus.place? m, ∀ l ∈ (w.attached q c).bus.place? n, k ≤ l := by
  have old : ∀ n ∈ w.bus.registry.on t, ∀ k ∈ (w.attached q c).bus.place? n,
      w.bus.place? n = some k ∧ k < q.result.loc := fun n member k place =>
    (bare.place?_attached enrolled place).resolve_right fun ⟨high, _⟩ =>
      Nat.not_le.mpr (enrolled.known t n member) high
  have new : ∀ n ∈ ((w.bus.registry.addAll (q.subscriptions w.bus.listeners.size)).1.filter
      (·.topic = t)).map (·.listener), (w.attached q c).bus.place? n = some q.result.loc := by
    intro n member
    obtain ⟨s, among, rfl⟩ := List.mem_map.mp member
    obtain ⟨d, -, rfl⟩ := LiveQuery.mem_subscriptions.mp
      (enrolled.mem_added.mp (List.mem_of_mem_filter among))
    exact place?_attached_new d
  change ((w.bus.registry.addAll (q.subscriptions w.bus.listeners.size)).2.on t).Pairwise _
  rw [Registry.on_addAll, List.pairwise_append]
  refine ⟨(enrolled.ordered t).imp_of_mem fun {m n} first second before k here l there => ?_,
    List.pairwise_of_forall_mem_list fun m first n second k here l there => ?_,
    fun m first n second k here l there => ?_⟩
  · exact before k (old m first k here).1 l (old n second l there).1
  · rw [new m first] at here
    rw [new n second] at there
    exact Nat.le_of_eq ((Option.some.inj here).symm.trans (Option.some.inj there))
  · rw [new n second] at there
    exact Nat.le_of_lt (Option.some.inj there ▸ (old m first k here).2)

/-- Exactly the listeners of a result are registered for what it retains. -/
theorem Bare.registered_attached {t : Topic} {n loc : Nat}
    (there : (w.attached q c).bus.place? n = some loc) :
    n ∈ (w.attached q c).bus.registry.on t ↔
      ⟨t, n⟩ ∈ (w.attached q c).heap.subscriptions loc := by
  rw [enrolled.mem_on_attached, subscriptions_attached bare.here]
  rcases bare.place?_attached enrolled there with ⟨before, other⟩ | ⟨high, rfl⟩
  · rw [if_neg (Nat.ne_of_lt other), ← enrolled.registered t n loc before, or_iff_left_iff_imp]
    intro added
    obtain ⟨d, -, same⟩ := LiveQuery.mem_subscriptions.mp added
    obtain rfl : d.listener w.bus.listeners.size = n := (Subscription.mk.inj same).2
    exact absurd (Bus.lt_size_of_place? before) (Nat.not_lt.mpr (d.le_listener _))
  · rw [if_pos rfl, enrolled.mem_added, or_iff_right]
    exact fun member => absurd (enrolled.known t n member) (Nat.not_lt.mpr high)

theorem Bare.owned_attached {loc : Nat} {s : Subscription}
    (member : s ∈ (w.attached q c).heap.subscriptions loc) :
    (w.attached q c).bus.place? s.listener = some loc := by
  rw [subscriptions_attached bare.here] at member
  split at member
  · next at_ =>
    obtain ⟨d, -, rfl⟩ := LiveQuery.mem_subscriptions.mp (enrolled.mem_added.mp member)
    rw [at_]
    exact place?_attached_new d
  · exact place?_attached_of_old (enrolled.owned loc s member)

omit bare in
/-- The listeners of a live query are registered for what it follows, each in its way. -/
theorem Enrolled.follows_attached (derived : q.Derived) {t : Topic} {n id : Nat} {route : Route}
    {job : Job} (member : n ∈ (w.attached q c).bus.registry.on t)
    (listens : (w.attached q c).bus.listeners[n]? = some (.invalidate id route job)) :
    ∃ (q : LiveQuery) (d : Dependency), q.result.id = id ∧ q.job = job ∧ q.Derived ∧
      d ∈ q.dependencies ∧ d.topic = t ∧ q.route d = route := by
  rcases enrolled.mem_on_attached.mp member with before | added
  · have listens' := Array.getElem?_eq_getElem (enrolled.known t n before)
    rw [listeners_attached, q.getElem?_listeners_of_old w.bus.listeners listens',
      ← listens'] at listens
    exact enrolled.follows t n id route job before listens
  · obtain ⟨d, inside, same⟩ := LiveQuery.mem_subscriptions.mp added
    obtain ⟨rfl, rfl⟩ := Subscription.mk.inj same
    rw [listeners_attached, q.getElem?_listeners w.bus.listeners d, Option.some.injEq,
      Listener.invalidate.injEq] at listens
    exact ⟨q, d, listens.1, listens.2.2, derived, inside, rfl, listens.2.1⟩

theorem Bare.enrolled_attached (derived : q.Derived) : (w.attached q c).Enrolled where
  tidy := enrolled.tidy.addAll
  known t n member := by
    rcases enrolled.mem_on_attached.mp member with before | added
    · have size : w.bus.listeners.size ≤ (w.attached q c).bus.listeners.size := by
        simp only [listeners_attached, LiveQuery.listeners, Array.size_push]
        omega
      exact Nat.lt_of_lt_of_le (enrolled.known t n before) size
    · obtain ⟨d, -, same⟩ := LiveQuery.mem_subscriptions.mp added
      obtain rfl : d.listener w.bus.listeners.size = n := (Subscription.mk.inj same).2
      exact Bus.lt_size_of_place? (place?_attached_new d)
  ordered := bare.ordered_attached enrolled
  ranked := bare.ranked_attached enrolled
  registered _ _ _ there := bare.registered_attached enrolled there
  owned _ _ member := bare.owned_attached enrolled member
  follows _ _ _ _ _ member listens := enrolled.follows_attached derived member listens
  sinks r listed cell there := by
    rcases lists_attached listed with listed | ⟨same, -⟩
    · have other := (bare.fresh r listed).2
      rw [attached, Heap.cell?_put_of_ne (Nat.ne_of_gt other)] at there
      exact enrolled.sinks r listed cell there
    · rw [same, attached, Heap.cell?_put_self bare.here, Option.some.injEq] at there
      exact ⟨_, there.symm, bare.sink⟩
  desk n member := by
    obtain ⟨low, unplaced⟩ := enrolled.desk n member
    constructor
    · simp only [listeners_attached, LiveQuery.listeners, Array.size_push]
      omega
    · refine Option.eq_none_iff_forall_ne_some.mpr fun loc there => ?_
      rcases bare.place?_attached enrolled there with ⟨before, -⟩ | ⟨high, -⟩
      · rw [unplaced] at before
        cases before
      · exact absurd low (Nat.not_lt.mpr high)

theorem Bare.later_attached : w.Later (w.attached q c) where
  size := Nat.le_of_eq (Heap.size_put _ _).symm
  dead loc _ dead := by
    rw [attached, Heap.cell?_put]
    split
    · next at_ =>
      rw [← at_.1, bare.here] at dead
      cases dead
    · exact dead
  listeners _ _ := q.getElem?_listeners_of_old w.bus.listeners
  subscriptions n loc there := by
    obtain ⟨r, route, listens, rfl⟩ := enrolled.ranked.exists_of_place? there
    exact .inl (by
      rw [subscriptions_attached bare.here, if_neg (Nat.ne_of_lt (bare.fresh r ⟨n, route, listens⟩).2)])

end

/-- Attaching a live query to a bare collection keeps the order. -/
theorem Bare.leads_attached (bare : w.Bare q.result c) (derived : q.Derived) :
    w.Leads (w.attached q c) := fun enrolled =>
  ⟨bare.enrolled_attached enrolled derived, bare.later_attached enrolled⟩

end World

end ReactiveQuery
