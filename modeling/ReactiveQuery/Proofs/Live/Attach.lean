import ReactiveQuery.Proofs.Live.Grow

/-! Attaching a live query.  Its result keeps the source and the arguments, and it is registered for
everything that it follows. -/

namespace ReactiveQuery

namespace Registry

theorem mem_on_add_self (r : Registry) (s : Subscription) :
    s.listener ∈ (r.add s).2.on s.topic := by
  rw [on_add]
  split
  · simp
  · next known => simpa using known

theorem mem_on_add {r : Registry} {s : Subscription} {t : Topic} {n : Nat} (here : n ∈ r.on t) :
    n ∈ (r.add s).2.on t := by
  rw [on_add]
  split
  · exact List.mem_append_left _ here
  · exact here

end Registry

namespace Act

variable {w v : World}

/-- Afterwards the listeners are registered on all topics, and none has lost a registration. -/
theorem gives_subscribeAll {listener : Dependency → Nat} {ds : List Dependency}
    {subscriptions : List Subscription}
    (gives : (subscribeAll listener ds).Gives w subscriptions v) :
    v = { w with bus := { w.bus with registry := v.bus.registry } } ∧
      (∀ t n, n ∈ w.bus.registry.on t → n ∈ v.bus.registry.on t) ∧
      (∀ d ∈ ds, listener d ∈ v.bus.registry.on d.topic) ∧
      ∀ s ∈ subscriptions, ∃ d ∈ ds, s.listener = listener d := by
  induction ds generalizing w subscriptions with
  | nil =>
    obtain ⟨rfl, rfl⟩ := gives_pure.mp gives
    exact ⟨rfl, fun _ _ => id, by simp, by simp⟩
  | cons d ds ih =>
    simp only [subscribeAll, subscribe, gives_bind, gives_onBus] at gives
    obtain ⟨new, _, ⟨rfl, rfl⟩, gives⟩ := gives
    obtain ⟨others, rest⟩ : ∃ others, (subscribeAll listener ds).Gives
        { w with bus := { w.bus with
          registry := (w.bus.registry.add ⟨d.topic, listener d⟩).2 } } others v ∧
        ∀ s ∈ subscriptions, s ∈ others ∨ s = ⟨d.topic, listener d⟩ := by
      split at gives
      · obtain ⟨others, _, rest, rfl, rfl⟩ := by simpa only [gives_bind, gives_pure] using gives
        exact ⟨others, rest, fun s member => (List.mem_cons.mp member).symm⟩
      · exact ⟨subscriptions, gives, fun _ => .inl⟩
    obtain ⟨rest, among⟩ := rest
    obtain ⟨same, kept, all, owned⟩ := ih rest
    refine ⟨same, fun t n here => kept t n (Registry.mem_on_add here),
      List.forall_mem_cons.mpr ⟨kept _ _ (Registry.mem_on_add_self _ _), all⟩, fun s member => ?_⟩
    rcases among s member with member | rfl
    · obtain ⟨d', inside, here⟩ := owned s member
      exact ⟨d', List.mem_cons_of_mem _ inside, here⟩
    · exact ⟨d, List.mem_cons_self, rfl⟩

end Act

namespace World

variable {M : Nat → Prop} {qs : List LiveQuery} {v w : World} {q : LiveQuery}

/-- A world in which a live query has been attached to a result that kept nothing. -/
structure Attaches (w : World) (q : LiveQuery) (c : CollectionCell) (v : World) : Prop where
  follows : Dependency.all w.heap q.source q.definition q.params = some q.dependencies
  same : ∃ subscriptions, v = { w with
    heap := w.heap.put q.result.loc
      (some (.collection { c with retained := ⟨subscriptions, q.job.values⟩ }))
    bus := { w.bus with registry := v.bus.registry, listeners := v.bus.listeners } } ∧
    ∀ s ∈ subscriptions, ∃ route,
      v.bus.listeners[s.listener]? = some (.invalidate q.result.id route q.job)
  old : ∀ (n : Nat) l, w.bus.listeners[n]? = some l → v.bus.listeners[n]? = some l
  new : ∀ (n : Nat) l, v.bus.listeners[n]? = some l → w.bus.listeners[n]? = some l ∨
    ∃ route, l = .invalidate q.result.id route q.job
  kept : ∀ t n, n ∈ w.bus.registry.on t → n ∈ v.bus.registry.on t
  registered : ∀ d ∈ q.dependencies,
    ∃ n, v.bus.listeners[n]? = some (.invalidate q.result.id (q.route d) q.job) ∧
      n ∈ v.bus.registry.on d.topic

end World

/-- The listeners of a live query, one for each way in which an event may reach it. -/
def LiveQuery.listeners (q : LiveQuery) (listeners : Array Listener) : Array Listener :=
  ((listeners.push (.invalidate q.result.id .source q.job)).push
    (.invalidate q.result.id (.query (collectionIds q.params)) q.job)).push
    (.invalidate q.result.id .record q.job)

/-- The number of the listener for a dependency, if the listeners are added to so many others. -/
def Dependency.listener (base : Nat) : Dependency → Nat
  | .source _ => base
  | .query _ => base + 1
  | .record _ => base + 2

theorem LiveQuery.getElem?_listeners (q : LiveQuery) (listeners : Array Listener)
    (d : Dependency) :
    (q.listeners listeners)[d.listener listeners.size]? =
      some (.invalidate q.result.id (q.route d) q.job) := by
  simp only [LiveQuery.listeners, Array.getElem?_push, Array.size_push]
  cases d with
  | source _ =>
    rw [Dependency.listener, if_neg (by omega), if_neg (by omega), if_pos rfl]
    rfl
  | query _ =>
    rw [Dependency.listener, if_neg (by omega), if_pos rfl]
    rfl
  | record _ =>
    rw [Dependency.listener, if_pos rfl]
    rfl

theorem LiveQuery.getElem?_listeners_cases (q : LiveQuery) (listeners : Array Listener) {n : Nat}
    {l : Listener} (listens : (q.listeners listeners)[n]? = some l) :
    listeners[n]? = some l ∨ ∃ route, l = .invalidate q.result.id route q.job := by
  simp only [LiveQuery.listeners, Array.getElem?_push] at listens
  split at listens
  · exact .inr ⟨_, (Option.some.inj listens).symm⟩
  · split at listens
    · exact .inr ⟨_, (Option.some.inj listens).symm⟩
    · split at listens
      · exact .inr ⟨_, (Option.some.inj listens).symm⟩
      · exact .inl listens

theorem LiveQuery.getElem?_listeners_of_old (q : LiveQuery) (listeners : Array Listener) {n : Nat}
    {l : Listener} (listens : listeners[n]? = some l) : (q.listeners listeners)[n]? = some l := by
  have inside : n < listeners.size := (Array.getElem?_eq_some_iff.mp listens).1
  simp only [LiveQuery.listeners, Array.getElem?_push, Array.size_push]
  rw [if_neg (by omega), if_neg (by omega), if_neg (by omega), listens]

theorem Act.follows_of_attach {w v : World} {result source : Ref} {d : Definition}
    {params : List Value} (gives : (attach result source d params).Gives w () v) :
    ∃ ds, Dependency.all w.heap source d params = some ds := by
  simp only [attach, gives_bind, gives_ask] at gives
  obtain ⟨ds, _, ⟨follows, -⟩, -⟩ := gives
  exact ⟨ds, follows⟩

theorem Act.gives_attach {w v : World} {q : LiveQuery} {c : CollectionCell}
    (here : w.heap.cell? q.result.loc = some (.collection c)) (bare : c.retained = {})
    (follows : Dependency.all w.heap q.source q.definition q.params = some q.dependencies)
    (gives : (attach q.result q.source q.definition q.params).Gives w () v) : w.Attaches q c v := by
  simp only [attach, addListener, Ref.retain, gives_bind, gives_ask, gives_onBus,
    gives_modify] at gives
  obtain ⟨ds, _, ⟨follows', rfl⟩, n₀, _, ⟨rfl, rfl⟩, n₁, _, ⟨rfl, rfl⟩, n₂, _, ⟨rfl, rfl⟩,
    subscriptions, u, subscribed, rfl⟩ := gives
  obtain rfl : q.dependencies = ds := Option.some.inj (follows.symm.trans follows')
  have numbers : (fun d : Dependency => match d with
      | .source _ => w.bus.listeners.size
      | .query _ => (w.bus.listeners.push (.invalidate q.result.id .source q.job)).size
      | .record _ => ((w.bus.listeners.push (.invalidate q.result.id .source q.job)).push
        (.invalidate q.result.id (.query (collectionIds q.params)) q.job)).size) =
      Dependency.listener w.bus.listeners.size := by
    funext d
    cases d <;> simp [Dependency.listener]
  have subscribed : (subscribeAll (Dependency.listener w.bus.listeners.size) q.dependencies).Gives
      { w with bus := { w.bus with listeners := q.listeners w.bus.listeners } } subscriptions u :=
    numbers ▸ subscribed
  obtain ⟨same, kept, all, owned⟩ := gives_subscribeAll subscribed
  have unkept : ((u.heap.collection? q.result).map (·.retained.subscriptions)).getD [] = [] := by
    rw [same, Heap.collection?_eq_some.mpr here]
    simp [bare]
  rw [unkept, Heap.setRetained, same, Heap.collection?_eq_some.mpr here]
  refine ⟨follows, ⟨subscriptions, rfl, fun s member => ?_⟩,
    fun n l => q.getElem?_listeners_of_old _, fun n l => q.getElem?_listeners_cases _, kept,
    fun d member => ⟨_, q.getElem?_listeners _ d, all d member⟩⟩
  obtain ⟨d, -, number⟩ := owned s member
  rw [number]
  exact ⟨q.route d, q.getElem?_listeners w.bus.listeners d⟩

namespace LiveQuery

variable {M : Nat → Prop} {qs : List LiveQuery} {q r s : LiveQuery}

theorem Rests.cons (rests : Rests qs r s) (q : LiveQuery) : Rests (q :: qs) r s := by
  induction rests with
  | self => exact .self _
  | on member uses _ ih => exact .on (List.mem_cons_of_mem _ member) uses ih

theorem Reaches.cons {l : Nat} (reaches : r.Reaches M qs l) (q : LiveQuery) :
    r.Reaches M (q :: qs) l := by
  intro may
  obtain ⟨s, rests, uses⟩ := reaches may
  exact ⟨s, rests.cons q, uses⟩

end LiveQuery

namespace World

variable {M : Nat → Prop} {qs : List LiveQuery} {v w : World} {q : LiveQuery}
  {c : CollectionCell} {containers : List Value}

namespace Attaches

variable (attaches : w.Attaches q c v)
include attaches

theorem heap : ∃ subscriptions, v.heap = w.heap.put q.result.loc
    (some (.collection { c with retained := ⟨subscriptions, q.job.values⟩ })) := by
  obtain ⟨subscriptions, same, -⟩ := attaches.same
  exact ⟨subscriptions, by rw [same]⟩

theorem isAlive (here : w.heap.cell? q.result.loc = some (.collection c)) (l : Nat) :
    v.heap.isAlive l = w.heap.isAlive l := by
  obtain ⟨_, heap⟩ := attaches.heap
  rw [heap, Heap.isAlive_put here]

theorem size : v.heap.cells.size = w.heap.cells.size := by
  obtain ⟨_, heap⟩ := attaches.heap
  rw [heap, Heap.size_put]

theorem tags : v.heap.nextTag = w.heap.nextTag := by
  obtain ⟨_, heap⟩ := attaches.heap
  rw [heap]
  rfl

theorem cell?_of_ne {l : Nat} (other : l ≠ q.result.loc) : v.heap.cell? l = w.heap.cell? l := by
  obtain ⟨_, heap⟩ := attaches.heap
  rw [heap, Heap.cell?_put_of_ne (Ne.symm other)]

/-- A cell is the result with what it keeps, or one that was there. -/
theorem cell?_cases (here : w.heap.cell? q.result.loc = some (.collection c)) {l : Nat}
    {cell : Cell} (found : v.heap.cell? l = some cell) :
    (∃ subscriptions, l = q.result.loc ∧
      cell = .collection { c with retained := ⟨subscriptions, q.job.values⟩ } ∧
      ∀ s ∈ subscriptions, ∃ route,
        v.bus.listeners[s.listener]? = some (.invalidate q.result.id route q.job)) ∨
    l ≠ q.result.loc ∧ w.heap.cell? l = some cell := by
  obtain ⟨subscriptions, same, owned⟩ := attaches.same
  by_cases other : l = q.result.loc
  · subst other
    rw [same, Heap.cell?_put_self here, Option.some.injEq] at found
    exact .inl ⟨subscriptions, rfl, found.symm, owned⟩
  · exact .inr ⟨other, by rwa [attaches.cell?_of_ne other] at found⟩

theorem fits (fits : w.Fits containers qs) (formed : q.Formed containers w.heap.cells.size)
    (here : w.heap.cell? q.result.loc = some (.collection c)) : v.Fits containers (q :: qs) := by
  have fits' : Fits containers (q :: qs) w :=
    ⟨fits.heap, fits.knows, fits.names, List.forall_mem_cons.mpr ⟨formed, fits.queries⟩⟩
  obtain ⟨subscriptions, same, -⟩ := attaches.same
  rw [same]
  have put : Fits containers (q :: qs) { w with
      heap := w.heap.put q.result.loc
        (some (.collection { c with retained := ⟨subscriptions, q.job.values⟩ })) } := by
    refine fits'.put fun x member => fits.heap.items q.result x ?_
    rwa [Heap.items_of_collection here]
  exact ⟨put.heap, ⟨put.knows.drafts, put.knows.definitions, put.knows.read⟩, put.names,
    put.queries⟩

end Attaches

/-- A live query that has been attached to an empty result comes to those there are. -/
theorem Sound.attach (sound : w.Sound M qs) (attaches : w.Attaches q c v)
    (here : w.heap.cell? q.result.loc = some (.collection c)) (empty : c.items = [])
    (fits : w.Fits containers qs) (formed : q.Formed containers w.heap.cells.size)
    (last : ∀ r ∈ qs, r.result.loc < q.result.loc) (may : M q.result.loc)
    (earlier : ∀ l, q.Uses l → l < q.result.loc)
    (params : ∀ x ∈ q.params, (∀ r, x ≠ .collection r) → ∀ l ∈ x.places, ¬M l)
    (cached : w.cache.entries.lookup q.text = some q.definition)
    (alive : ∀ x ∈ q.job.values, ∀ l ∈ x.places, w.heap.isAlive l = true) :
    v.Sound M (q :: qs) := by
  have lives := attaches.isAlive here
  have found : ∀ {l cell}, v.heap.cell? l = some cell → _ :=
    fun {l cell} => attaches.cell?_cases here
  have number : q.result.id = q.result.loc + 1 := formed.result.1
  obtain ⟨_, same, -⟩ := attaches.same
  constructor
  case fits => exact ⟨containers, attaches.fits fits formed here⟩
  case closed =>
    constructor
    · intro l named
      rw [same] at named
      rw [lives]
      exact sound.closed.names l named
    · intro l cell there k held
      rw [lives]
      rcases found there with ⟨subscriptions, rfl, rfl, -⟩ | ⟨-, there⟩
      · rcases Cell.mem_places.mp held with ⟨x, member, -⟩ | ⟨_, ⟨⟩, x, member, held⟩
        · simp [Cell.contents, empty] at member
        · exact alive x member k held
      · exact sound.closed.cells l cell there k held
  case number =>
    rw [attaches.size, same]
    exact sound.number
  case sinks =>
    intro l cell there
    rcases found there with ⟨_, -, rfl, -⟩ | ⟨-, there⟩
    · have sink := sound.sinks _ _ here
      exact sink
    · exact sound.sinks l cell there
  case changing => exact List.forall_mem_cons.mpr ⟨may, sound.changing⟩
  case distinct =>
    intro r among s among' equal
    rcases List.mem_cons.mp among with rfl | old
    · rcases List.mem_cons.mp among' with rfl | old'
      · rfl
      · exact absurd equal (Nat.ne_of_gt (last s old'))
    · rcases List.mem_cons.mp among' with rfl | old'
      · exact absurd equal (Nat.ne_of_lt (last r old))
      · exact sound.distinct r old s old' equal
  case earlier => exact List.forall_mem_cons.mpr ⟨earlier, sound.earlier⟩
  case params => exact List.forall_mem_cons.mpr ⟨params, sound.params⟩
  case cached =>
    rw [same]
    exact List.forall_mem_cons.mpr ⟨cached, sound.cached⟩
  case results =>
    intro r member cell there
    rcases found there with ⟨subscriptions, at', rfl, -⟩ | ⟨other, there⟩
    · rcases List.mem_cons.mp member with rfl | member
      · exact ⟨_, rfl, rfl⟩
      · exact absurd at' (Nat.ne_of_lt (last r member))
    · rcases List.mem_cons.mp member with rfl | member
      · exact absurd rfl other
      · exact sound.results r member cell there
  case registered =>
    intro r member living d inside
    rcases List.mem_cons.mp member with rfl | member
    · exact attaches.registered d inside
    · obtain ⟨n, listens, on⟩ := sound.registered r member (by rwa [lives] at living) d inside
      exact ⟨n, attaches.old n _ listens, attaches.kept _ n on⟩
  case listeners =>
    intro n l listens
    rcases attaches.new n l listens with old | ⟨route, rfl⟩
    · obtain ⟨r, member, route, rfl⟩ := sound.listeners n l old
      exact ⟨r, List.mem_cons_of_mem _ member, route, rfl⟩
    · exact ⟨q, List.mem_cons_self, route, rfl⟩
  case owned =>
    intro l c' there s member
    rcases found there with ⟨subscriptions, rfl, ⟨⟩, owned⟩ | ⟨-, there⟩
    · obtain ⟨route, listens⟩ := owned s member
      exact ⟨route, q.job, by rwa [number] at listens⟩
    · obtain ⟨route, job, listens⟩ := sound.owned l c' there s member
      exact ⟨route, job, attaches.old _ _ listens⟩
  case guarded =>
    intro l cell there x member k held maybe
    rcases found there with ⟨_, -, rfl, -⟩ | ⟨-, there⟩
    · simp [Cell.contents, empty] at member
    · obtain ⟨r, inside, at', reaches⟩ := sound.guarded l cell there x member k held maybe
      exact ⟨r, List.mem_cons_of_mem _ inside, at', reaches.cons q⟩

end World

end ReactiveQuery
