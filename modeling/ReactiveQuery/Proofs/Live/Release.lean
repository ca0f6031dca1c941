import ReactiveQuery.Proofs.Live.Course

/-! Release.  A sweep takes from the registry what the results that it frees have retained, and
nothing else moves; afterwards the job of a freed result does nothing. -/

namespace ReactiveQuery

namespace World

/-- The living cells that a sweep frees. -/
def freed (w : World) : List Nat := w.living.filter fun l => !w.sweep.heap.isAlive l

/-- What is left when the cells at some places have been released. -/
structure Released (w : World) (locs : List Nat) (v : World) : Prop where
  cells : ∀ l, v.heap.cell? l = if l ∈ locs then none else w.heap.cell? l
  tidy : v.bus.registry.Tidy
  on : ∀ t, v.bus.registry.on t =
    (w.bus.registry.on t).filter fun n => decide (⟨t, n⟩ ∉ locs.flatMap w.heap.subscriptions)

variable {u v w : World}

namespace Released

variable {ks ls : List Nat}

theorem refl (tidy : w.bus.registry.Tidy) : w.Released [] w := ⟨by simp, tidy, by simp⟩

theorem subscriptions (released : w.Released ls v) (l : Nat) :
    v.heap.subscriptions l = if l ∈ ls then [] else w.heap.subscriptions l := by
  unfold Heap.subscriptions
  rw [released.cells]
  split <;> rfl

theorem trans (first : u.Released ks v) (second : v.Released ls w) : u.Released (ks ++ ls) w where
  cells l := by
    rw [second.cells, first.cells]
    by_cases early : l ∈ ks <;> by_cases late : l ∈ ls <;> simp [early, late]
  tidy := second.tidy
  on t := by
    rw [second.on, first.on, List.filter_filter]
    refine List.filter_congr fun n _ => ?_
    rw [← Bool.decide_and, decide_eq_decide, List.flatMap_append, List.mem_append, not_or, and_comm]
    refine and_congr_right fun kept => not_congr ?_
    simp only [List.mem_flatMap, first.subscriptions] at kept ⊢
    constructor
    · rintro ⟨l, inside, member⟩
      split at member
      · cases member
      · exact ⟨l, inside, member⟩
    · rintro ⟨l, inside, member⟩
      refine ⟨l, inside, ?_⟩
      rw [if_neg fun early => kept ⟨l, early, member⟩]
      exact member

end Released

theorem released_release (tidy : w.bus.registry.Tidy) (loc : Nat) :
    w.Released [loc] (w.release loc) where
  cells l := by
    rw [cell?_release]
    simp [eq_comm]
  tidy := by
    rw [release_eq]
    exact tidy.removeAll
  on t := by
    rw [release_eq, List.flatMap_cons, List.flatMap_nil, List.append_nil]
    exact Registry.on_removeAll tidy t

theorem exists_released_sweep (tidy : w.bus.registry.Tidy) : ∃ ls, w.Released ls w.sweep := by
  have round : ∀ (locs : List Nat) (w : World), w.bus.registry.Tidy →
      ∃ ls, w.Released ls (locs.foldl release w) := by
    intro locs
    induction locs with
    | nil => exact fun w tidy => ⟨[], .refl tidy⟩
    | cons loc locs ih =>
      intro w tidy
      have first := released_release tidy loc
      obtain ⟨ls, rest⟩ := ih _ first.tidy
      exact ⟨_, first.trans rest⟩
  have rounds : ∀ (count : Nat) (w : World), w.bus.registry.Tidy →
      ∃ ls, w.Released ls (sweepWithin count w) := by
    intro count
    induction count with
    | zero => exact fun w tidy => ⟨[], .refl tidy⟩
    | succ count ih =>
      intro w tidy
      unfold sweepWithin
      split
      · exact ⟨[], .refl tidy⟩
      · obtain ⟨ks, first⟩ := round w.unheld w tidy
        obtain ⟨ls, rest⟩ := ih _ first.tidy
        exact ⟨_, first.trans rest⟩
  exact rounds _ w tidy

theorem mem_freed {l : Nat} :
    l ∈ w.freed ↔ w.heap.isAlive l = true ∧ w.sweep.heap.isAlive l = false := by
  simp [freed, mem_living]

/-- A sweep takes away the registrations of the live queries whose results it frees; the others
keep their places. -/
theorem Enrolled.on_sweep (enrolled : w.Enrolled) (t : Topic) :
    w.sweep.bus.registry.on t =
      (w.bus.registry.on t).filter fun n => decide (∀ loc ∈ w.bus.place? n, loc ∉ w.freed) := by
  obtain ⟨ls, released⟩ := exists_released_sweep enrolled.tidy
  rw [released.on]
  refine List.filter_congr fun n here => decide_eq_decide.mpr ⟨fun kept loc place gone => ?_,
    fun stays lost => ?_⟩
  · refine kept (List.mem_flatMap.mpr ⟨loc, ?_, (enrolled.registered t n loc place).mp here⟩)
    by_contra outside
    have same := released.cells loc
    rw [if_neg outside] at same
    have ⟨alive, dead⟩ := mem_freed.mp gone
    rw [Heap.isAlive, same, ← Heap.isAlive, alive] at dead
    cases dead
  · obtain ⟨loc, inside, retained⟩ := List.mem_flatMap.mp lost
    refine stays loc (enrolled.owned loc _ retained) (mem_freed.mpr ⟨?_, ?_⟩)
    · obtain ⟨c, there, -⟩ := Heap.exists_of_mem_subscriptions retained
      exact Heap.isAlive_of_cell? there
    · rw [Heap.isAlive, released.cells, if_pos inside]
      rfl

/-- Once a result is gone, none of its listeners is registered. -/
theorem Enrolled.not_mem_on_of_dead (enrolled : w.Enrolled) {loc n : Nat}
    (dead : w.heap.cell? loc = none) (place : w.bus.place? n = some loc) (t : Topic) :
    n ∉ w.bus.registry.on t := fun here => by
  have retained := (enrolled.registered t n loc place).mp here
  simp [Heap.subscriptions_of_dead dead] at retained

/-- The job of a result that is gone lets go of what nothing holds, and that is all. -/
theorem on_run_of_dead {q : LiveQuery} (dead : w.heap.cell? q.result.loc = none)
    (again : Reentry) :
    (q.job.run again.call again.dispatch again.perform).on w = (.ok (), w.sweep) := by
  have gone : ¬w.sweep.heap.isAlive q.result.loc = true := fun alive => by
    obtain ⟨cell, here⟩ := Heap.cell?_of_isAlive alive
    rw [cell?_of_sweep here] at dead
    cases dead
  rw [LiveQuery.job, Job.on_run_refresh, if_neg gone]

/-- The places held from outside the heap, other than by listeners. -/
def outerRoots (w : World) : List Nat :=
  let jobs := (w.bus.scheduler.marked ++ w.bus.scheduler.running).flatMap (·.2.values)
  let events := w.bus.queue.events.flatMap Event.values
  Value.placesOfItems (w.desk.names.values ++ w.held ++ jobs ++ events) ++
    w.cache.entries.flatMap (·.2.places)

theorem mem_roots {l : Nat} : l ∈ w.roots ↔ l ∈ w.outerRoots ∨
    ∃ n ∈ w.bus.registry.entries.flatMap (·.2),
      l ∈ Value.placesOfItems (((w.bus.listeners[n]?).map Listener.values).getD []) := by
  have listened : l ∈ Value.placesOfItems ((w.bus.registry.entries.flatMap (·.2)).flatMap fun n =>
      ((w.bus.listeners[n]?).map Listener.values).getD []) ↔
        ∃ n ∈ w.bus.registry.entries.flatMap (·.2),
          l ∈ Value.placesOfItems (((w.bus.listeners[n]?).map Listener.values).getD []) := by
    simp only [Value.mem_placesOfItems, List.mem_flatMap]
    tauto
  simp only [roots, outerRoots, List.mem_append, Value.mem_placesOfItems_append, listened]
  generalize (∃ n, n ∈ w.bus.registry.entries.flatMap (·.2) ∧ _) = heard
  tauto

/-- Whatever holds a place is a cell at one of some places, or a listener of the result there. -/
structure OnlyHeld (w : World) (l : Nat) (ls : List Nat) : Prop where
  roots : l ∉ w.outerRoots
  listeners : ∀ n ∈ w.bus.registry.entries.flatMap (·.2),
    l ∈ Value.placesOfItems (((w.bus.listeners[n]?).map Listener.values).getD []) →
      ∃ k ∈ ls, w.bus.place? n = some k
  cells : ∀ k < w.heap.cells.size, l ∈ ((w.heap.cell? k).map Cell.places).getD [] → k ∈ ls

instance (w : World) (l : Nat) (ls : List Nat) : Decidable (w.OnlyHeld l ls) :=
  decidable_of_iff (l ∉ w.outerRoots ∧ (∀ n ∈ w.bus.registry.entries.flatMap (·.2),
      l ∈ Value.placesOfItems (((w.bus.listeners[n]?).map Listener.values).getD []) →
        ∃ k ∈ ls, w.bus.place? n = some k) ∧
      ∀ k < w.heap.cells.size, l ∈ ((w.heap.cell? k).map Cell.places).getD [] → k ∈ ls)
    ⟨fun ⟨roots, listeners, cells⟩ => ⟨roots, listeners, cells⟩,
      fun only => ⟨only.roots, only.listeners, only.cells⟩⟩

/-- Places of which each is held by later ones only, and the last one by nothing. -/
def Chain (w : World) : List Nat → Prop
  | [] => True
  | l :: ls => w.OnlyHeld l ls ∧ w.Chain ls

/-- With the last one of a chain the others go. -/
theorem Enrolled.dead_of_chain (enrolled : w.Enrolled) {chain : List Nat} (held : w.Chain chain) :
    ∀ l ∈ chain, w.sweep.heap.cell? l = none := by
  induction chain with
  | nil => nofun
  | cons l ls ih =>
    obtain ⟨only, rest⟩ := held
    -- Whatever still held this one would be a later one of the chain, and those are gone.
    have later := ih rest
    refine List.forall_mem_cons.mpr ⟨Option.eq_none_iff_forall_ne_some.mpr fun cell here => ?_,
      later⟩
    obtain ⟨enrolled', -⟩ := leads_sweep w enrolled
    have free : l ∉ w.sweep.unheld := by simp [unheld_sweep]
    rw [mem_unheld, not_and, not_not] at free
    rcases List.mem_append.mp (free (Heap.isAlive_of_cell? here)) with root | inner
    · rcases mem_roots.mp root with outer | ⟨n, listed, inside⟩
      · refine only.roots ?_
        rwa [same_sweep] at outer
      · obtain ⟨entry, member, among⟩ := List.mem_flatMap.mp listed
        have on := enrolled'.tidy.mem_on member among
        have listed' := Registry.mem_entries_of_mem_on
          (List.mem_of_mem_filter (enrolled.on_sweep entry.1 ▸ on))
        have listeners : w.sweep.bus.listeners = w.bus.listeners := by rw [same_sweep]
        rw [listeners] at inside
        obtain ⟨k, behind, place⟩ := only.listeners n listed' inside
        rw [← place?_congr listeners] at place
        exact enrolled'.not_mem_on_of_dead (later k behind) place _ on
    · obtain ⟨cell', member, inside⟩ := List.mem_flatMap.mp inner
      obtain ⟨k, found⟩ := List.mem_iff_getElem?.mp member
      have there : w.sweep.heap.cell? k = cell' := by
        rw [Heap.cell?, ← Array.getElem?_toList, found]
        rfl
      cases cell' with
      | none => cases inside
      | some c =>
        have before := cell?_of_sweep there
        rw [later k (only.cells k (Heap.lt_size_of_cell? before) (by rwa [before]))] at there
        cases there

/-- The second world has the registrations of the first one and new ones behind them, for a job. -/
structure Enlists (w : World) (id : Nat) (job : Job) (added : List Subscription) (v : World) :
    Prop where
  fresh : ∀ s ∈ added, s.listener ∉ w.bus.registry.on s.topic
  on : ∀ t, v.bus.registry.on t =
    w.bus.registry.on t ++ (added.filter (·.topic = t)).map (·.listener)
  jobs : ∀ s ∈ added, ∃ route, v.bus.listeners[s.listener]? = some (.invalidate id route job)

/-- A sweep takes back all that was added for a result. -/
structure TakesBack (w : World) (result : Ref) (job : Job) (added : List Subscription) :
    Prop where
  own : ∀ t n, n ∈ w.bus.registry.on t ∧ w.bus.place? n = some result.loc ↔ ⟨t, n⟩ ∈ added
  /-- Other registrations keep their places, but for those of other results that are freed. -/
  on : ∀ t, w.sweep.bus.registry.on t =
    (w.bus.registry.on t).filter fun n => decide (∀ loc ∈ w.bus.place? n, loc ∉ w.freed)
  filled : ∀ e ∈ w.sweep.bus.registry.entries, e.2 ≠ []
  gone : ∀ v, w.sweep.Comes v → ∀ s ∈ added, ∀ t, s.listener ∉ v.bus.registry.on t
  idle : ∀ v, w.sweep.Comes v → ∀ again : Reentry,
    (job.run again.call again.dispatch again.perform).on v = (.ok (), v.sweep)

theorem Bare.enlists {q : LiveQuery} {c : CollectionCell} (enrolled : w.Enrolled)
    (bare : w.Bare q.result c) : w.Enlists q.result.id q.job
      ((w.attached q c).heap.subscriptions q.result.loc) (w.attached q c) := by
  rw [subscriptions_attached bare.here, if_pos rfl]
  refine ⟨fun s member => (Registry.mem_addAll.mp member).2, fun t => Registry.on_addAll _ t,
    fun s member => ?_⟩
  obtain ⟨d, -, rfl⟩ := LiveQuery.mem_subscriptions.mp (enrolled.mem_added.mp member)
  exact ⟨_, q.getElem?_listeners w.bus.listeners d⟩

/-- What a result retains goes with it. -/
theorem Enrolled.takesBack (enrolled : w.Enrolled) {q : LiveQuery}
    (freed : q.result.loc ∈ w.freed) :
    w.TakesBack q.result q.job (w.heap.subscriptions q.result.loc) := by
  obtain ⟨enrolled', swept⟩ := leads_sweep w enrolled
  have dead : ∀ v, w.sweep.Comes v → v.Enrolled ∧ v.heap.cell? q.result.loc = none ∧
      ∀ n, w.bus.place? n = some q.result.loc → v.bus.place? n = some q.result.loc := by
    intro v comes
    obtain ⟨after, later⟩ := comes.leads enrolled'
    obtain ⟨alive, gone⟩ := mem_freed.mp freed
    obtain ⟨cell, here⟩ := Heap.cell?_of_isAlive alive
    have inside := Nat.lt_of_lt_of_le (Heap.lt_size_of_cell? here) swept.size
    have none := Option.not_isSome_iff_eq_none.mp (Bool.eq_false_iff.mp gone)
    exact ⟨after, later.dead _ inside none, fun n place => later.place? (swept.place? place)⟩
  refine ⟨fun t n => ⟨fun ⟨here, place⟩ => (enrolled.registered t n _ place).mp here,
    fun retained => ?_⟩, enrolled.on_sweep, enrolled'.tidy.filled, fun v comes s member t => ?_,
    fun v comes again => on_run_of_dead (dead v comes).2.1 again⟩
  · have place := enrolled.owned _ _ retained
    exact ⟨(enrolled.registered t n _ place).mpr retained, place⟩
  · obtain ⟨after, gone, places⟩ := dead v comes
    exact after.not_mem_on_of_dead gone (places _ (enrolled.owned _ _ member)) t

end World

/-- Releasing a live result undoes its attachment.  The registrations that came with the attachment
are the ones that go, with those of the results that are freed along with it, and the result is
never refreshed again.  A chain of results that hold one another goes as a whole. -/
theorem Engine.Proper.releases {S : Scope} {E : Engine S} (proper : E.Proper) {setup : Setup}
    {s w x : World} (started : World.start setup = .ok s) (before : s.Comes w) (depth : Nat)
    {source result : Ref} {text : String} {params : List Value}
    (gives : (Act.live (E.within depth).call (E.within depth).dispatch source text params).Gives w
      result x) :
    ∃ (d : Definition) (added : List Subscription) (u u' : World), w.Comes u ∧
      (Act.attach result source d params).Gives u () u' ∧ u'.Comes x ∧
      u.Enlists result.id (.refresh result source d params) added u' ∧
      ∀ v, x.Comes v →
        (v.heap.subscriptions result.loc ≠ [] → result.loc ∈ v.freed →
          v.TakesBack result (.refresh result source d params) added) ∧
        ∀ chain, v.Chain chain → ∀ l ∈ chain, v.sweep.heap.cell? l = none ∧
          ∀ t n, v.bus.place? n = some l → n ∉ v.sweep.bus.registry.on t := by
  have enrolled := (before.leads (World.enrolled_start started)).1
  have within := proper.within depth
  obtain ⟨q, u, c, rfl, rfl, rfl, derived, comes, ready, bare, attaches, rest⟩ :=
    Act.exists_attached_of_live within.call within.dispatch enrolled gives
  refine ⟨q.definition, _, u, _, comes, attaches, rest, bare.enlists ready, fun v later => ?_⟩
  have attached := bare.attached ready derived
  obtain ⟨begun, -⟩ := bare.leads_attached derived ready
  obtain ⟨between, first⟩ := rest.leads begun
  obtain ⟨enrolled', second⟩ := later.leads between
  refine ⟨fun keeps freed => ?_, fun chain held l inside => ?_⟩
  · have same := ((first.trans second).subscriptions _ _
      (attached.place? (.source ⟨none, none⟩))).resolve_right keeps
    rw [← same]
    exact enrolled'.takesBack freed
  · have dead := enrolled'.dead_of_chain held l inside
    obtain ⟨enrolled'', swept⟩ := World.leads_sweep v enrolled'
    exact ⟨dead, fun t n place => enrolled''.not_mem_on_of_dead dead (swept.place? place) t⟩

namespace Watched

/-- Over a live result another one has been made, and neither has a name any more. -/
def unnamed : World := named.play
  [.bind "b" (.live "a" "known" []), .drop "a", .drop "b"]

/-- Both are freed, the first one along with the second. -/
theorem releases_unnamed : ∃ d added,
    unnamed.TakesBack ⟨2, 3⟩ (.refresh ⟨2, 3⟩ ⟨1, 2⟩ d []) added ∧
      ∀ l ∈ [2, 3], unnamed.sweep.heap.cell? l = none := by
  have gives := gives_watch
  rw [watch, ← Engine.within_standard Scope.closed_any] at gives
  obtain ⟨d, added, u, u', -, -, -, -, releases⟩ :=
    (Engine.proper_standard Scope.closed_any).releases started (World.Comes.here.play _) 8 gives
  obtain ⟨back, gone⟩ := releases unnamed (comes_named.play _)
  exact ⟨d, added, back (by decide +kernel) (by decide +kernel), fun l inside =>
    (gone [2, 3] ⟨by decide +kernel, by decide +kernel, trivial⟩ l inside).1⟩

end Watched

end ReactiveQuery
