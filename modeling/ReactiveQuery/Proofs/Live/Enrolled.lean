import ReactiveQuery.Proofs.Bus.Conduct
import ReactiveQuery.Proofs.Change.Registry
import ReactiveQuery.Proofs.Live.Attach

/-! Registrations of live queries.  In every run the listeners of a live query are registered
exactly for what its result retains, and nobody but the result lets go of that. -/

namespace ReactiveQuery

/-- The place of the result that a listener invalidates. -/
def Listener.place? : Listener → Option Nat
  | .invalidate _ _ (.refresh result ..) => some result.loc
  | _ => none

namespace Bus

/-- The place of the result that the listener of a number invalidates. -/
def place? (b : Bus) (n : Nat) : Option Nat := (b.listeners[n]?).bind Listener.place?

/-- Some listener is one of the live query. -/
def Lists (b : Bus) (q : LiveQuery) : Prop :=
  ∃ (n : Nat) (route : Route), b.listeners[n]? = some (.invalidate q.result.id route q.job)

/-- Whatever invalidates is a listener of a live query, and no two live queries share a number or a
place. -/
structure Ranked (b : Bus) (size : Nat) : Prop where
  live : ∀ (n id : Nat) route job, b.listeners[n]? = some (.invalidate id route job) →
    ∃ q : LiveQuery, q.result.id = id ∧ q.job = job
  below : ∀ q, b.Lists q → q.result.id < b.nextId ∧ q.result.loc < size
  one : ∀ q r, b.Lists q → b.Lists r → q.result.id = r.result.id ∨ q.result.loc = r.result.loc →
    q.job = r.job

variable {b c : Bus}

theorem place?_of_listeners {n : Nat} {q : LiveQuery} {route : Route}
    (listens : b.listeners[n]? = some (.invalidate q.result.id route q.job)) :
    b.place? n = some q.result.loc := by
  simp [place?, listens, Listener.place?, LiveQuery.job]

/-- A number with a place is that of a listener of a live query. -/
theorem exists_of_place? {n loc : Nat} (here : b.place? n = some loc) :
    ∃ id route result source d params, result.loc = loc ∧
      b.listeners[n]? = some (.invalidate id route (.refresh result source d params)) := by
  unfold place? at here
  obtain ⟨l, listens, place⟩ := Option.bind_eq_some_iff.mp here
  unfold Listener.place? at place
  split at place
  · next id route result source d params =>
    exact ⟨id, route, result, source, d, params, Option.some.inj place, listens⟩
  · cases place

theorem lt_size_of_place? {n loc : Nat} (here : b.place? n = some loc) : n < b.listeners.size := by
  obtain ⟨_, _, _, _, _, _, -, listens⟩ := exists_of_place? here
  exact (Array.getElem?_eq_some_iff.mp listens).1

theorem Ranked.exists_of_place? {size n loc : Nat} (ranked : b.Ranked size)
    (here : b.place? n = some loc) : ∃ (q : LiveQuery) (route : Route),
      b.listeners[n]? = some (.invalidate q.result.id route q.job) ∧ q.result.loc = loc := by
  obtain ⟨id, route, result, source, d, params, rfl, listens⟩ := Bus.exists_of_place? here
  obtain ⟨q, rfl, same⟩ := ranked.live n id route _ listens
  refine ⟨q, route, by rw [listens, same], ?_⟩
  rw [LiveQuery.job, Job.refresh.injEq] at same
  rw [same.1]

end Bus

/-- What the query depends on was read off its paths. -/
def LiveQuery.Derived (q : LiveQuery) : Prop :=
  ∃ h, Dependency.all h q.source q.definition q.params = some q.dependencies

/-- The numbers of listeners that a session keeps by name. -/
def Desk.numbers (d : Desk) : List Nat :=
  d.handles.values.map (·.listener) ++ d.listeners.values

/-- A collection that reports to the bus. -/
def Cell.Reports (cell : Cell) : Prop := ∃ c, cell = .collection c ∧ c.sink = .bus

namespace World

/-- The order among registrations, results and the listeners of live queries. -/
structure Enrolled (w : World) : Prop where
  tidy : w.bus.registry.Tidy
  known : ∀ t, ∀ n ∈ w.bus.registry.on t, n < w.bus.listeners.size
  /-- On each topic the older of two live queries comes first. -/
  ordered : ∀ t, (w.bus.registry.on t).Pairwise fun m n =>
    ∀ k ∈ w.bus.place? m, ∀ l ∈ w.bus.place? n, k ≤ l
  ranked : w.bus.Ranked w.heap.cells.size
  registered : ∀ t n loc, w.bus.place? n = some loc →
    (n ∈ w.bus.registry.on t ↔ ⟨t, n⟩ ∈ w.heap.subscriptions loc)
  owned : ∀ loc, ∀ s ∈ w.heap.subscriptions loc, w.bus.place? s.listener = some loc
  follows : ∀ t (n id : Nat) route job, n ∈ w.bus.registry.on t →
    w.bus.listeners[n]? = some (.invalidate id route job) → ∃ (q : LiveQuery) (d : Dependency),
      q.result.id = id ∧ q.job = job ∧ q.Derived ∧ d ∈ q.dependencies ∧ d.topic = t ∧
        q.route d = route
  sinks : ∀ q, w.bus.Lists q → ∀ cell, w.heap.cell? q.result.loc = some cell → cell.Reports
  desk : ∀ n ∈ w.desk.numbers, n < w.bus.listeners.size ∧ w.bus.place? n = none

/-- What never happens in a run: a place is used anew, a number goes to another listener, or a
result retains other registrations than before, except none. -/
structure Later (w v : World) : Prop where
  size : w.heap.cells.size ≤ v.heap.cells.size
  dead : ∀ loc, loc < w.heap.cells.size → w.heap.cell? loc = none → v.heap.cell? loc = none
  listeners : ∀ (n : Nat) l, w.bus.listeners[n]? = some l → v.bus.listeners[n]? = some l
  subscriptions : ∀ n loc, w.bus.place? n = some loc →
    v.heap.subscriptions loc = w.heap.subscriptions loc ∨ v.heap.subscriptions loc = []

theorem Later.place? {w v : World} (later : w.Later v) {n loc : Nat}
    (here : w.bus.place? n = some loc) : v.bus.place? n = some loc := by
  obtain ⟨id, route, result, source, d, params, rfl, listens⟩ := Bus.exists_of_place? here
  simp [Bus.place?, later.listeners n _ listens, Listener.place?]

theorem Later.listeners_size {w v : World} (later : w.Later v) :
    w.bus.listeners.size ≤ v.bus.listeners.size := by
  by_contra fewer
  have here := Array.getElem?_eq_getElem (Nat.lt_of_not_le fewer)
  exact Nat.lt_irrefl _ (Array.getElem?_eq_some_iff.mp (later.listeners _ _ here)).1

theorem Later.lists {w v : World} (later : w.Later v) {q : LiveQuery} (lists : w.bus.Lists q) :
    v.bus.Lists q := by
  obtain ⟨n, route, listens⟩ := lists
  exact ⟨n, route, later.listeners n _ listens⟩

/-- A live query whose result has not let go of its registrations. -/
def Live (w : World) (q : LiveQuery) : Prop :=
  w.bus.Lists q ∧ w.heap.subscriptions q.result.loc ≠ []

/-- Who is alive later was alive when it was listed. -/
theorem Live.before {w v : World} {q : LiveQuery} (live : v.Live q) (later : w.Later v)
    (lists : w.bus.Lists q) : w.Live q := by
  refine ⟨lists, fun none => live.2 ?_⟩
  obtain ⟨n, route, listens⟩ := lists
  rcases later.subscriptions n _ (Bus.place?_of_listeners listens) with same | gone
  · rw [same, none]
  · exact gone

theorem Later.refl (w : World) : w.Later w :=
  ⟨Nat.le_refl _, fun _ _ => id, fun _ _ => id, fun _ _ _ => .inl rfl⟩

theorem Later.trans {u v w : World} (first : u.Later v) (second : v.Later w) : u.Later w where
  size := Nat.le_trans first.size second.size
  dead loc inside dead :=
    second.dead loc (Nat.lt_of_lt_of_le inside first.size) (first.dead loc inside dead)
  listeners n l listens := second.listeners n l (first.listeners n l listens)
  subscriptions n loc here := by
    rcases second.subscriptions n loc (first.place? here) with same | none
    · rw [same]
      exact first.subscriptions n loc here
    · exact .inr none

/-- A way to go on that keeps order. -/
def Leads (w v : World) : Prop := w.Enrolled → v.Enrolled ∧ w.Later v

theorem Leads.refl (w : World) : w.Leads w := fun enrolled => ⟨enrolled, .refl w⟩

theorem Leads.trans {u v w : World} (first : u.Leads v) (second : v.Leads w) : u.Leads w := by
  intro enrolled
  have ⟨between, later⟩ := first enrolled
  have ⟨after, later'⟩ := second between
  exact ⟨after, later.trans later'⟩

end World

/-- A heap whose cells retain what they retained or nothing, and among which no place is used
anew. -/
structure Heap.Sheds (h k : Heap) : Prop where
  size : h.cells.size ≤ k.cells.size
  old : ∀ l, l < h.cells.size → k.subscriptions l = h.subscriptions l ∨ k.subscriptions l = []
  new : ∀ l, h.cells.size ≤ l → k.subscriptions l = []
  cells : ∀ l, l < h.cells.size → ∀ cell', k.cell? l = some cell' →
    ∃ cell, h.cell? l = some cell ∧ (cell.Reports → cell'.Reports)

namespace Heap

variable {h k : Heap}

theorem Extends.sheds (grows : h.Extends k) : h.Sheds k where
  size := grows.size
  old l inside := .inl (by rw [subscriptions, grows.old l inside, subscriptions])
  new := grows.new
  cells l inside cell' here := ⟨cell', by rw [← grows.old l inside, here], id⟩

theorem subscriptions_put (h : Heap) (loc : Nat) (cell : Option Cell) (l : Nat) :
    (h.put loc cell).subscriptions l =
      if loc = l ∧ l < h.cells.size then (cell.map Cell.subscriptions).getD []
      else h.subscriptions l := by
  unfold subscriptions
  rw [cell?_put]
  split <;> rfl

/-- A cell may be written as long as it keeps what it retains, or nothing of it. -/
theorem sheds_put {loc : Nat} {cell cell' : Cell} (here : h.cell? loc = some cell)
    (retains : cell'.subscriptions = cell.subscriptions ∨ cell'.subscriptions = [])
    (reports : cell.Reports → cell'.Reports) : h.Sheds (h.put loc (some cell')) where
  size := Nat.le_of_eq (size_put loc _).symm
  old l inside := by
    rw [subscriptions_put]
    split
    · next at_ =>
      obtain rfl := at_.1
      rw [subscriptions_of_cell? here]
      exact retains
    · exact .inl rfl
  new l outside := subscriptions_of_dead (cell?_of_size_le (by rwa [size_put]))
  cells l inside found there := by
    rw [cell?_put] at there
    split at there
    · next at_ =>
      obtain rfl := at_.1
      obtain rfl := Option.some.inj there
      exact ⟨cell, here, reports⟩
    · exact ⟨found, there, id⟩

theorem sheds_free (h : Heap) (loc : Nat) : h.Sheds (h.put loc none) where
  size := Nat.le_of_eq (size_put loc _).symm
  old l inside := by
    rw [subscriptions_put]
    split
    · exact .inr rfl
    · exact .inl rfl
  new l outside := subscriptions_of_dead (cell?_of_size_le (by rwa [size_put]))
  cells l inside found there := by
    rw [cell?_put] at there
    split at there
    · cases there
    · exact ⟨found, there, id⟩

end Heap

namespace World

variable {w v : World}

theorem place?_congr (listeners : v.bus.listeners = w.bus.listeners) :
    v.bus.place? = w.bus.place? := by
  unfold Bus.place?
  rw [listeners]

/-- Cells are written or freed, and exactly those registrations go that are no longer retained. -/
theorem leads_of_sheds (heap : w.heap.Sheds v.heap) (listeners : v.bus.listeners = w.bus.listeners)
    (nextId : w.bus.nextId ≤ v.bus.nextId) (numbers : v.desk.numbers = w.desk.numbers)
    (registry : w.Enrolled → v.bus.registry.Tidy ∧
      ∀ t, (v.bus.registry.on t).Sublist (w.bus.registry.on t) ∧ ∀ n, n ∈ v.bus.registry.on t ↔
        n ∈ w.bus.registry.on t ∧
          ∀ loc, w.bus.place? n = some loc → ⟨t, n⟩ ∈ v.heap.subscriptions loc) : w.Leads v := by
  intro enrolled
  obtain ⟨tidy, registers⟩ := registry enrolled
  have on := fun t => (registers t).2
  have place := place?_congr listeners
  have lists : ∀ q, v.bus.Lists q ↔ w.bus.Lists q := fun q => by
    unfold Bus.Lists
    rw [listeners]
  -- What is still retained was retained before.
  have before : ∀ loc, ∀ s ∈ v.heap.subscriptions loc, s ∈ w.heap.subscriptions loc := by
    intro loc s member
    rcases Nat.lt_or_ge loc w.heap.cells.size with inside | outside
    · rcases heap.old loc inside with same | none
      · rwa [← same]
      · simp [none] at member
    · simp [heap.new loc outside] at member
  have inside : ∀ {n loc}, w.bus.place? n = some loc → loc < w.heap.cells.size := by
    intro n loc here
    obtain ⟨q, route, listens, rfl⟩ := enrolled.ranked.exists_of_place? here
    exact (enrolled.ranked.below q ⟨n, route, listens⟩).2
  refine ⟨⟨tidy, fun t n member => ?_, fun t => ?_,
    ⟨?_, fun q known => ?_, fun q r first second => ?_⟩,
    fun t n loc here => ?_, fun loc s member => ?_, fun t n id route job member listens => ?_,
    fun q known cell here => ?_, ?_⟩, heap.size, fun loc inside dead => ?_, ?_,
    fun n loc here => heap.old loc (inside here)⟩
  · rw [listeners]
    exact enrolled.known t n ((on t n).mp member).1
  · rw [place]
    exact (enrolled.ordered t).sublist (registers t).1
  · rw [listeners]
    exact enrolled.ranked.live
  · have ⟨low, within⟩ := enrolled.ranked.below q ((lists q).mp known)
    exact ⟨Nat.lt_of_lt_of_le low nextId, Nat.lt_of_lt_of_le within heap.size⟩
  · exact enrolled.ranked.one q r ((lists q).mp first) ((lists r).mp second)
  · rw [place] at here
    rw [on]
    constructor
    · exact fun h => h.2 loc here
    · intro retained
      refine ⟨(enrolled.registered t n loc here).mpr (before loc _ retained), fun loc' here' => ?_⟩
      rw [here, Option.some.injEq] at here'
      exact here' ▸ retained
  · rw [place]
    exact enrolled.owned loc s (before loc s member)
  · rw [listeners] at listens
    exact enrolled.follows t n id route job ((on t n).mp member).1 listens
  · obtain ⟨cell', there, reports⟩ :=
      heap.cells _ (enrolled.ranked.below q ((lists q).mp known)).2 cell here
    exact reports (enrolled.sinks q ((lists q).mp known) cell' there)
  · rw [numbers, listeners, place]
    exact enrolled.desk
  · refine Option.eq_none_iff_forall_ne_some.mpr fun cell' there => ?_
    obtain ⟨cell, here, -⟩ := heap.cells loc inside cell' there
    rw [here] at dead
    cases dead
  · rw [listeners]
    exact fun _ _ => id

/-- Without registering or undoing anything, cells may come and be written. -/
theorem leads_of_registry (heap : w.heap.Sheds v.heap)
    (keeps : ∀ l, l < w.heap.cells.size → v.heap.subscriptions l = w.heap.subscriptions l)
    (registry : v.bus.registry = w.bus.registry) (listeners : v.bus.listeners = w.bus.listeners)
    (nextId : w.bus.nextId ≤ v.bus.nextId) (numbers : v.desk.numbers = w.desk.numbers) :
    w.Leads v := by
  refine leads_of_sheds heap listeners nextId numbers fun enrolled => ?_
  rw [registry]
  refine ⟨enrolled.tidy, fun t => ⟨.refl _, fun n =>
    ⟨fun member => ⟨member, fun loc here => ?_⟩, And.left⟩⟩⟩
  obtain ⟨q, route, listens, rfl⟩ := enrolled.ranked.exists_of_place? here
  rw [keeps _ (enrolled.ranked.below q ⟨n, route, listens⟩).2]
  exact (enrolled.registered t n _ here).mp member

theorem Inert.leads (inert : w.Inert v) : w.Leads v := by
  refine leads_of_registry inert.heap.sheds (fun l inside => ?_) (by rw [inert.bus])
    (by rw [inert.bus]) (Nat.le_of_eq (by rw [inert.bus])) ?_
  · rw [Heap.subscriptions, inert.heap.old l inside, Heap.subscriptions]
  · rw [Desk.numbers, inert.handles, inert.listeners, Desk.numbers]

/-- What waits, and whether the bus is open, is of no concern. -/
theorem leads_of_bus {b : Bus} (registry : b.registry = w.bus.registry)
    (listeners : b.listeners = w.bus.listeners) (nextId : w.bus.nextId ≤ b.nextId) :
    w.Leads { w with bus := b } :=
  leads_of_registry (Heap.Extends.refl w.heap).sheds (fun _ _ => rfl) registry listeners nextId rfl

/-- A cell whose place retains nothing any more has its registrations undone. -/
theorem leads_of_undone {loc : Nat} {heap : Heap} (sheds : w.heap.Sheds heap)
    (none : heap.subscriptions loc = [])
    (others : ∀ l, l < w.heap.cells.size → l ≠ loc →
      heap.subscriptions l = w.heap.subscriptions l) :
    w.Leads ({ w with heap }.unsubscribeAll (w.heap.subscriptions loc)) := by
  refine leads_of_sheds sheds rfl (Nat.le_refl _) rfl fun enrolled =>
    ⟨enrolled.tidy.removeAll, fun t => ?_⟩
  dsimp only [unsubscribeAll]
  rw [Registry.on_removeAll enrolled.tidy]
  refine ⟨List.filter_sublist, fun n => ?_⟩
  rw [List.mem_filter, decide_eq_true_eq]
  refine and_congr_right fun member => ⟨fun kept loc' here => ?_, fun retained lost => ?_⟩
  · have was := (enrolled.registered t n loc' here).mp member
    by_cases same : loc' = loc
    · exact absurd (same ▸ was) kept
    · obtain ⟨q, route, listens, rfl⟩ := enrolled.ranked.exists_of_place? here
      rwa [others _ (enrolled.ranked.below q ⟨n, route, listens⟩).2 same]
  · have still := retained loc (enrolled.owned loc _ lost)
    simp [none] at still

theorem release_eq (w : World) (loc : Nat) : w.release loc =
    { w with heap := w.heap.put loc none }.unsubscribeAll (w.heap.subscriptions loc) := by
  unfold release Heap.subscriptions
  rcases w.heap.cell? loc with _ | (_ | _) <;> rfl

theorem leads_release (w : World) (loc : Nat) : w.Leads (w.release loc) := by
  rw [release_eq]
  refine leads_of_undone (w.heap.sheds_free loc) ?_ fun l inside other => ?_
  · rw [Heap.subscriptions_put]
    split
    · rfl
    · next outside =>
      refine Heap.subscriptions_of_dead (Heap.cell?_of_size_le ?_)
      simpa using outside
  · rw [Heap.subscriptions_put, if_neg fun at_ => other at_.1.symm]

theorem leads_sweep (w : World) : w.Leads w.sweep := by
  have round : ∀ (locs : List Nat) (w : World), w.Leads (locs.foldl release w) := by
    intro locs
    induction locs with
    | nil => exact Leads.refl
    | cons loc locs ih => exact fun w => (leads_release w loc).trans (ih _)
  have rounds : ∀ (count : Nat) (w : World), w.Leads (sweepWithin count w) := by
    intro count
    induction count with
    | zero => exact Leads.refl
    | succ count ih =>
      intro w
      unfold sweepWithin
      split
      · exact .refl w
      · exact (round _ w).trans (ih _)
  exact rounds _ w

/-- Sessions make listeners of their own, register them and undo that; the registrations of live
queries are not theirs to touch. -/
theorem leads_of_scripts (heap : v.heap = w.heap) (nextId : v.bus.nextId = w.bus.nextId)
    (old : ∀ (n : Nat) l, w.bus.listeners[n]? = some l → v.bus.listeners[n]? = some l)
    (new : ∀ (n : Nat) l, v.bus.listeners[n]? = some l →
      w.bus.listeners[n]? = some l ∨ ∃ name members actions, l = .script name members actions)
    (registry : w.Enrolled → v.bus.registry.Tidy ∧ ∀ t n, n ∈ v.bus.registry.on t →
      n < v.bus.listeners.size)
    (on : w.Enrolled → ∀ t n, w.bus.place? n ≠ none →
      (n ∈ v.bus.registry.on t ↔ n ∈ w.bus.registry.on t))
    (order : ∀ t, ∃ ns, (v.bus.registry.on t).Sublist (w.bus.registry.on t ++ ns) ∧
      ∀ n ∈ ns, w.bus.place? n = none)
    (desk : w.Enrolled → ∀ n ∈ v.desk.numbers, n < v.bus.listeners.size ∧ v.bus.place? n = none) :
    w.Leads v := by
  intro enrolled
  obtain ⟨tidy, known⟩ := registry enrolled
  -- The new listeners are scripts, which keep no place, so the places are those of before.
  have later : ∀ (n id : Nat) route job, v.bus.listeners[n]? = some (.invalidate id route job) →
      w.bus.listeners[n]? = some (.invalidate id route job) := fun n id route job listens =>
    (new n _ listens).resolve_right (by rintro ⟨_, _, _, ⟨⟩⟩)
  have place : ∀ n, v.bus.place? n = w.bus.place? n := by
    refine fun n => Option.ext fun loc => ⟨fun here => ?_, fun here => ?_⟩
    · obtain ⟨id, route, result, source, d, params, rfl, listens⟩ := Bus.exists_of_place? here
      simp [Bus.place?, later n id route _ listens, Listener.place?]
    · obtain ⟨id, route, result, source, d, params, rfl, listens⟩ := Bus.exists_of_place? here
      simp [Bus.place?, old n _ listens, Listener.place?]
  have lists : ∀ q, v.bus.Lists q → w.bus.Lists q := fun q ⟨n, route, listens⟩ =>
    ⟨n, route, later n _ route _ listens⟩
  refine ⟨⟨tidy, known, fun t => ?_, ⟨fun n id route job listens => enrolled.ranked.live n id route job
    (later n id route job listens), fun q known => ?_, fun q r first second =>
      enrolled.ranked.one q r (lists q first) (lists r second)⟩, fun t n loc here => ?_,
    fun loc s member => ?_, fun t n id route job member listens => ?_,
    fun q known => ?_, desk enrolled⟩, ?_, fun loc _ dead => ?_, old, fun n loc _ => ?_⟩
  · obtain ⟨ns, sublist, unplaced⟩ := order t
    simp only [place]
    refine List.Pairwise.sublist sublist (List.pairwise_append.mpr ⟨enrolled.ordered t, ?_, ?_⟩)
    · exact List.pairwise_of_forall_mem_list fun m among n _ k here => by
        simp [unplaced m among] at here
    · exact fun m _ n among k _ l here => by simp [unplaced n among] at here
  · rw [heap, nextId]
    exact enrolled.ranked.below q (lists q known)
  · rw [place] at here
    rw [on enrolled t n (by simp [here]), heap]
    exact enrolled.registered t n loc here
  · rw [heap] at member
    rw [place]
    exact enrolled.owned loc s member
  · have listens' := later n id route job listens
    obtain ⟨q, rfl, rfl⟩ := enrolled.ranked.live n id route job listens'
    rw [on enrolled t n (by simp [Bus.place?_of_listeners listens'])] at member
    exact enrolled.follows t n _ route _ member listens'
  · rw [heap]
    exact enrolled.sinks q (lists q known)
  · exact Nat.le_of_eq (by rw [heap])
  · rwa [heap]
  · exact .inl (by rw [heap])

end World

end ReactiveQuery
