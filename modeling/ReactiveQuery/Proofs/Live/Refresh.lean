import ReactiveQuery.Engine.Live
import ReactiveQuery.Proofs.Live.Publish

/-! Refreshing.  A refreshed result is fresh, no other cell changes, and whoever uses the result
hears of it. -/

namespace ReactiveQuery

namespace World

variable {M : Nat → Prop} {qs : List LiveQuery} {u v w : World} {containers more : List Value}

/-- What fits does so when the run has gone on. -/
theorem Fits.later (fits : w.Fits containers qs) (grown : containers <+: more)
    (heap : v.heap.Fits more v.heap.cells.size) (size : w.heap.cells.size ≤ v.heap.cells.size)
    (knows : v.Knows more) (names : v.desk.names = w.desk.names) : v.Fits more qs where
  heap := heap
  knows := knows
  names := by
    rw [names]
    exact fun e member => (fits.names e member).later grown size
  queries q member := (fits.queries q member).later grown size

theorem Knows.advances (knows : w.Knows containers) (grown : containers <+: more)
    (advances : w.Advances v) : v.Knows more where
  drafts := by
    rw [advances.same]
    exact knows.drafts
  definitions := by
    have size : v.heap.cells.size = w.heap.cells.size := by rw [advances.heap.same]
    rw [size, advances.same]
    exact fun e member => (knows.definitions e member).later grown (Nat.le_refl _)
  read := advances.read knows.read

theorem Passes.of_advances (advances : w.Advances v) : w.Passes v := by
  have alive : v.heap.isAlive = w.heap.isAlive := by rw [advances.heap.same]; rfl
  constructor
  case desk => rw [advances.same]
  case held => rw [advances.same]
  case dispatching => rw [advances.same]
  case size => rw [advances.heap.same]
  case tags => exact advances.heap.tags
  case alive => rw [alive]; exact fun _ => id
  case rooted => rw [alive]; exact fun _ _ => id

namespace Sound

variable {q : LiveQuery} {call : Caller} {rows : List Value}

theorem advances (sound : w.Sound M qs) (advances : w.Advances v)
    (fits : ∃ containers, v.Fits containers qs) : v.Sound M qs := by
  refine sound.of_cells fits ?_ ?_ ?_ ?_ ?_ fun text d known => ?_
  · rw [advances.heap.same]
  all_goals rw [advances.same]
  exact known

/-- A result uses only results that were made before it. -/
theorem loc_le_of_rests (sound : w.Sound M qs) {r : LiveQuery} (rests : LiveQuery.Rests qs q r) :
    r.result.loc ≤ q.result.loc ∨ q ∉ qs := by
  induction rests with
  | self => exact .inl (Nat.le_refl _)
  | @on q r s member uses _ ih =>
    by_cases here : q ∈ qs
    · rcases ih with le | out
      · exact .inl (Nat.le_trans le (Nat.le_of_lt (sound.earlier q here _ uses)))
      · exact absurd member out
    · exact .inr here

/-- Where a query comes to among the places that may change, was there before its result. -/
theorem lt_of_reaches (sound : w.Sound M qs) (member : q ∈ qs) {l : Nat} (may : M l)
    (reaches : q.Reaches M qs l) : l < q.result.loc := by
  obtain ⟨r, rests, uses⟩ := reaches may
  have before := sound.earlier r (rests.mem member) _ uses
  rcases sound.loc_le_of_rests rests with le | out
  · omega
  · exact absurd member out

/-- No query comes to its own result. -/
theorem not_reaches_self (sound : w.Sound M qs) (member : q ∈ qs) :
    ¬q.Reaches M qs q.result.loc := fun reaches =>
  Nat.lt_irrefl _ (sound.lt_of_reaches member (sound.changing q member) reaches)

/-- Whoever comes to a result rests on its query. -/
theorem rests_of_reaches (sound : w.Sound M qs) {r : LiveQuery} (member : r ∈ qs)
    (reaches : q.Reaches M qs r.result.loc) : LiveQuery.Rests qs q r := by
  obtain ⟨s, rests, uses⟩ := reaches (sound.changing r member)
  exact rests.step member uses

/-- Computing the rows changes nothing but tags, and the rows fit the run that has gone on. -/
theorem rows_fit (sound : w.Sound M qs) (member : q ∈ qs)
    (gives : (q.rows call w.heap).Gives w rows u) (fits : w.Fits containers qs) :
    w.Advances u ∧ ∃ more, containers <+: more ∧ u.Fits more qs ∧
      ∀ x ∈ rows, x.Fits more u.heap.cells.size := by
  have formed := fits.queries q member
  have shape : q.definition.Fits containers w.heap.cells.size :=
    formed.definition.code.mono (fun _ plain => plain.2) fun _ _ _ => trivial
  have params : q.context.Fits containers w.heap.cells.size := fun i => by
    unfold Context.param
    cases given : q.context.params[i]? with
    | none => trivial
    | some x => exact formed.params x (List.mem_of_getElem? given)
  obtain ⟨more, grown, heap, advances, all⟩ := Definition.execute_fits shape params
    (fun x item => fits.heap.items q.source x item) w rows u fits.heap sound.read gives
  have size : u.heap.cells.size = w.heap.cells.size := by rw [advances.heap.same]
  exact ⟨advances, more, grown, fits.later grown (by rwa [size]) (Nat.le_of_eq size.symm)
    (fits.knows.advances grown advances) (by rw [advances.same]), by rwa [size]⟩

/-- The rows are values that the result may hold. -/
theorem rows_inside (sound : w.Sound M qs) (member : q ∈ qs)
    (alive : w.heap.isAlive q.result.loc = true) (gives : (q.rows call w.heap).Gives w rows u) :
    ∀ x ∈ rows, ∀ l ∈ x.places, q.Reaches M qs l ∧ w.heap.isAlive l = true := by
  obtain ⟨containers, fits⟩ := sound.fits
  have same := sound.heap_same_of_cells sound q (Nat.le_refl _) (Nat.le_refl _) fun _ _ _ => rfl
  obtain ⟨_, _, -, -, inside⟩ := LiveQuery.rows_same (fits.queries q member) fits.heap sound.read
    sound.read same (sound.starts member alive qs) (q.reads_all _) gives call
  exact inside

end Sound

end World

namespace Act

variable {dispatch : Act Unit} {r : Ref} {f : ItemChange} {c : CollectionCell} {w v : World}
  {out : List Value}

/-- A change of the items of a collection on the bus writes them and publishes what it tells. -/
theorem gives_change (here : w.heap.cell? r.loc = some (.collection c)) (sink : c.sink = .bus) :
    (r.change dispatch f).Gives w out v ↔ ∃ items, f c.items = .ok (items, out) ∧
      (Act.holding out
        (Act.publishAll dispatch (changeEvents r.id c.items.length items.length))).Gives
        { w with heap := w.heap.put r.loc (some (.collection { c with items })) } () v := by
  have bus : ∀ events, Act.report dispatch c.sink events = Act.publishAll dispatch events :=
    fun _ => by rw [sink, Act.report]
  unfold Ref.change
  simp only [gives_bind, gives_get]
  constructor
  · rintro ⟨_, _, ⟨rfl, rfl⟩, gives⟩
    rw [Heap.collection?_eq_some.mpr here] at gives
    simp only [gives_bind, gives_ofExcept, gives_changeHeap, gives_pure] at gives
    obtain ⟨⟨items, out'⟩, _, ⟨made, rfl⟩, _, _, rfl, _, _, reported, rfl, rfl⟩ := gives
    refine ⟨items, made, ?_⟩
    rw [Heap.setItems_eq_put here, bus] at reported
    exact reported
  · rintro ⟨items, made, reported⟩
    refine ⟨w, w, ⟨rfl, rfl⟩, ?_⟩
    rw [Heap.collection?_eq_some.mpr here]
    simp only [gives_bind, gives_ofExcept, gives_changeHeap, gives_pure]
    refine ⟨(items, out), w, ⟨made, rfl⟩, (), _, rfl, (), v, ?_, rfl, rfl⟩
    rw [Heap.setItems_eq_put here, bus]
    exact reported

end Act

namespace World

variable {M : Nat → Prop} {qs : List LiveQuery} {q : LiveQuery} {v w : World}

theorem Queued.of_bus (queued : w.Queued qs) (queue : v.bus.queue = w.bus.queue)
    (scheduler : v.bus.scheduler = w.bus.scheduler) : v.Queued qs := by
  constructor
  · rw [scheduler]
    exact queued.jobs
  · rw [queue]
    exact queued.indexed
  · rw [queue]
    exact queued.contents

theorem Passes.put {loc : Nat} {cell cell' : Cell} (here : w.heap.cell? loc = some cell) :
    w.Passes { w with heap := w.heap.put loc (some cell') } where
  desk := rfl
  held := rfl
  dispatching := rfl
  size := Heap.size_put loc _
  tags := Nat.le_refl _
  alive l lives := (Heap.isAlive_put here l).symm.trans lives
  rooted l _ lives := (Heap.isAlive_put here l).trans lives

/-- What is left of the cells after one was put is as it was then. -/
theorem Shrinks.cell?_of_put {loc l : Nat} {cell : Option Cell}
    (shrinks : Shrinks { w with heap := w.heap.put loc cell } v)
    (lives : v.heap.isAlive l = true) : v.heap.cell? l = (w.heap.put loc cell).cell? l := by
  obtain ⟨c, found⟩ := Heap.cell?_of_isAlive lives
  exact found.trans (shrinks.cells l c found).symm

/-- A world in which a collection has been given other items, and this has been published. -/
structure Writes (w : World) (qs : List LiveQuery) (r : Ref) (items : List Value) (v : World) : Prop
    extends w.Passes v where
  scheduler : v.bus.scheduler = w.bus.scheduler
  cells : ∀ l, l ≠ r.loc → v.heap.isAlive l = true → v.heap.cell? l = w.heap.cell? l
  written : v.heap.isAlive r.loc = true → v.heap.items r = items
  bare : v.heap.fields r = w.heap.fields r
  fits : ∀ containers, w.Fits containers qs →
    (∀ x ∈ items, x.Fits containers w.heap.cells.size) → v.Fits containers qs
  waits : ∀ p : Nat × EventKey, p.2 ≠ .length → (w.bus.queue.waiting? p).isSome = true →
    (v.bus.queue.waiting? p).isSome = true
  fields : ∀ target name, v.bus.queue.waiting? (target, .field name) =
    w.bus.queue.waiting? (target, .field name)
  told : ∀ q ∈ qs, v.heap.isAlive q.result.loc = true → q.Hears (r.id, .content) →
    (v.bus.queue.waiting? (r.id, .content)).isSome = true

theorem Writes.fields_eq {r s : Ref} {items : List Value} (writes : w.Writes qs r items v)
    (lives : v.heap.isAlive s.loc = true) : v.heap.fields s = w.heap.fields s := by
  by_cases here : s.loc = r.loc
  · obtain ⟨l, i⟩ := s
    cases here
    exact writes.bare
  · exact Heap.fields_eq_of_cell? (writes.cells _ here lives)

theorem Sound.writes {r : Ref} {c : CollectionCell} {items : List Value} (sound : w.Sound M qs)
    (queued : w.Queued qs) (here : w.heap.cell? r.loc = some (.collection c))
    (fits : ∃ containers, w.Fits containers qs ∧
      ∀ x ∈ items, x.Fits containers w.heap.cells.size)
    (alive : ∀ x ∈ items, ∀ l ∈ x.places, w.heap.isAlive l = true)
    (allowed : ∀ x ∈ items, ∀ l ∈ x.places, M l →
      ∃ q ∈ qs, q.result.loc = r.loc ∧ q.Reaches M qs l)
    (entered : (Act.enqueueAll (changeEvents r.id c.items.length items.length)).Gives
      { w with heap := w.heap.put r.loc (some (.collection { c with items })) } () v) :
    v.Sound M qs ∧ v.Queued qs ∧ w.Writes qs r items v := by
  have written :
      Sound M qs { w with heap := w.heap.put r.loc (some (.collection { c with items })) } :=
    sound.put here rfl rfl fits alive allowed
  have queued' :
      Queued qs { w with heap := w.heap.put r.loc (some (.collection { c with items })) } :=
    queued.of_bus rfl rfl
  obtain ⟨shrinks, after, scheduler, waits, fields, told⟩ :=
    written.enqueueAll_tells queued' (tells_changeEvents _ _ _) entered
  refine ⟨written.shrinks shrinks, after, (Passes.put here).trans (.of_shrinks shrinks), scheduler,
    fun l other lives => ?_, fun lives => ?_, ?_, fun containers fits all => ?_, waits, fields,
    fun q member lives hears =>
      told _ (content_mem_changeEvents _ _ _) rfl q member lives hears⟩
  · rw [shrinks.cell?_of_put lives, Heap.cell?_put_of_ne (Ne.symm other)]
  · exact Heap.items_of_collection (c := { c with items })
      ((shrinks.cell?_of_put lives).trans (Heap.cell?_put_self here))
  · rw [Heap.fields_eq_nil fun x found => ?_, Heap.fields_eq_nil fun x found => ?_]
    · rw [here] at found
      cases found
    · have before := shrinks.cells r.loc _ found
      rw [Heap.cell?_put_self here] at before
      cases before
  · have put : Fits containers qs { w with
        heap := w.heap.put r.loc (some (.collection { c with items })) } := fits.put all
    exact put.shrinks shrinks

/-- A world in which a result has been computed anew. -/
structure Refreshes (w : World) (qs : List LiveQuery) (q : LiveQuery) (v : World) : Prop
    extends w.Passes v where
  refits : w.Refits qs v
  scheduler : v.bus.scheduler = w.bus.scheduler
  cells : ∀ l, l ≠ q.result.loc → v.heap.isAlive l = true → v.heap.cell? l = w.heap.cell? l
  fresh : v.heap.isAlive q.result.loc = true → q.Fresh v.heap
  waits : ∀ p : Nat × EventKey, p.2 ≠ .length → (w.bus.queue.waiting? p).isSome = true →
    (v.bus.queue.waiting? p).isSome = true
  told : ∀ r ∈ qs, v.heap.isAlive r.result.loc = true → r.Uses q.result.loc →
    (v.bus.queue.waiting? (q.result.loc + 1, .content)).isSome = true

variable {call : Caller} {dispatch : Act Unit}

/-- While events are dispatched, a refresh makes a result fresh and tells those who use it. -/
theorem Sound.refresh (sound : w.Sound M qs) (queued : w.Queued qs)
    (nested : ∀ w v, w.bus.dispatching = true → dispatch.Gives w () v → v = w)
    (dispatching : w.bus.dispatching = true) (member : q ∈ qs)
    (alive : w.heap.isAlive q.result.loc = true)
    (gives : (Act.refresh call dispatch q.result q.source q.definition q.params).Gives w () v) :
    v.Sound M qs ∧ v.Queued qs ∧ w.Refreshes qs q v := by
  simp only [Act.refresh, Act.gives_bind, Act.gives_get, Act.gives_holding, Act.gives_pure] at gives
  obtain ⟨_, _, ⟨rfl, rfl⟩, _, ⟨rows, u, computed, out, _, changed, -, rfl⟩, rfl⟩ := gives
  have begun : Sound M qs { w with held := w.heap.items q.source ++ w.held } := sound.quiet rfl
  obtain ⟨containers, fits⟩ := begun.fits
  obtain ⟨advances, more, -, fits', all⟩ := begun.rows_fit member computed fits
  have inside := begun.rows_inside member alive computed
  have computed' := begun.advances advances ⟨more, fits'⟩
  have cell : u.heap.cell? = w.heap.cell? := by rw [advances.heap.same]; rfl
  have lives : u.heap.isAlive = w.heap.isAlive := by unfold Heap.isAlive; rw [cell]
  have bus : u.bus = w.bus := by rw [advances.same]
  -- The rows are written where the items were.
  obtain ⟨c, here, -⟩ := computed'.collection member (by rwa [lives])
  obtain ⟨items, made, reported⟩ := (Act.gives_change here (computed'.sinks _ _ here)).mp changed
  obtain ⟨rfl, rfl⟩ : rows = items ∧ c.items = out := by simpa [ItemChange.replaceAll] using made
  simp only [Act.gives_holding, Act.publishAll, Act.gives_bind] at reported
  obtain ⟨v₂, ⟨_, v₃, entered, dispatched⟩, rfl⟩ := reported
  obtain ⟨after, queued', writes⟩ :=
    Sound.writes (w := { u with held := c.items ++ u.held }) (computed'.quiet rfl)
      (queued.of_bus (by rw [bus]) (by rw [bus])) here
      ⟨more, fits'.quiet rfl, all⟩
      (fun x item l held => by rw [lives]; exact (inside x item l held).2)
      (fun x item l held _ => ⟨q, member, rfl, (inside x item l held).1⟩) entered
  obtain rfl := nested _ _ (writes.dispatching.trans (by rw [bus]; exact dispatching)) dispatched
  have passes := ((Passes.of_advances advances).trans writes.toPasses.holding).holding
  have stays : ∀ l, l ≠ q.result.loc → v₂.heap.isAlive l = true →
      v₂.heap.cell? l = w.heap.cell? l := fun l other living => by
    rw [writes.cells l other living, cell]
  refine ⟨after.quiet rfl, queued'.of_bus rfl rfl, passes, ?_, ?_, stays, ?_, ?_, ?_⟩
  · intro containers fits
    obtain ⟨-, more, grown, fits, all⟩ := begun.rows_fit member computed (fits.quiet rfl)
    exact ⟨more, grown, (writes.fits more (fits.quiet rfl) all).quiet rfl⟩
  · exact writes.scheduler.trans (by rw [bus])
  · intro living call' v' heap read
    have same := begun.heap_same_of_cells after q (Nat.le_of_eq passes.size.symm) passes.tags
      fun l reaches => stays l fun self => sound.not_reaches_self member (self ▸ reaches)
    obtain ⟨rows', u', gives, alike, -⟩ := LiveQuery.rows_same (v := v')
      (fits.queries q member) fits.heap sound.read read (by rwa [heap])
      (after.starts member living qs) (q.reads_all _) computed call'
    exact ⟨rows', u', heap ▸ gives, by rwa [writes.written living]⟩
  · intro p firm waits
    exact writes.waits p firm (by rwa [bus])
  · intro r inside living uses
    have hears := (fits.queries r inside).hears_content uses
    rw [← sound.fitting member] at hears ⊢
    exact writes.told r inside living hears

end World

end ReactiveQuery
