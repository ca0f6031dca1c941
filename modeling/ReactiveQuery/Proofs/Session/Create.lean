import ReactiveQuery.Proofs.Live.Attach
import ReactiveQuery.Proofs.Session.Batch

/-! Commands that make something: records, collections, names and live queries. -/

namespace ReactiveQuery

namespace World

variable {D : Prop} {M : Nat → Prop} {qs : List LiveQuery} {containers more : List Value}
  {u v w : World} {q : LiveQuery}

theorem Idle.of_bus (idle : w.Idle) (queue : v.bus.queue = w.bus.queue)
    (scheduler : v.bus.scheduler = w.bus.scheduler)
    (dispatching : v.bus.dispatching = w.bus.dispatching) : v.Idle :=
  ⟨dispatching.trans idle.rests, by rw [scheduler, idle.clean], by rw [scheduler, idle.rested],
    by rw [queue, idle.silent]⟩

namespace Resting

theorem learns (resting : Resting D M qs containers w) (learns : w.Learns v)
    (grown : containers <+: more) (heap : v.heap.Fits more w.heap.cells.size)
    (knows : v.Knows more) : Resting D M qs more v := by
  have fits := resting.fits.learns grown learns heap knows
  have cell : v.heap.cell? = w.heap.cell? := by
    rw [learns.heap.same]
    rfl
  have size : v.heap.cells.size = w.heap.cells.size := by rw [learns.heap.same]
  have bus : v.bus = w.bus := by rw [learns.same]
  refine ⟨resting.sound.learns learns ⟨more, fits⟩,
    resting.queued.of_bus (by rw [bus]) (by rw [bus]), fits,
    resting.idle.of_bus (by rw [bus]) (by rw [bus]) (by rw [bus]),
    fun asked q member alive => ?_⟩
  have alive : w.heap.isAlive q.result.loc = true := by
    unfold Heap.isAlive at alive ⊢
    rwa [cell] at alive
  exact resting.sound.fresh_stay member alive (Nat.le_of_eq size.symm) learns.heap.tags
    (fun l _ => by rw [cell]) (resting.fresh asked q member alive)

theorem withCell (resting : Resting D M qs containers w) {cell : Cell}
    (may : ∀ x ∈ cell.contents, w.May M containers x) (sink : cell.sink = .bus)
    (bare : ∀ r, cell.retained? = some r → r = {}) :
    Resting D M qs containers (w.withCell cell) := by
  refine ⟨resting.sound.withCell ⟨containers, resting.fits, may⟩ sink bare,
    resting.queued.of_bus rfl rfl, resting.fits.withCell fun x member => (may x member).fits,
    resting.idle.of_bus rfl rfl rfl, fun asked q member alive => ?_⟩
  have inside := (resting.fits.queries q member).result.2
  have alive : w.heap.isAlive q.result.loc = true := by
    obtain ⟨c, here⟩ := Heap.cell?_of_isAlive alive
    rcases Heap.cell?_allocate_cases w.bus.nextId here with ⟨same, -⟩ | here
    · exact absurd same (Nat.ne_of_lt inside)
    · exact Heap.isAlive_of_cell? here
  refine resting.sound.fresh_stay member alive ?_ (Nat.le_refl _)
    (fun l lives => Heap.cell?_allocate_of_alive w.bus.nextId lives)
    (resting.fresh asked q member alive)
  rw [World.withCell, Heap.size_allocate]
  exact Nat.le_succ _

theorem withDesk (resting : Resting D M qs containers w) {desk : Desk}
    (has : ∀ e ∈ desk.names, w.Has containers e.2) :
    Resting D M qs containers { w with desk } :=
  ⟨resting.sound.withDesk ⟨containers, resting.fits, has⟩, resting.queued.of_bus rfl rfl,
    ⟨resting.fits.heap, ⟨resting.fits.knows.drafts, resting.fits.knows.definitions,
      resting.fits.knows.read⟩, fun e member => (has e member).fits, resting.fits.queries⟩,
    resting.idle.of_bus rfl rfl rfl, resting.fresh⟩

theorem holding (resting : Resting D M qs containers w) (values : List Value) :
    Resting D M qs containers { w with held := values } :=
  ⟨resting.sound.quiet rfl, resting.queued.of_bus rfl rfl, resting.fits.quiet rfl,
    resting.idle.of_bus rfl rfl rfl, resting.fresh⟩

end Resting

variable {call : Caller} {dispatch : Act Unit}

/-- The first refresh of a new result, in a batch of its own. -/
theorem Resting.of_first_refresh (settles : Settles dispatch) (sound : w.Sound M (q :: qs))
    (queued : w.Queued (q :: qs)) (fits : w.Fits containers (q :: qs)) (idle : w.Idle)
    (fresh : D → ∀ r ∈ qs, w.heap.isAlive r.result.loc = true → r.Fresh w.heap)
    (last : ∀ r ∈ qs, r.result.loc < q.result.loc) (alive : w.heap.isAlive q.result.loc = true)
    (gives : (Act.batch dispatch (Act.refresh call dispatch q.result q.source q.definition
      q.params)).Gives w () v) : Turns (Resting D M (q :: qs)) containers w v := by
  obtain ⟨u, refreshed, dispatched⟩ := Act.gives_batch_of_idle idle.rests gives
  have opened : Sound M (q :: qs) { w with bus := { w.bus with dispatching := true } } :=
    sound.quiet rfl
  obtain ⟨sound', queued', refreshes⟩ := opened.refresh (queued.of_bus rfl rfl) settles.nested rfl
    List.mem_cons_self alive refreshed
  have passes := refreshes.toPasses.within
  rw [idle.rests] at passes
  obtain ⟨more, grown, fits'⟩ := refreshes.refits containers (fits.quiet rfl)
  have turns : Turns (Resting D M (q :: qs)) more
      { u with bus := { u.bus with dispatching := false } } v := by
    refine Resting.of_works settles (sound'.quiet rfl) (queued'.of_bus rfl rfl) (fits'.quiet rfl)
      rfl (by rw [← idle.clean]; exact congrArg _ refreshes.scheduler)
      (by rw [← idle.rested]; exact congrArg _ refreshes.scheduler) (fun asked r member lives => ?_)
      dispatched
    rcases List.mem_cons.mp member with rfl | old
    · exact .inl (refreshes.fresh lives)
    · have other : r.result.loc ≠ q.result.loc := Nat.ne_of_lt (last r old)
      refine .inl (sound.fresh_cells sound' member member lives (Nat.le_of_eq refreshes.size.symm)
        refreshes.tags (fun l reaches => refreshes.cells l ?_)
        (Heap.items_eq_of_cell? (refreshes.cells _ other lives))
        (fresh asked r old (refreshes.alive _ lives)))
      rintro rfl
      have may := sound.changing q List.mem_cons_self
      exact Nat.lt_asymm (last r old) (sound.lt_of_reaches member may reaches)
  obtain ⟨passes', most, grown', after⟩ := turns
  exact ⟨passes.trans passes', most, grown.trans grown', after⟩

theorem Passes.of_attaches {c : CollectionCell} (attaches : w.Attaches q c v)
    (here : w.heap.cell? q.result.loc = some (.collection c)) : w.Passes v := by
  have lives := attaches.isAlive here
  obtain ⟨_, same, -⟩ := attaches.same
  constructor
  case desk => rw [same]
  case held => rw [same]
  case dispatching => rw [same]
  case size => exact attaches.size
  case tags => exact Nat.le_of_eq attaches.tags.symm
  case alive => exact fun l alive => by rwa [lives] at alive
  case rooted => exact fun l _ alive => by rwa [lives]

/-- A live query is attached to an empty collection, which then becomes its first result. -/
theorem Resting.attach (settles : Settles dispatch) (resting : Resting D M qs containers w)
    {c : CollectionCell} (here : w.heap.cell? q.result.loc = some (.collection c))
    (empty : c.items = []) (bare : c.retained = {})
    (formed : q.Formed containers w.heap.cells.size)
    (last : ∀ r ∈ qs, r.result.loc < q.result.loc) (may : M q.result.loc)
    (earlier : ∀ l, q.Uses l → l < q.result.loc)
    (params : ∀ x ∈ q.params, (∀ r, x ≠ .collection r) → ∀ l ∈ x.places, ¬M l)
    (cached : w.cache.entries.lookup q.text = some q.definition)
    (alive : ∀ x ∈ q.job.values, ∀ l ∈ x.places, w.heap.isAlive l = true)
    (follows : Dependency.all w.heap q.source q.definition q.params = some q.dependencies)
    (attached : (Act.attach q.result q.source q.definition q.params).Gives w () u)
    (gives : (Act.batch dispatch (Act.refresh call dispatch q.result q.source q.definition
      q.params)).Gives u () v) : Turns (Resting D M (q :: qs)) containers w v := by
  have attaches := Act.gives_attach here bare follows attached
  have sound := resting.sound.attach attaches here empty resting.fits formed last may earlier params
    cached alive
  have lives := attaches.isAlive here
  obtain ⟨_, same, -⟩ := attaches.same
  have queue : u.bus.queue = w.bus.queue := by rw [same]
  have scheduler : u.bus.scheduler = w.bus.scheduler := by rw [same]
  have queued : u.Queued (q :: qs) := by
    refine ⟨fun e member => ?_, by rw [queue]; exact resting.queued.indexed,
      by rw [queue]; exact resting.queued.contents⟩
    rw [scheduler, resting.idle.clean, resting.idle.rested] at member
    cases member
  have idle : u.Idle := resting.idle.of_bus queue scheduler (by rw [same])
  have turns : Turns (Resting D M (q :: qs)) containers u v := by
    refine Resting.of_first_refresh settles sound queued
      (attaches.fits resting.fits formed here) idle
      (fun asked r member living => ?_) last ?_ gives
    · rw [lives] at living
      refine resting.sound.fresh_cells sound member (List.mem_cons_of_mem _ member)
        (by rwa [lives]) (Nat.le_of_eq attaches.size.symm) (Nat.le_of_eq attaches.tags.symm)
        (fun l reaches _ => attaches.cell?_of_ne ?_)
        (Heap.items_eq_of_cell? (attaches.cell?_of_ne (Nat.ne_of_lt (last r member))))
        (resting.fresh asked r member living)
      rintro rfl
      exact Nat.lt_asymm (last r member) (resting.sound.lt_of_reaches member may reaches)
    · rw [lives]
      exact Heap.isAlive_of_cell? here
  exact ⟨(Passes.of_attaches attaches here).trans turns.passes, turns.holds⟩

/-- What a live query is once it has been made: its result is in a new place, and the rest is as
asked. -/
structure Makes (place : Nat) (source : Ref) (text : String) (params : List Value) (result : Ref)
    (v : World) (q : LiveQuery) : Prop where
  made : q.result = result
  place : q.result.loc = place
  base : q.source = source
  asked : q.text = text
  given : q.params = params
  known : v.cache.entries.lookup text = some q.definition
  follows : Dependency.all v.heap source q.definition params = some q.dependencies

theorem gives_newCollection {items : List Value} {r : Ref}
    (gives : (Act.newCollection items).Gives w r v) :
    r = ⟨w.heap.cells.size, w.bus.nextId⟩ ∧
      v = w.withCell (.collection { id := w.bus.nextId, items, sink := .bus }) := by
  simp only [Act.newCollection, Act.nextId, Act.gives_bind, Act.gives_onBus,
    Act.gives_onHeap] at gives
  obtain ⟨_, _, ⟨rfl, rfl⟩, rfl, rfl⟩ := gives
  exact ⟨rfl, rfl⟩

theorem gives_newRecord {fields : FieldMap Value} {r : Ref}
    (gives : (Act.newRecord fields).Gives w r v) :
    r = ⟨w.heap.cells.size, w.bus.nextId⟩ ∧
      v = w.withCell (.record { id := w.bus.nextId, fields, sink := .bus }) := by
  simp only [Act.newRecord, Act.nextId, Act.gives_bind, Act.gives_onBus, Act.gives_onHeap] at gives
  obtain ⟨_, _, ⟨rfl, rfl⟩, rfl, rfl⟩ := gives
  exact ⟨rfl, rfl⟩

theorem Makes.withHeld {place : Nat} {source result : Ref} {text : String} {params : List Value}
    (makes : Makes place source text params result v q) (values : List Value) :
    Makes place source text params result { v with held := values } q :=
  ⟨makes.made, makes.place, makes.base, makes.asked, makes.given, makes.known, makes.follows⟩

theorem Has.reading {x : Value} (has : w.Has containers x)
    (reading : w.Reading qs containers more v) : v.Has more x where
  fits := by
    rw [reading.size]
    exact has.fits.later reading.grown (Nat.le_refl _)
  alive l held := by
    rw [reading.isAlive]
    exact has.alive l held

theorem Has.withCell {x : Value} (has : w.Has containers x) (cell : Cell) :
    (w.withCell cell).Has containers x where
  fits := by
    rw [World.withCell, Heap.size_allocate]
    exact has.fits.later (List.prefix_refl _) (Nat.le_succ _)
  alive l held := Heap.isAlive_allocate w.bus.nextId (has.alive l held)

theorem Has.learns {x : Value} (has : w.Has containers x) (learns : w.Learns v)
    (grown : containers <+: more) : v.Has more x where
  fits := by
    have size : v.heap.cells.size = w.heap.cells.size := by rw [learns.heap.same]
    rw [size]
    exact has.fits.later grown (Nat.le_refl _)
  alive l held := by
    have cell : v.heap.isAlive = w.heap.isAlive := by
      rw [learns.heap.same]
      rfl
    rw [cell]
    exact has.alive l held

/-- The new cell is there. -/
theorem has_withCell (sound : w.Sound M qs) (cell : Cell) (containers : List Value) :
    (w.withCell cell).heap.cell? w.heap.cells.size = some cell ∧
      (w.withCell cell).Has containers (.collection ⟨w.heap.cells.size, w.bus.nextId⟩) ∧
      (w.withCell cell).Has containers (.record ⟨w.heap.cells.size, w.bus.nextId⟩) := by
  have here : (w.withCell cell).heap.cell? w.heap.cells.size = some cell := by
    rw [World.withCell, Heap.cell?_allocate, if_pos rfl]
  have size : (w.withCell cell).heap.cells.size = w.heap.cells.size + 1 :=
    Heap.size_allocate w.bus.nextId ..
  have fits : w.bus.nextId = w.heap.cells.size + 1 ∧
      w.heap.cells.size < (w.withCell cell).heap.cells.size := ⟨sound.number, by omega⟩
  refine ⟨here, ⟨fits, fun l held => ?_⟩, ⟨fits, fun l held => ?_⟩⟩
  all_goals
    obtain rfl : l = w.heap.cells.size := by simpa [Value.places] using held
    exact Heap.isAlive_of_cell? here

/-- A live query that is asked for comes to those there are, and its result is fresh. -/
theorem Resting.live (settles : Settles dispatch) (resting : Resting D M qs containers w)
    {source result : Ref} {text : String} {params : List Value}
    (base : w.Has containers (.collection source)) (given : ∀ x ∈ params, w.Has containers x)
    (apart : ∀ x ∈ params, (∀ r, x ≠ .collection r) → ∀ l ∈ x.places, ¬M l)
    (may : M w.heap.cells.size)
    (gives : (Act.live call dispatch source text params).Gives w result v) :
    v.held = w.held ∧ v.desk = w.desk ∧ ∃ more q, containers <+: more ∧
      Resting D M (q :: qs) more v ∧
      Makes w.heap.cells.size source text params result v q ∧ v.Has more (.collection result) := by
  simp only [Act.live, Act.gives_bind, Act.gives_pure, Act.gives_holding] at gives
  obtain ⟨d, w₁, defined, _, _, created, _, _, ⟨x, ⟨_, y, attached, refreshed⟩, rfl⟩, rfl, rfl⟩ :=
    gives
  obtain ⟨more, grown, heap, knows, learns, sound, known⟩ :=
    Act.gives_definition resting.fits.heap resting.fits.knows defined
  have resting₁ := resting.learns learns grown heap knows
  have size : w₁.heap.cells.size = w.heap.cells.size := by rw [learns.heap.same]
  obtain ⟨rfl, rfl⟩ := gives_newCollection created
  -- The result is there, empty, and everything else as it was.
  generalize cell : CollectionCell.mk w₁.bus.nextId [] .bus {} = c at *
  have resting₂ : Resting D M qs more (w₁.withCell (.collection c)) := by
    subst cell
    refine resting₁.withCell (by simp [Cell.contents]) rfl ?_
    rintro _ ⟨⟩
    rfl
  obtain ⟨here, has, -⟩ := has_withCell resting₁.sound (.collection c) more
  have base₁ := base.learns learns grown
  have given₁ := fun x member => (given x member).learns learns grown
  have later : w₁.heap.cells.size ≤ (w₁.withCell (.collection c)).heap.cells.size := by
    rw [World.withCell, Heap.size_allocate]
    exact Nat.le_succ _
  obtain ⟨ds, follows⟩ := Act.follows_of_attach attached
  let q : LiveQuery := ⟨⟨w₁.heap.cells.size, w₁.bus.nextId⟩, source, text, params, d, ds⟩
  have formed : q.Formed more (w₁.withCell (.collection c)).heap.cells.size :=
    ⟨has.fits, (base₁.withCell _).fits, fun x member => ((given₁ x member).withCell _).fits,
      sound.later (List.prefix_refl _) (size ▸ later), _, follows⟩
  have earlier : ∀ l, q.Uses l → l < q.result.loc := by
    rintro l (rfl | ⟨p, _, i, r, _, param, rfl⟩)
    · exact base₁.fits.2
    · exact (given₁ _ (List.mem_of_getElem? param)).fits.2
  have alive : ∀ x ∈ q.job.values, ∀ l ∈ x.places,
      (w₁.withCell (.collection c)).heap.isAlive l = true :=
    List.forall_mem_cons.mpr ⟨(base₁.withCell _).alive, fun x member =>
      ((given₁ x member).withCell _).alive⟩
  have begun := resting₂.holding
    (.collection q.result :: .collection source :: params ++ (w₁.withCell (.collection c)).held)
  have turns := Resting.attach (q := q) settles begun here (by rw [← cell])
    (by rw [← cell]) formed (fun r member => (resting₁.fits.queries r member).result.2)
    (size.symm ▸ may : M w₁.heap.cells.size) earlier apart known alive follows attached refreshed
  obtain ⟨passes, most, grown', after⟩ := turns
  have held : w₁.held = w.held := by rw [learns.same]
  have desk : w₁.desk = w.desk := by rw [learns.same]
  refine ⟨held, passes.desk.trans desk, most, q, grown.trans grown', after.holding _,
    ⟨rfl, size, rfl, rfl, rfl, after.sound.cached q List.mem_cons_self, ?_⟩, ?_⟩
  · rw [← follows]
    exact Dependency.all_plain sound.paths source params _ _
  · exact ((has.withHeld _).passes passes grown' List.mem_cons_self).withHeld _

end World

end ReactiveQuery
