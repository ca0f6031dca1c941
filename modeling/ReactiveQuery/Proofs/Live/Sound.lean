import ReactiveQuery.Proofs.Cell
import ReactiveQuery.Proofs.Engine.Catalog
import ReactiveQuery.Proofs.Live.Fresh

/-! Worlds with live queries.  Results are held by no record and no other collection than the
results that read them, and every living result is registered for all that its query follows. -/

namespace ReactiveQuery

namespace World

/-- All values of a world fit the run. -/
structure Fits (containers : List Value) (qs : List LiveQuery) (w : World) : Prop where
  heap : w.heap.Fits containers w.heap.cells.size
  knows : w.Knows containers
  names : ∀ e ∈ w.desk.names, e.2.Fits containers w.heap.cells.size
  queries : ∀ q ∈ qs, q.Formed containers w.heap.cells.size

/-- A world with live queries, in which the places that may change are held by no cells but
results, and by these only where their queries can come to. -/
structure Sound (M : Nat → Prop) (qs : List LiveQuery) (w : World) : Prop where
  fits : ∃ containers, w.Fits containers qs
  closed : w.Closed
  number : w.bus.nextId = w.heap.cells.size + 1
  sinks : ∀ loc cell, w.heap.cell? loc = some cell → cell.sink = .bus
  changing : ∀ q ∈ qs, M q.result.loc
  distinct : ∀ q ∈ qs, ∀ r ∈ qs, q.result.loc = r.result.loc → q = r
  earlier : ∀ q ∈ qs, ∀ l, q.Uses l → l < q.result.loc
  params : ∀ q ∈ qs, ∀ v ∈ q.params, (∀ r, v ≠ .collection r) → ∀ l ∈ v.places, ¬M l
  cached : ∀ q ∈ qs, w.cache.entries.lookup q.text = some q.definition
  results : ∀ q ∈ qs, ∀ cell, w.heap.cell? q.result.loc = some cell →
    ∃ retained, cell.retained? = some retained ∧ retained.values = q.job.values
  registered : ∀ q ∈ qs, w.heap.isAlive q.result.loc = true → ∀ d ∈ q.dependencies,
    ∃ n, w.bus.listeners[n]? = some (.invalidate q.result.id (q.route d) q.job) ∧
      n ∈ w.bus.registry.on d.topic
  listeners : ∀ (n : Nat) l, w.bus.listeners[n]? = some l →
    ∃ q ∈ qs, ∃ route, l = Listener.invalidate q.result.id route q.job
  owned : w.Owned
  guarded : ∀ loc cell, w.heap.cell? loc = some cell → ∀ x ∈ cell.contents, ∀ l ∈ x.places, M l →
    ∃ q ∈ qs, q.result.loc = loc ∧ q.Reaches M qs l

/-- A world that differs in what is held, what was logged, what waits and who dispatches. -/
def Quiet (w v : World) : Prop :=
  v = { w with
    held := v.held
    log := v.log
    bus := { w.bus with
      queue := v.bus.queue, scheduler := v.bus.scheduler, dispatching := v.bus.dispatching } }

variable {M : Nat → Prop} {qs : List LiveQuery} {w v : World} {containers : List Value}

theorem Fits.shrinks (fits : w.Fits containers qs) (shrinks : w.Shrinks v) :
    v.Fits containers qs := by
  have size := shrinks.size
  have tags : v.heap.nextTag = w.heap.nextTag := by rw [shrinks.same]
  have names : v.desk.names = w.desk.names := by rw [shrinks.same]
  have queries : v.queries = w.queries := by rw [shrinks.same]
  have cache : v.cache = w.cache := by rw [shrinks.same]
  have patterns : v.patterns = w.patterns := by rw [shrinks.same]
  constructor
  · rw [size]
    exact fits.heap.of_cells size tags shrinks.cells
  · constructor
    · rw [queries]
      exact fits.knows.drafts
    · rw [cache, size]
      exact fits.knows.definitions
    · rw [patterns]
      exact fits.knows.read
  · rw [names, size]
    exact fits.names
  · rw [size]
    exact fits.queries

theorem Fits.quiet (fits : w.Fits containers qs) (quiet : w.Quiet v) : v.Fits containers qs := by
  rw [quiet]
  exact ⟨fits.heap, ⟨fits.knows.drafts, fits.knows.definitions, fits.knows.read⟩, fits.names,
    fits.queries⟩

theorem Fits.put (fits : w.Fits containers qs) {loc : Nat} {cell : Cell}
    (contents : ∀ x ∈ cell.contents, x.Fits containers w.heap.cells.size) :
    Fits containers qs { w with heap := w.heap.put loc (some cell) } := by
  have size := Heap.size_put (h := w.heap) loc (some cell)
  refine ⟨?_, ⟨fits.knows.drafts, ?_, fits.knows.read⟩, ?_, ?_⟩
  all_goals simp only [size]
  · exact fits.heap.put contents
  · exact fits.knows.definitions
  · exact fits.names
  · exact fits.queries

/-- The run goes on: what fits it in the first world fits it in the second with more containers. -/
def Refits (w : World) (qs : List LiveQuery) (v : World) : Prop :=
  ∀ containers, w.Fits containers qs → ∃ more, containers <+: more ∧ v.Fits more qs

namespace Refits

variable {u : World}

theorem refl (w : World) (qs : List LiveQuery) : w.Refits qs w :=
  fun containers fits => ⟨containers, List.prefix_refl _, fits⟩

theorem trans (first : u.Refits qs v) (second : v.Refits qs w) : u.Refits qs w := by
  intro containers fits
  obtain ⟨more, grown, fits⟩ := first containers fits
  obtain ⟨most, grown', fits⟩ := second more fits
  exact ⟨most, grown.trans grown', fits⟩

theorem of_shrinks (shrinks : w.Shrinks v) : w.Refits qs v :=
  fun containers fits => ⟨containers, List.prefix_refl _, fits.shrinks shrinks⟩

/-- Quiet changes before and after do not matter. -/
theorem around {x : World} (refits : u.Refits qs v) (enter : w.Quiet u) (leave : v.Quiet x) :
    w.Refits qs x := by
  intro containers fits
  obtain ⟨more, grown, fits⟩ := refits containers (fits.quiet enter)
  exact ⟨more, grown, fits.quiet leave⟩

end Refits

namespace Sound

theorem fitting (sound : w.Sound M qs) {q : LiveQuery} (member : q ∈ qs) :
    q.result.id = q.result.loc + 1 := by
  obtain ⟨containers, fits⟩ := sound.fits
  exact (fits.queries q member).result.1

theorem read (sound : w.Sound M qs) : w.patterns.Reachable := by
  obtain ⟨containers, fits⟩ := sound.fits
  exact fits.knows.read

/-- Where a living result is, there is a collection with it. -/
theorem collection (sound : w.Sound M qs) {q : LiveQuery} (member : q ∈ qs)
    (alive : w.heap.isAlive q.result.loc = true) :
    ∃ c, w.heap.cell? q.result.loc = some (.collection c) ∧ c.retained.values = q.job.values := by
  obtain ⟨cell, here⟩ := Heap.cell?_of_isAlive alive
  obtain ⟨retained, kept, values⟩ := sound.results q member cell here
  cases cell with
  | record c => cases kept
  | collection c =>
    cases kept
    exact ⟨c, here, values⟩

/-- A living result keeps its source and its arguments alive. -/
theorem alive_of_mem (sound : w.Sound M qs) {q : LiveQuery} (member : q ∈ qs)
    (alive : w.heap.isAlive q.result.loc = true) {v : Value} (kept : v ∈ q.job.values) {l : Nat}
    (held : l ∈ v.places) : w.heap.isAlive l = true := by
  obtain ⟨c, here, values⟩ := sound.collection member alive
  refine sound.closed.cells _ _ here l (Cell.mem_places.mpr (.inr ⟨_, rfl, v, ?_, held⟩))
  rw [values]
  exact kept

theorem alive_of_uses (sound : w.Sound M qs) {q : LiveQuery} (member : q ∈ qs)
    (alive : w.heap.isAlive q.result.loc = true) {l : Nat} (uses : q.Uses l) :
    w.heap.isAlive l = true := by
  rcases uses with rfl | ⟨p, _, i, r, _, param, rfl⟩
  · exact sound.alive_of_mem member alive (v := .collection q.source) List.mem_cons_self
      (by simp [Value.places])
  · exact sound.alive_of_mem member alive (v := .collection r)
      (List.mem_cons_of_mem _ (List.mem_of_getElem? param)) (by simp [Value.places])

/-- The results that a living result rests on live. -/
theorem alive_of_rests (sound : w.Sound M qs) {q r : LiveQuery} (member : q ∈ qs)
    (alive : w.heap.isAlive q.result.loc = true) (rests : LiveQuery.Rests qs q r) :
    w.heap.isAlive r.result.loc = true := by
  induction rests with
  | self => exact alive
  | on member' uses _ ih => exact ih member' (sound.alive_of_uses member alive uses)

/-- What an item or a field leads to lives. -/
theorem alive_of_item (sound : w.Sound M qs) {r : Ref} {x : Value} (item : x ∈ w.heap.items r)
    {l : Nat} (held : l ∈ x.places) : w.heap.isAlive l = true := by
  obtain ⟨c, here, inside⟩ := Heap.exists_of_mem_items item
  exact sound.closed.cells _ _ here l (Cell.mem_places.mpr (.inl ⟨x, inside, held⟩))

theorem alive_of_field (sound : w.Sound M qs) {r : Ref} {e : String × Value}
    (field : e ∈ w.heap.fields r) {l : Nat} (held : l ∈ e.2.places) : w.heap.isAlive l = true := by
  obtain ⟨c, here, inside⟩ := Heap.exists_of_mem_fields field
  exact sound.closed.cells _ _ here l
    (Cell.mem_places.mpr (.inl ⟨e.2, List.mem_map.mpr ⟨e, inside, rfl⟩, held⟩))

/-- No result has fields. -/
theorem apart_of_field (sound : w.Sound M qs) {r : Ref} {e : String × Value}
    (field : e ∈ w.heap.fields r) : ∀ q ∈ qs, q.result.loc ≠ r.loc := fun q member same => by
  obtain ⟨c, here, -⟩ := Heap.exists_of_mem_fields field
  obtain ⟨_, kept, -⟩ := sound.results q member _ (same ▸ here)
  cases kept

/-- What lies in a place that a query can come to, leads to such places again. -/
theorem reaches_of_item (sound : w.Sound M qs) {q : LiveQuery} {r : Ref}
    (reaches : q.Reaches M qs r.loc) {x : Value} (item : x ∈ w.heap.items r) {l : Nat}
    (held : l ∈ x.places) : q.Reaches M qs l := by
  intro may
  obtain ⟨c, here, inside⟩ := Heap.exists_of_mem_items item
  obtain ⟨s, member, same, reaches'⟩ := sound.guarded r.loc _ here x inside l held may
  obtain ⟨t, rests, uses⟩ := reaches (same ▸ sound.changing s member)
  exact reaches'.rests (rests.step member (same ▸ uses)) may

theorem reaches_of_field (sound : w.Sound M qs) {q : LiveQuery} {r : Ref} {e : String × Value}
    (field : e ∈ w.heap.fields r) {l : Nat} (held : l ∈ e.2.places) : q.Reaches M qs l := by
  intro may
  obtain ⟨c, here, inside⟩ := Heap.exists_of_mem_fields field
  obtain ⟨s, member, same, -⟩ :=
    sound.guarded r.loc _ here e.2 (List.mem_map.mpr ⟨e, inside, rfl⟩) l held may
  exact absurd same (sound.apart_of_field field s member)

theorem starts (sound : w.Sound M qs) {q : LiveQuery} (member : q ∈ qs)
    (alive : w.heap.isAlive q.result.loc = true) (rs : List LiveQuery) :
    q.Starts fun l => q.Reaches M rs l ∧ w.heap.isAlive l = true where
  uses _ uses := ⟨fun _ => ⟨q, .self q, uses⟩, sound.alive_of_uses member alive uses⟩
  params v inside other l held :=
    ⟨fun may => absurd may (sound.params q member v inside other l held),
      sound.alive_of_mem member alive (List.mem_cons_of_mem _ inside) held⟩

/-- What does not change where a query can come to, is the same there. -/
theorem heap_same {rs : List LiveQuery} {F : Nat → String → Prop} (sound : w.Sound M qs)
    (after : v.Sound M rs) (q : LiveQuery) (size : w.heap.cells.size ≤ v.heap.cells.size)
    (tags : w.heap.nextTag ≤ v.heap.nextTag)
    (same : ∀ r : Ref, q.Reaches M qs r.loc → v.heap.isAlive r.loc = true →
      v.heap.items r = w.heap.items r ∧
      (∀ key, FieldMap.contains key (v.heap.fields r) = FieldMap.contains key (w.heap.fields r)) ∧
      ∀ key, F r.loc key →
        FieldMap.get? key (v.heap.fields r) = FieldMap.get? key (w.heap.fields r)) :
    w.heap.Same (fun l => q.Reaches M qs l ∧ v.heap.isAlive l = true) F v.heap := by
  refine ⟨size, tags, fun r here => (same r here.1 here.2).1,
    fun r key here => (same r here.1 here.2).2.1 key,
    fun r key here followed => (same r here.1 here.2).2.2 key followed,
    fun r here x item l held => ⟨sound.reaches_of_item here.1 item held, ?_⟩,
    fun r key x here followed found l held =>
      ⟨sound.reaches_of_field (FieldMap.mem_of_get? found) held, ?_⟩⟩
  · exact after.alive_of_item ((same r here.1 here.2).1 ▸ item) held
  · rw [← (same r here.1 here.2).2.2 key followed] at found
    exact after.alive_of_field (FieldMap.mem_of_get? found) held

/-- The same, where the cells themselves stay. -/
theorem heap_same_of_cells {rs : List LiveQuery} (sound : w.Sound M qs) (after : v.Sound M rs)
    (q : LiveQuery) (size : w.heap.cells.size ≤ v.heap.cells.size)
    (tags : w.heap.nextTag ≤ v.heap.nextTag)
    (same : ∀ l, q.Reaches M qs l → v.heap.isAlive l = true → v.heap.cell? l = w.heap.cell? l) :
    w.heap.Same (fun l => q.Reaches M qs l ∧ v.heap.isAlive l = true) (fun _ _ => True) v.heap := by
  refine sound.heap_same after q size tags fun r reaches lives => ?_
  have cell := same r.loc reaches lives
  refine ⟨Heap.items_eq_of_cell? cell, fun key => ?_, fun key _ => ?_⟩ <;>
    rw [Heap.fields_eq_of_cell? cell]

/-- A result that lives stays fresh while nothing changes where its query can come to. -/
theorem fresh_frame {rs : List LiveQuery} {F : Nat → String → Prop} (sound : w.Sound M qs)
    (after : v.Sound M rs) {q : LiveQuery} (member : q ∈ qs) (stays : q ∈ rs)
    (alive : v.heap.isAlive q.result.loc = true) (reads : q.Reads w.heap F)
    (same : w.heap.Same (fun l => q.Reaches M qs l ∧ v.heap.isAlive l = true) F v.heap)
    (result : v.heap.items q.result = w.heap.items q.result) (fresh : q.Fresh w.heap) :
    q.Fresh v.heap := by
  obtain ⟨containers, fits⟩ := sound.fits
  exact fresh.frame (fits.queries q member) fits.heap same (after.starts stays alive qs) reads
    result

theorem shrinks (sound : w.Sound M qs) (shrinks : w.Shrinks v) : v.Sound M qs := by
  obtain ⟨containers, fits⟩ := sound.fits
  have number : v.bus.nextId = w.bus.nextId := by rw [shrinks.same]
  have listeners : v.bus.listeners = w.bus.listeners := by rw [shrinks.same]
  have cache : v.cache = w.cache := by rw [shrinks.same]
  constructor
  case fits => exact ⟨containers, fits.shrinks shrinks⟩
  case closed => exact shrinks.closed sound.closed
  case number =>
    rw [shrinks.size, number]
    exact sound.number
  case sinks => exact fun loc cell here => sound.sinks loc cell (shrinks.cells loc cell here)
  case changing => exact sound.changing
  case distinct => exact sound.distinct
  case earlier => exact sound.earlier
  case params => exact sound.params
  case cached =>
    rw [cache]
    exact sound.cached
  case results =>
    exact fun q member cell here => sound.results q member cell (shrinks.cells _ cell here)
  case registered =>
    intro q member alive d inside
    obtain ⟨n, listens, here⟩ := sound.registered q member (shrinks.alive alive) d inside
    have fitting := sound.fitting member
    refine ⟨n, by rwa [listeners], shrinks.registered _ n _ _ _ listens ?_ here⟩
    rwa [fitting]
  case listeners =>
    rw [listeners]
    exact sound.listeners
  case owned => exact shrinks.owned sound.owned
  case guarded => exact fun loc cell here => sound.guarded loc cell (shrinks.cells loc cell here)

/-- A world stays sound while its cells, names and listeners stay. -/
theorem of_cells (sound : w.Sound M qs) (fits : ∃ containers, v.Fits containers qs)
    (cells : v.heap.cells = w.heap.cells) (names : v.desk.names = w.desk.names)
    (number : v.bus.nextId = w.bus.nextId) (registry : v.bus.registry = w.bus.registry)
    (listeners : v.bus.listeners = w.bus.listeners)
    (known : ∀ text d, w.cache.entries.lookup text = some d →
      v.cache.entries.lookup text = some d) :
    v.Sound M qs := by
  have same : v.heap.cell? = w.heap.cell? := by
    unfold Heap.cell?
    rw [cells]
  have alive : v.heap.isAlive = w.heap.isAlive := by
    unfold Heap.isAlive
    rw [same]
  constructor
  case fits => exact fits
  case closed =>
    constructor
    · rw [names, alive]
      exact sound.closed.names
    · rw [same, alive]
      exact sound.closed.cells
  case number =>
    rw [number, cells]
    exact sound.number
  case sinks =>
    rw [same]
    exact sound.sinks
  case changing => exact sound.changing
  case distinct => exact sound.distinct
  case earlier => exact sound.earlier
  case params => exact sound.params
  case cached => exact fun q member => known _ _ (sound.cached q member)
  case results =>
    rw [same]
    exact sound.results
  case registered =>
    rw [alive, registry, listeners]
    exact sound.registered
  case listeners =>
    rw [listeners]
    exact sound.listeners
  case owned =>
    unfold Owned
    rw [same, listeners]
    exact sound.owned
  case guarded =>
    rw [same]
    exact sound.guarded

theorem quiet (sound : w.Sound M qs) (quiet : w.Quiet v) : v.Sound M qs := by
  obtain ⟨containers, fits⟩ := sound.fits
  have fits := fits.quiet quiet
  rw [quiet] at fits ⊢
  exact sound.of_cells ⟨containers, fits⟩ rfl rfl rfl rfl rfl fun _ _ => id

/-- Other contents in a cell keep a world sound that allows them there. -/
theorem put (sound : w.Sound M qs) {loc : Nat} {cell cell' : Cell}
    (here : w.heap.cell? loc = some cell) (sink : cell'.sink = cell.sink)
    (kept : cell'.retained? = cell.retained?)
    (fits : ∃ containers, w.Fits containers qs ∧
      ∀ x ∈ cell'.contents, x.Fits containers w.heap.cells.size)
    (alive : ∀ x ∈ cell'.contents, ∀ l ∈ x.places, w.heap.isAlive l = true)
    (allowed : ∀ x ∈ cell'.contents, ∀ l ∈ x.places, M l →
      ∃ q ∈ qs, q.result.loc = loc ∧ q.Reaches M qs l) :
    Sound M qs { w with heap := w.heap.put loc (some cell') } := by
  have living : ∀ l, (w.heap.put loc (some cell')).isAlive l = w.heap.isAlive l :=
    Heap.isAlive_put here
  have size := Heap.size_put (h := w.heap) loc (some cell')
  have found : ∀ {l c}, (w.heap.put loc (some cell')).cell? l = some c →
      (l = loc ∧ c = cell') ∨ w.heap.cell? l = some c := fun {l c} at' => by
    rw [Heap.cell?_put] at at'
    split at at'
    · next same => exact .inl ⟨same.1.symm, (Option.some.inj at').symm⟩
    · exact .inr at'
  constructor
  case fits =>
    obtain ⟨containers, fits, contents⟩ := fits
    exact ⟨containers, fits.put contents⟩
  case closed =>
    constructor
    · intro l named
      exact (living l).trans (sound.closed.names l named)
    · intro l c at' k held
      rw [living k]
      rcases found at' with ⟨rfl, rfl⟩ | at'
      · rcases Cell.mem_places.mp held with ⟨x, inside, held⟩ | ⟨r, retained, x, inside, held⟩
        · exact alive x inside k held
        · exact sound.closed.cells _ _ here k
            (Cell.mem_places.mpr (.inr ⟨r, kept ▸ retained, x, inside, held⟩))
      · exact sound.closed.cells l c at' k held
  case number => exact sound.number.trans (by rw [size])
  case sinks =>
    intro l c at'
    rcases found at' with ⟨rfl, rfl⟩ | at'
    · exact sink.trans (sound.sinks _ _ here)
    · exact sound.sinks l c at'
  case changing => exact sound.changing
  case distinct => exact sound.distinct
  case earlier => exact sound.earlier
  case params => exact sound.params
  case cached => exact sound.cached
  case results =>
    intro q member c at'
    rcases found at' with ⟨same, rfl⟩ | at'
    · rw [kept]
      exact sound.results q member cell (same ▸ here)
    · exact sound.results q member c at'
  case registered =>
    intro q member lives
    exact sound.registered q member ((living _).symm.trans lives)
  case listeners => exact sound.listeners
  case owned =>
    intro l c at'
    rcases found at' with ⟨rfl, rfl⟩ | at'
    · cases cell with
      | record _ => cases kept
      | collection c' =>
        rw [show c.retained = c'.retained from Option.some.inj kept]
        exact sound.owned _ c' here
    · exact sound.owned l c at'
  case guarded =>
    intro l c at'
    rcases found at' with ⟨rfl, rfl⟩ | at'
    · exact allowed
    · exact sound.guarded l c at'

end Sound

end World

end ReactiveQuery
