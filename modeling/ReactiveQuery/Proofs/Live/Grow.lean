import ReactiveQuery.Proofs.Live.Refresh

/-! Worlds that grow: by a record or a collection, by a compiled query, or by a name.  Nothing that
lived changes, so what was fresh stays fresh. -/

namespace ReactiveQuery

namespace Heap

variable {h : Heap} {cell : Cell} (id : Nat)

theorem size_allocate (h : Heap) (cell : Cell) :
    (h.allocate id cell).2.cells.size = h.cells.size + 1 := by
  simp [allocate]

theorem cell?_allocate_of_alive {l : Nat} (alive : h.isAlive l = true) :
    (h.allocate id cell).2.cell? l = h.cell? l := by
  obtain ⟨_, here⟩ := cell?_of_isAlive alive
  rw [cell?_allocate, if_neg (Nat.ne_of_lt (lt_size_of_cell? here))]

theorem isAlive_allocate {l : Nat} (alive : h.isAlive l = true) :
    (h.allocate id cell).2.isAlive l = true := by
  unfold isAlive
  rwa [cell?_allocate_of_alive id alive]

/-- A cell is the new one or one that was there. -/
theorem cell?_allocate_cases {l : Nat} {c : Cell}
    (here : (h.allocate id cell).2.cell? l = some c) :
    l = h.cells.size ∧ c = cell ∨ h.cell? l = some c := by
  rw [cell?_allocate] at here
  split at here
  · next same => exact .inl ⟨same, (Option.some.inj here).symm⟩
  · exact .inr here

theorem Fits.allocate {containers : List Value} (fits : h.Fits containers h.cells.size)
    (contents : ∀ x ∈ cell.contents, x.Fits containers h.cells.size) :
    (h.allocate id cell).2.Fits containers (h.allocate id cell).2.cells.size where
  sized := rfl
  tags := fits.tags
  items r v member := by
    rw [size_allocate id]
    obtain ⟨c, here, inside⟩ := exists_of_mem_items member
    refine Value.Fits.later (List.prefix_refl _) (Nat.le_succ _) ?_
    rcases cell?_allocate_cases id here with ⟨-, rfl⟩ | here
    · exact contents v inside
    · exact fits.items r v (by rwa [items_of_collection here])
  fields r e member := by
    rw [size_allocate id]
    obtain ⟨c, here, inside⟩ := exists_of_mem_fields member
    refine Value.Fits.later (List.prefix_refl _) (Nat.le_succ _) ?_
    rcases cell?_allocate_cases id here with ⟨-, rfl⟩ | here
    · exact contents e.2 (List.mem_map.mpr ⟨e, inside, rfl⟩)
    · exact fits.fields r e (by rwa [fields_of_record here])

end Heap

namespace World

variable {M : Nat → Prop} {qs : List LiveQuery} {u v w : World} {containers more : List Value}

/-- A value that a world can go on with. -/
structure Has (w : World) (containers : List Value) (x : Value) : Prop where
  fits : x.Fits containers w.heap.cells.size
  alive : ∀ l ∈ x.places, w.heap.isAlive l = true

/-- A value that may be written. -/
structure May (w : World) (M : Nat → Prop) (containers : List Value) (x : Value) : Prop
    extends w.Has containers x where
  apart : ∀ l ∈ x.places, ¬M l

theorem Has.later {x : Value} (has : w.Has containers x) (grown : containers <+: more) :
    w.Has more x := ⟨has.fits.later grown (Nat.le_refl _), has.alive⟩

theorem Has.withHeld {x : Value} (has : w.Has containers x) (values : List Value) :
    Has { w with held := values } containers x := ⟨has.fits, has.alive⟩

/-- A result that lives stays fresh while everything stays that lived. -/
theorem Sound.fresh_stay (sound : w.Sound M qs) {q : LiveQuery} (member : q ∈ qs)
    (alive : w.heap.isAlive q.result.loc = true) (size : w.heap.cells.size ≤ v.heap.cells.size)
    (tags : w.heap.nextTag ≤ v.heap.nextTag)
    (same : ∀ l, w.heap.isAlive l = true → v.heap.cell? l = w.heap.cell? l)
    (fresh : q.Fresh w.heap) : q.Fresh v.heap := by
  obtain ⟨containers, fits⟩ := sound.fits
  have own := sound.heap_same_of_cells sound q (Nat.le_refl _) (Nat.le_refl _) fun _ _ _ => rfl
  refine fresh.frame (fits.queries q member) fits.heap ⟨size, tags, fun r here => ?_,
    fun r key here => ?_, fun r key here _ => ?_, own.itemsInside, own.fieldInside⟩
    (sound.starts member alive qs) (q.reads_all _) (Heap.items_eq_of_cell? (same _ alive))
  · exact Heap.items_eq_of_cell? (same _ here.2)
  · rw [Heap.fields_eq_of_cell? (same _ here.2)]
  · rw [Heap.fields_eq_of_cell? (same _ here.2)]

/-- A world with one more cell, under the next number. -/
def withCell (w : World) (cell : Cell) : World :=
  { w with
    heap := (w.heap.allocate w.bus.nextId cell).2
    bus := { w.bus with nextId := w.bus.nextId + 1 } }

theorem Fits.withCell (fits : w.Fits containers qs) {cell : Cell}
    (contents : ∀ x ∈ cell.contents, x.Fits containers w.heap.cells.size) :
    (w.withCell cell).Fits containers qs := by
  have size : (w.withCell cell).heap.cells.size = w.heap.cells.size + 1 :=
    Heap.size_allocate w.bus.nextId ..
  refine ⟨fits.heap.allocate w.bus.nextId contents,
    ⟨fits.knows.drafts, ?_, fits.knows.read⟩, ?_, ?_⟩ <;> rw [size]
  · exact fun e member =>
      (fits.knows.definitions e member).later (List.prefix_refl _) (Nat.le_succ _)
  · exact fun e member => (fits.names e member).later (List.prefix_refl _) (Nat.le_succ _)
  · exact fun q member => (fits.queries q member).later (List.prefix_refl _) (Nat.le_succ _)

/-- A new cell keeps a world sound that allows its contents. -/
theorem Sound.withCell (sound : w.Sound M qs) {cell : Cell}
    (fits : ∃ containers, w.Fits containers qs ∧ ∀ x ∈ cell.contents, w.May M containers x)
    (sink : cell.sink = .bus) (bare : ∀ r, cell.retained? = some r → r = {}) :
    (w.withCell cell).Sound M qs := by
  obtain ⟨containers, fits, may⟩ := fits
  have stays : ∀ {l}, w.heap.isAlive l = true → (w.withCell cell).heap.isAlive l = true :=
    Heap.isAlive_allocate w.bus.nextId
  have found : ∀ {l c}, (w.withCell cell).heap.cell? l = some c →
      l = w.heap.cells.size ∧ c = cell ∨ w.heap.cell? l = some c :=
    Heap.cell?_allocate_cases w.bus.nextId
  have inside : ∀ q ∈ qs, q.result.loc ≠ w.heap.cells.size := fun q member =>
    Nat.ne_of_lt (fits.queries q member).result.2
  constructor
  case fits => exact ⟨containers, fits.withCell fun x member => (may x member).fits⟩
  case closed =>
    constructor
    · exact fun l named => stays (sound.closed.names l named)
    · intro l c here k held
      rcases found here with ⟨-, rfl⟩ | here
      · rcases Cell.mem_places.mp held with ⟨x, member, held⟩ | ⟨r, retained, x, member, -⟩
        · exact stays ((may x member).alive k held)
        · rw [bare r retained] at member
          cases member
      · exact stays (sound.closed.cells l c here k held)
  case number =>
    have size : (w.withCell cell).heap.cells.size = w.heap.cells.size + 1 :=
    Heap.size_allocate w.bus.nextId ..
    rw [size, ← sound.number]
    rfl
  case sinks =>
    intro l c here
    rcases found here with ⟨-, rfl⟩ | here
    · exact sink
    · exact sound.sinks l c here
  case changing => exact sound.changing
  case distinct => exact sound.distinct
  case earlier => exact sound.earlier
  case params => exact sound.params
  case cached => exact sound.cached
  case results =>
    intro q member c here
    rcases found here with ⟨same, -⟩ | here
    · exact absurd same (inside q member)
    · exact sound.results q member c here
  case registered =>
    intro q member alive
    refine sound.registered q member ?_
    obtain ⟨c, here⟩ := Heap.cell?_of_isAlive alive
    rcases found here with ⟨same, -⟩ | here
    · exact absurd same (inside q member)
    · exact Heap.isAlive_of_cell? here
  case listeners => exact sound.listeners
  case owned =>
    intro l c here
    rcases found here with ⟨-, rfl⟩ | here
    · rw [bare c.retained rfl]
      nofun
    · exact sound.owned l c here
  case guarded =>
    intro l c here
    rcases found here with ⟨-, rfl⟩ | here
    · exact fun x member k held maybe => absurd maybe ((may x member).apart k held)
    · exact sound.guarded l c here

/-- A world that has compiled a query goes on as it was. -/
theorem Sound.learns (sound : w.Sound M qs) (learns : w.Learns v)
    (fits : ∃ containers, v.Fits containers qs) : v.Sound M qs := by
  refine sound.of_cells fits ?_ ?_ ?_ ?_ ?_ learns.known
  · rw [learns.heap.same]
  all_goals rw [learns.same]

theorem Fits.learns (fits : w.Fits containers qs) (grown : containers <+: more)
    (learns : w.Learns v) (heap : v.heap.Fits more w.heap.cells.size) (knows : v.Knows more) :
    v.Fits more qs := by
  have size : v.heap.cells.size = w.heap.cells.size := by rw [learns.heap.same]
  exact fits.later grown (by rwa [size]) (Nat.le_of_eq size.symm) knows (by rw [learns.same])

/-- Names may be bound to what lives, and be dropped. -/
theorem Sound.withDesk (sound : w.Sound M qs) {desk : Desk}
    (fits : ∃ containers, w.Fits containers qs ∧ ∀ e ∈ desk.names, w.Has containers e.2) :
    Sound M qs { w with desk } := by
  obtain ⟨containers, fits, has⟩ := fits
  constructor
  case fits => exact ⟨containers, fits.heap, ⟨fits.knows.drafts, fits.knows.definitions,
    fits.knows.read⟩, fun e member => (has e member).fits, fits.queries⟩
  case closed =>
    refine ⟨fun l named => ?_, sound.closed.cells⟩
    obtain ⟨x, listed, held⟩ := Value.mem_placesOfItems.mp named
    obtain ⟨e, member, rfl⟩ := List.mem_map.mp listed
    exact (has e member).alive l held
  case number => exact sound.number
  case sinks => exact sound.sinks
  case changing => exact sound.changing
  case distinct => exact sound.distinct
  case earlier => exact sound.earlier
  case params => exact sound.params
  case cached => exact sound.cached
  case results => exact sound.results
  case registered => exact sound.registered
  case listeners => exact sound.listeners
  case owned => exact sound.owned
  case guarded => exact sound.guarded

end World

end ReactiveQuery
