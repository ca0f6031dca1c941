import ReactiveQuery.Proofs.Change.Queue
import ReactiveQuery.Proofs.Live.Sound

/-! Stale results.  While events and jobs are worked off, every result is fresh, or it rests on one
for which a job or an event waits. -/

namespace ReactiveQuery

namespace LiveQuery

/-- A job waits for the query, or an event that it hears of does, here or in the queue.  The length
of a collection is not counted on: its content is told along with it. -/
def Due (es : List Event) (w : World) (q : LiveQuery) : Prop :=
  w.bus.scheduler.isDirty q.result.id = true ∨
    ∃ p, q.Hears p ∧ p.2 ≠ .length ∧
      ((∃ e ∈ es, e.pair = p) ∨ (w.bus.queue.waiting? p).isSome = true)

/-- A stale result rests on one that is due. -/
def Tracked (qs : List LiveQuery) (es : List Event) (w : World) (q : LiveQuery) : Prop :=
  q.Fresh w.heap ∨ ∃ r, Rests qs q r ∧ r.Due es w

end LiveQuery

namespace World

/-- What waits is well-formed: jobs belong to live queries, and a content event has no old value. -/
structure Queued (qs : List LiveQuery) (w : World) : Prop where
  jobs : ∀ e ∈ w.bus.scheduler.marked ++ w.bus.scheduler.running,
    ∃ q ∈ qs, e = (q.result.id, q.job)
  indexed : w.bus.queue.Indexed
  contents : ∀ p e, w.bus.queue.waiting? p = some e → p.2 = .content → e.old = .null

/-- A world in which no name and nothing held has lost a place, and nothing was dropped, bound or
made. -/
structure Passes (w v : World) : Prop where
  desk : v.desk = w.desk
  held : v.held = w.held
  dispatching : v.bus.dispatching = w.bus.dispatching
  size : v.heap.cells.size = w.heap.cells.size
  tags : w.heap.nextTag ≤ v.heap.nextTag
  alive : ∀ l, v.heap.isAlive l = true → w.heap.isAlive l = true
  rooted : ∀ l ∈ Value.placesOfItems (w.desk.names.values ++ w.held), w.heap.isAlive l = true →
    v.heap.isAlive l = true

/-- A world that has gone on to work off events: no result is lost track of, none changes that is not
tracked, and no other cell changes. -/
structure Goes (w : World) (qs : List LiveQuery) (es fs : List Event) (v : World) : Prop
    extends w.Passes v where
  refits : w.Refits qs v
  tracked : ∀ q ∈ qs, v.heap.isAlive q.result.loc = true → q.Tracked qs es w → q.Tracked qs fs v
  kept : ∀ q ∈ qs, v.heap.isAlive q.result.loc = true →
    q.Tracked qs fs v ∨ v.heap.items q.result = w.heap.items q.result
  cells : ∀ l, (∀ q ∈ qs, q.result.loc ≠ l) → v.heap.isAlive l = true →
    v.heap.cell? l = w.heap.cell? l

variable {M : Nat → Prop} {qs : List LiveQuery} {es fs gs : List Event} {u v w : World}

namespace Passes

theorem refl (w : World) : w.Passes w :=
  ⟨rfl, rfl, rfl, rfl, Nat.le_refl _, fun _ => id, fun _ _ => id⟩

theorem trans (first : u.Passes v) (second : v.Passes w) : u.Passes w where
  desk := second.desk.trans first.desk
  held := second.held.trans first.held
  dispatching := second.dispatching.trans first.dispatching
  size := second.size.trans first.size
  tags := Nat.le_trans first.tags second.tags
  alive l lives := first.alive l (second.alive l lives)
  rooted l root lives := second.rooted l (by rwa [first.desk, first.held])
    (first.rooted l root lives)

theorem of_shrinks (shrinks : w.Shrinks v) : w.Passes v where
  desk := by rw [shrinks.same]
  held := by rw [shrinks.same]
  dispatching := by rw [shrinks.same]
  size := shrinks.size
  tags := Nat.le_of_eq (by rw [shrinks.same])
  alive _ := shrinks.alive
  rooted := shrinks.rooted

/-- What is held on the way may be taken off again. -/
theorem holding {values : List Value} (passes : Passes { w with held := values ++ w.held } v) :
    w.Passes { v with held := w.held } where
  desk := passes.desk
  held := rfl
  dispatching := passes.dispatching
  size := passes.size
  tags := passes.tags
  alive := passes.alive
  rooted l root := passes.rooted l (by
    simp only [Value.mem_placesOfItems_append] at root ⊢
    rcases root with named | held
    · exact .inl named
    · exact .inr (.inr held))

end Passes

namespace Goes

theorem refl (qs : List LiveQuery) (es : List Event) (w : World) : w.Goes qs es es w where
  toPasses := .refl w
  refits := .refl w qs
  tracked _ _ _ := id
  kept _ _ _ := .inr rfl
  cells _ _ _ := rfl

theorem trans (first : u.Goes qs es fs v) (second : v.Goes qs fs gs w) : u.Goes qs es gs w where
  toPasses := first.toPasses.trans second.toPasses
  refits := first.refits.trans second.refits
  tracked q member lives tracked :=
    second.tracked q member lives (first.tracked q member (second.alive _ lives) tracked)
  kept q member lives := by
    rcases second.kept q member lives with tracked | same
    · exact .inl tracked
    · rcases first.kept q member (second.alive _ lives) with tracked | same'
      · exact .inl (second.tracked q member lives tracked)
      · exact .inr (same.trans same')
  cells l other lives :=
    (second.cells l other lives).trans (first.cells l other (second.alive _ lives))

theorem holding {values : List Value}
    (goes : Goes { w with held := values ++ w.held } qs es fs v) :
    w.Goes qs es fs { v with held := w.held } where
  toPasses := goes.toPasses.holding
  refits := goes.refits.around rfl rfl
  tracked := goes.tracked
  kept := goes.kept
  cells := goes.cells

/-- The dispatch itself may be under way meanwhile. -/
theorem within {b : Bool}
    (goes : Goes { w with bus := { w.bus with dispatching := b } } qs es fs v) :
    w.Goes qs es fs { v with bus := { v.bus with dispatching := w.bus.dispatching } } where
  desk := goes.desk
  held := goes.held
  dispatching := rfl
  size := goes.size
  tags := goes.tags
  alive := goes.alive
  rooted := goes.rooted
  refits := goes.refits.around rfl rfl
  tracked := goes.tracked
  kept := goes.kept
  cells := goes.cells

end Goes

/-- A result stays fresh while the cells stay that its query can come to. -/
theorem Sound.fresh_cells {rs : List LiveQuery} (sound : w.Sound M qs) (after : v.Sound M rs)
    {q : LiveQuery} (member : q ∈ qs) (stays : q ∈ rs) (alive : v.heap.isAlive q.result.loc = true)
    (size : w.heap.cells.size ≤ v.heap.cells.size) (tags : w.heap.nextTag ≤ v.heap.nextTag)
    (same : ∀ l, q.Reaches M qs l → v.heap.isAlive l = true → v.heap.cell? l = w.heap.cell? l)
    (result : v.heap.items q.result = w.heap.items q.result) (fresh : q.Fresh w.heap) :
    q.Fresh v.heap :=
  sound.fresh_frame after member stays alive (q.reads_all _)
    (sound.heap_same_of_cells after q size tags same) result fresh

/-- Letting cells go, and moving what waits, loses track of nothing. -/
theorem Sound.goes_of_shrinks (sound : w.Sound M qs) (shrinks : w.Shrinks v)
    (due : ∀ q ∈ qs, v.heap.isAlive q.result.loc = true → q.Due es w → q.Due fs v) :
    w.Goes qs es fs v := by
  have after := sound.shrinks shrinks
  have passes := Passes.of_shrinks shrinks
  have cells : ∀ l, v.heap.isAlive l = true → v.heap.cell? l = w.heap.cell? l := fun l lives => by
    obtain ⟨cell, here⟩ := Heap.cell?_of_isAlive lives
    rw [here, shrinks.cells l cell here]
  refine ⟨passes, .of_shrinks shrinks, fun q member lives tracked => ?_, fun q member lives => ?_,
    fun l _ => cells l⟩
  · rcases tracked with fresh | ⟨r, rests, waits⟩
    · exact .inl (sound.fresh_cells after member member lives (Nat.le_of_eq passes.size.symm)
        passes.tags (fun l _ => cells l) (Heap.items_eq_of_cell? (cells _ lives)) fresh)
    · exact .inr
        ⟨r, rests, due r (rests.mem member) (after.alive_of_rests member lives rests) waits⟩
  · exact .inr (Heap.items_eq_of_cell? (cells _ lives))

end World

end ReactiveQuery
