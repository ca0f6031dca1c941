import ReactiveQuery.Proofs.Live.Dispatch
import ReactiveQuery.Session.Perform

/-! Writes.  A write of a field or of items comes down to new contents, news that waits, and a
dispatch, which does nothing while a batch is open. -/

namespace ReactiveQuery

theorem FieldMap.mem_values_update {key : String} {value x : Value} {m : FieldMap Value}
    (member : x ∈ (FieldMap.update key value m).values) : x = value ∨ x ∈ m.values := by
  obtain ⟨e, inside, rfl⟩ := List.mem_map.mp member
  obtain ⟨⟨k, v⟩, before, rfl⟩ := List.mem_map.mp inside
  by_cases here : k = key
  · exact .inl (by simp [here])
  · exact .inr (List.mem_map.mpr ⟨(k, v), before, by simp [here]⟩)

namespace World

variable {M : Nat → Prop} {qs : List LiveQuery} {u v w : World}

/-- A dispatch that does nothing while another is under way or nothing waits, and works off what
waits otherwise. -/
structure Settles (dispatch : Act Unit) : Prop where
  calm : ∀ w, w.bus.dispatching = true ∨ w.bus.queue.isEmpty = true → dispatch.Gives w () w
  works : ∀ {M : Nat → Prop} {qs : List LiveQuery} {w v : World}, w.Sound M qs → w.Queued qs →
    w.bus.dispatching = false → w.bus.scheduler.marked = [] → w.bus.scheduler.running = [] →
    dispatch.Gives w () v → v.Sound M qs ∧ v.Queued qs ∧ v.Idle ∧ w.Goes qs [] [] v

theorem dispatch_calm (depth : Nat) (w : World)
    (calm : w.bus.dispatching = true ∨ w.bus.queue.isEmpty = true) :
    (Reentry.within (depth + 1)).dispatch.Gives w () w :=
  Act.on_dispatchIfIdle_of_still calm

theorem settles_within (depth : Nat) : Settles (Reentry.within (depth + 2)).dispatch where
  calm := dispatch_calm (depth + 1)
  works sound queued rests clean rested gives :=
    Sound.dispatchIfIdle
      (fun w v busy given => by exact (given.unique (dispatch_calm depth w (.inl busy))).2)
      sound queued rests clean rested gives

/-- While another dispatch is under way nothing happens. -/
theorem Settles.nested {dispatch : Act Unit} (settles : Settles dispatch) (w v : World)
    (busy : w.bus.dispatching = true) (gives : dispatch.Gives w () v) : v = w :=
  (gives.unique (settles.calm w (.inl busy))).2

/-- A world in which a field has been written, and this has been published. -/
structure Sets (w : World) (qs : List LiveQuery) (r : Ref) (key : String) (value old : Value)
    (v : World) : Prop extends w.Passes v where
  scheduler : v.bus.scheduler = w.bus.scheduler
  cells : ∀ l, l ≠ r.loc → v.heap.isAlive l = true → v.heap.cell? l = w.heap.cell? l
  before : FieldMap.get? key (w.heap.fields r) = some old
  written : v.heap.isAlive r.loc = true →
    v.heap.fields r = FieldMap.update key value (w.heap.fields r)
  bare : v.heap.items r = w.heap.items r
  fits : ∀ containers, w.Fits containers qs → value.Fits containers w.heap.cells.size →
    v.Fits containers qs
  differs : value.strictEq old = false
  queue : v.bus.queue = w.bus.queue ∧
      v.bus.registry.hasListeners r.id (.field key) = false ∨
    v.bus.queue = w.bus.queue.enqueue ⟨r.id, .field key, value, old⟩

namespace Sets

variable {r s : Ref} {key key' : String} {value old : Value} (sets : w.Sets qs r key value old v)
include sets

theorem items_eq (lives : v.heap.isAlive s.loc = true) : v.heap.items s = w.heap.items s := by
  by_cases here : s.loc = r.loc
  · obtain ⟨l, i⟩ := s
    cases here
    exact sets.bare
  · exact Heap.items_eq_of_cell? (sets.cells _ here lives)

theorem fields_eq (lives : v.heap.isAlive s.loc = true) : v.heap.fields s =
    if s.loc = r.loc then FieldMap.update key value (w.heap.fields s) else w.heap.fields s := by
  split
  · next here =>
    obtain ⟨l, i⟩ := s
    cases here
    exact sets.written lives
  · next here => exact Heap.fields_eq_of_cell? (sets.cells _ here lives)

/-- The field that is written has the new value, and every other one the value that it had. -/
theorem get?_eq (lives : v.heap.isAlive s.loc = true) : FieldMap.get? key' (v.heap.fields s) =
    if s.loc = r.loc ∧ key' = key then some value else FieldMap.get? key' (w.heap.fields s) := by
  rw [sets.fields_eq lives]
  by_cases here : s.loc = r.loc
  · obtain ⟨l, i⟩ := s
    cases here
    have before : FieldMap.get? key (w.heap.fields ⟨r.loc, i⟩) = some old := sets.before
    rw [if_pos rfl, FieldMap.get?_update]
    by_cases same : key = key'
    · subst same
      simp [before]
    · simp [same, Ne.symm same]
  · simp [here]

/-- A write adds no fields. -/
theorem contains_eq (lives : v.heap.isAlive s.loc = true) :
    FieldMap.contains key' (v.heap.fields s) = FieldMap.contains key' (w.heap.fields s) := by
  rw [sets.fields_eq lives]
  split
  · rw [FieldMap.contains, FieldMap.contains, FieldMap.get?_update]
    split
    · exact Option.isSome_map
    · rfl
  · rfl

theorem waiting?_of_ne (indexed : w.bus.queue.Indexed) {p : Nat × EventKey}
    (other : p ≠ (r.id, .field key)) : v.bus.queue.waiting? p = w.bus.queue.waiting? p := by
  rcases sets.queue with ⟨same, -⟩ | entered
  · rw [same]
  · rw [entered, indexed.waiting?_enqueue]
    exact if_neg other

end Sets

theorem Sound.sets {r : Ref} {key : String} {value old : Value} {c : RecordCell}
    (sound : w.Sound M qs) (queued : w.Queued qs)
    (here : w.heap.cell? r.loc = some (.record c)) (before : FieldMap.get? key c.fields = some old)
    (differs : value.strictEq old = false)
    (fits : ∃ containers, w.Fits containers qs ∧ value.Fits containers w.heap.cells.size)
    (alive : ∀ l ∈ value.places, w.heap.isAlive l = true) (allowed : ∀ l ∈ value.places, ¬M l)
    (entered : (Act.enqueueAll [⟨r.id, .field key, value, old⟩]).Gives
      { w with
        heap := w.heap.put r.loc (some (.record { c with fields := c.fields.update key value })) }
      () v) :
    v.Sound M qs ∧ v.Queued qs ∧ w.Sets qs r key value old v := by
  have contents : ∀ {P : Value → Prop}, P value → (∀ x ∈ c.fields.values, P x) →
      ∀ x ∈ (FieldMap.update key value c.fields).values, P x := fun new others x member => by
    rcases FieldMap.mem_values_update member with rfl | member
    · exact new
    · exact others x member
  have holds : ∀ {containers}, w.Fits containers qs → ∀ x ∈ c.fields.values,
      x.Fits containers w.heap.cells.size := fun fits x member => by
    obtain ⟨e, inside, rfl⟩ := List.mem_map.mp member
    exact fits.heap.fields r e (by rwa [Heap.fields_of_record here])
  obtain ⟨containers, fits, new⟩ := fits
  have written : Sound M qs { w with
      heap := w.heap.put r.loc (some (.record { c with fields := c.fields.update key value })) } :=
    sound.put here rfl rfl ⟨containers, fits, contents new (holds fits)⟩
      (contents alive fun x member l held =>
        sound.closed.cells _ _ here l (Cell.mem_places.mpr (.inl ⟨x, member, held⟩)))
      (contents (fun l held may => absurd may (allowed l held)) fun x member l held may =>
        sound.guarded _ _ here x member l held may)
  have arrives := arrives_enqueueAll written.owned entered
  have shrinks := arrives.shrinks
  have queued' : Queued qs { w with
      heap := w.heap.put r.loc (some (.record { c with fields := c.fields.update key value })) } :=
    queued.of_bus rfl rfl
  refine ⟨written.shrinks shrinks, arrives.queued queued' nofun,
    (Passes.put here).trans (.of_shrinks shrinks), arrives.scheduler, fun l other lives => ?_,
    by rwa [Heap.fields_of_record here], fun lives => ?_, ?_,
    fun containers fits new => ?_, differs, ?_⟩
  · rw [shrinks.cell?_of_put lives, Heap.cell?_put_of_ne (Ne.symm other)]
  · rw [Heap.fields_of_record here]
    exact Heap.fields_of_record (c := { c with fields := c.fields.update key value })
      ((shrinks.cell?_of_put lives).trans (Heap.cell?_put_self here))
  · rw [Heap.items_eq_nil fun x found => ?_, Heap.items_eq_nil fun x found => ?_]
    · rw [here] at found
      cases found
    · have before := shrinks.cells r.loc _ found
      rw [Heap.cell?_put_self here] at before
      cases before
  · have put : Fits containers qs { w with
      heap :=
        w.heap.put r.loc (some (.record { c with fields := c.fields.update key value })) } :=
      fits.put (contents new (holds fits))
    exact put.shrinks shrinks
  · rcases arrives.queue with ⟨same, changes | unheard⟩ | ⟨entered, -⟩
    · rw [differs] at changes
      cases changes
    · exact .inl ⟨same, unheard⟩
    · exact .inr entered

end World

namespace Act

variable {dispatch : Act Unit} {r : Ref} {key : String} {value : Value} {w v : World}

/-- A write of a field does nothing where there is no record or where the value is there already;
else it writes the value and publishes this. -/
theorem gives_setField (sinks : ∀ c, w.heap.cell? r.loc = some (.record c) → c.sink = .bus)
    (gives : (r.setField dispatch key value).Gives w () v) :
    v = w ∧ (∀ old, FieldMap.get? key (w.heap.fields r) = some old → old.strictEq value = true) ∨
      ∃ c old, w.heap.cell? r.loc = some (.record c) ∧
      FieldMap.get? key c.fields = some old ∧ old.strictEq value = false ∧
      (Act.publishAll dispatch [⟨r.id, .field key, value, old⟩]).Gives
        { w with
          heap := w.heap.put r.loc (some (.record { c with fields := c.fields.update key value })) }
        () v := by
  unfold Ref.setField at gives
  simp only [gives_bind, gives_get] at gives
  obtain ⟨_, _, ⟨rfl, rfl⟩, gives⟩ := gives
  cases found : w.heap.record? r with
  | none =>
    rw [found] at gives
    refine .inl ⟨(gives_pure.mp gives).2.symm, fun old declared => ?_⟩
    rw [Heap.fields, found] at declared
    cases declared
  | some c =>
    have here := Heap.record?_eq_some.mp found
    rw [found] at gives
    cases before : FieldMap.get? key c.fields with
    | none => simp [before] at gives
    | some old =>
      simp only [before] at gives
      split at gives
      · next same =>
        refine .inl ⟨(gives_pure.mp gives).2.symm, fun old' declared => ?_⟩
        rw [Heap.fields_of_record here, before] at declared
        rwa [← Option.some.inj declared]
      · next differs =>
        simp only [gives_bind, gives_changeHeap, Heap.setField_eq_put here, sinks c here,
          report] at gives
        obtain ⟨_, _, rfl, published⟩ := gives
        exact .inr ⟨c, old, here, before, by simpa using differs, by rwa [sinks c here] ⟩

end Act

namespace World

variable {M : Nat → Prop} {qs : List LiveQuery} {u v w : World} {dispatch : Act Unit}

/-- Setting a field comes down to a write and a dispatch. -/
theorem Sound.setField {r : Ref} {key : String} {value : Value} (settles : Settles dispatch)
    (sound : w.Sound M qs) (queued : w.Queued qs)
    (calm : w.bus.dispatching = true ∨ w.bus.queue.isEmpty = true)
    (fits : ∃ containers, w.Fits containers qs ∧ value.Fits containers w.heap.cells.size)
    (alive : ∀ l ∈ value.places, w.heap.isAlive l = true) (allowed : ∀ l ∈ value.places, ¬M l)
    (gives : (r.setField dispatch key value).Gives w () v) :
    ∃ u, u.Sound M qs ∧ u.Queued qs ∧ dispatch.Gives u () v ∧
      (u = w ∧ (∀ old, FieldMap.get? key (w.heap.fields r) = some old →
          old.strictEq value = true) ∨
        ∃ old, w.Sets qs r key value old u) := by
  rcases Act.gives_setField (fun c here => sound.sinks _ _ here) gives with
    ⟨rfl, there⟩ | ⟨c, old, here, before, differs, published⟩
  · exact ⟨v, sound, queued, settles.calm v calm, .inl ⟨rfl, there⟩⟩
  · simp only [Act.publishAll, Act.gives_bind] at published
    obtain ⟨_, u, entered, dispatched⟩ := published
    obtain ⟨sound', queued', sets⟩ := sound.sets queued here before
      (by rwa [Value.strictEq_symm]) fits alive allowed entered
    exact ⟨u, sound', queued', dispatched, .inr ⟨old, sets⟩⟩

end World

/-- A change of items that draws the new ones from the old ones and from values given, and takes
out only old ones. -/
def ItemChange.Draws (f : ItemChange) (values : List Value) : Prop :=
  ∀ items new out, f items = .ok (new, out) →
    (∀ x ∈ new, x ∈ items ∨ x ∈ values ∨ x = .null) ∧ ∀ x ∈ out, x ∈ items

namespace World

variable {M : Nat → Prop} {qs : List LiveQuery} {u v w : World} {dispatch : Act Unit}

/-- Changing items comes down to a write and a dispatch, with what is taken out held. -/
theorem Sound.change {r : Ref} {f : ItemChange} {values out : List Value}
    (settles : Settles dispatch) (sound : w.Sound M qs) (queued : w.Queued qs)
    (calm : w.bus.dispatching = true ∨ w.bus.queue.isEmpty = true) (draws : f.Draws values)
    (fits : ∃ containers, w.Fits containers qs ∧
      ∀ x ∈ values, x.Fits containers w.heap.cells.size)
    (alive : ∀ x ∈ values, ∀ l ∈ x.places, w.heap.isAlive l = true)
    (allowed : ∀ x ∈ values, ∀ l ∈ x.places, ¬M l)
    (gives : (r.change dispatch f).Gives w out v) :
    ∃ u x, u.Sound M qs ∧ u.Queued qs ∧ dispatch.Gives u () x ∧ v = { x with held := w.held } ∧
      (∀ y ∈ out, y ∈ w.heap.items r) ∧
      (u = { w with held := out ++ w.held } ∨ ∃ items,
        Writes { w with held := out ++ w.held } qs r items u ∧
          ∀ y ∈ items, y ∈ w.heap.items r ∨ y ∈ values ∨ y = .null) := by
  cases found : w.heap.collection? r with
  | none =>
    simp only [Ref.change, Act.gives_bind, Act.gives_get] at gives
    obtain ⟨_, _, ⟨rfl, rfl⟩, gives⟩ := gives
    rw [found] at gives
    obtain ⟨rfl, rfl⟩ := Act.gives_pure.mp gives
    exact ⟨w, w, sound, queued, settles.calm w calm, rfl, by simp, .inl rfl⟩
  | some c =>
    have here := Heap.collection?_eq_some.mp found
    obtain ⟨items, made, reported⟩ := (Act.gives_change here (sound.sinks _ _ here)).mp gives
    simp only [Act.gives_holding, Act.publishAll, Act.gives_bind] at reported
    obtain ⟨x, ⟨_, u, entered, dispatched⟩, rfl⟩ := reported
    obtain ⟨drawn, taken⟩ := draws _ _ _ made
    have old := Heap.items_of_collection here
    rw [← old] at drawn taken
    obtain ⟨containers, fits, new⟩ := fits
    -- An item was there before, or was given, or is null.
    have fitting : ∀ y ∈ items, y.Fits containers w.heap.cells.size := fun y member => by
      rcases drawn y member with before | given | rfl
      · exact fits.heap.items r y before
      · exact new y given
      · trivial
    have living : ∀ y ∈ items, ∀ l ∈ y.places, w.heap.isAlive l = true := fun y member l held => by
      rcases drawn y member with before | given | rfl
      · rw [old] at before
        exact sound.closed.cells _ _ here l (Cell.mem_places.mpr (.inl ⟨y, before, held⟩))
      · exact alive y given l held
      · simp [Value.places] at held
    have guarded : ∀ y ∈ items, ∀ l ∈ y.places, M l →
        ∃ q ∈ qs, q.result.loc = r.loc ∧ q.Reaches M qs l := fun y member l held may => by
      rcases drawn y member with before | given | rfl
      · rw [old] at before
        exact sound.guarded _ _ here y before l held may
      · exact absurd may (allowed y given l held)
      · simp [Value.places] at held
    obtain ⟨sound', queued', writes⟩ := Sound.writes (w := { w with held := out ++ w.held })
      (sound.quiet rfl) (queued.of_bus rfl rfl) here ⟨containers, fits.quiet rfl, fitting⟩ living
      guarded entered
    exact ⟨u, x, sound', queued', dispatched, rfl, taken, .inr ⟨items, writes, drawn⟩⟩

end World

end ReactiveQuery
