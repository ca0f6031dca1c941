import ReactiveQuery.Proofs.Bus.Engine
import ReactiveQuery.Proofs.Session.Snapshot

/-! Assignments of fields, together in a batch or one at a time.  Either way they leave the same
outside results, so results that are fresh afterwards hold the same rows. -/

namespace ReactiveQuery

/-- A field of a record that is to hold a value. -/
structure Assignment where
  record : Ref
  key : String
  value : Value

namespace Assignment

/-- Assigns fields in a row. -/
def perform (dispatch : Act Unit) (as : List Assignment) : Act Unit :=
  as.forM fun a => a.record.setField dispatch a.key a.value

/-- The fields of the record at a place after an assignment.  A value that strictly equals the one
there stays out. -/
def put (loc : Nat) (fields : FieldMap Value) (a : Assignment) : FieldMap Value :=
  if a.record.loc = loc ∧ (FieldMap.get? a.key fields).any (!·.strictEq a.value) then
    fields.update a.key a.value
  else fields

/-- What a caller can assign: to a record that it has, a value that it has or that is no container.
It leads to nothing that may change and is not negative zero. -/
structure Given (M : Nat → Prop) (names : FieldMap Value) (a : Assignment) : Prop where
  record : ∃ name, FieldMap.get? name names = some (.record a.record)
  value : (∃ name, FieldMap.get? name names = some a.value) ∨ ∃ p : Primitive, a.value = p.toValue
  apart : ∀ l ∈ a.value.places, ¬M l
  signed : a.value.isNegativeZero = false

variable {M : Nat → Prop} {qs : List LiveQuery} {containers : List Value} {w : World}
  {a : Assignment} {loc : Nat} {fields : FieldMap Value}

theorem put_of_there
    (there : ∀ old, FieldMap.get? a.key fields = some old → old.strictEq a.value = true) :
    put loc fields a = fields := by
  refine if_neg fun ⟨_, differs⟩ => ?_
  cases declared : FieldMap.get? a.key fields <;> simp_all

theorem put_elsewhere (other : a.record.loc ≠ loc) : put loc fields a = fields :=
  if_neg fun here => other here.1

theorem put_self {old : Value} (declared : FieldMap.get? a.key fields = some old)
    (differs : old.strictEq a.value = false) :
    put a.record.loc fields a = fields.update a.key a.value :=
  if_pos ⟨rfl, by simp [declared, differs]⟩

theorem mem_values_put {x : Value} (member : x ∈ (put loc fields a).values) :
    x = a.value ∨ x ∈ fields.values := by
  unfold put at member
  split at member
  · exact FieldMap.mem_values_update member
  · exact .inr member

theorem Given.number (given : a.Given M w.desk.names) (fits : w.Fits containers qs) :
    a.record.id = a.record.loc + 1 := by
  obtain ⟨name, bound⟩ := given.record
  exact fits.number_of_record bound

theorem Given.may (given : a.Given M w.desk.names) (sound : w.Sound M qs)
    (fits : w.Fits containers qs) : w.May M containers a.value := by
  refine ⟨?_, given.apart⟩
  rcases given.value with ⟨name, bound⟩ | ⟨p, same⟩
  · exact sound.has_name fits (FieldMap.mem_of_get? bound)
  · rw [same]
    refine ⟨Value.fits_primitive p, fun l held => ?_⟩
    cases p <;> simp [Primitive.toValue, Value.places] at held

end Assignment

namespace LiveQuery

variable {q : LiveQuery}

/-- All paths of the query start at the record that it looks at. -/
def Relative (q : LiveQuery) : Prop := ∀ p ∈ q.definition.paths, p.root = .here

theorem Relative.ne_arg (relative : q.Relative) {p : Path} (path : p ∈ q.definition.paths)
    (i : Nat) : p.root ≠ .arg i := by
  rw [relative p path]
  nofun

theorem Relative.shallow (relative : q.Relative) (h : Heap) : q.Shallow h :=
  fun _ path i root => absurd root (relative.ne_arg path i)

/-- Such a query uses its source alone. -/
theorem Relative.uses (relative : q.Relative) {l : Nat} (uses : q.Uses l) : l = q.source.loc := by
  rcases uses with source | ⟨p, path, i, r, root, -⟩
  · exact source
  · exact absurd root (relative.ne_arg path i)

end LiveQuery

/-- A value with no tag: anything but an array or an object. -/
def Value.isFlat : Value → Bool
  | .array .. | .object .. => false
  | _ => true

theorem Value.eq_of_flat {ρ : Nat → Nat} {x y : Value} (flat : x.isFlat = true)
    (same : x.retag ρ = y.retag ρ) : x = y := by
  cases x with
  | array | object => cases flat
  | _ => cases y <;> first | exact same | simp only [retag] at same; cases same

/-- What is flat is the same as what it is alike. -/
theorem Value.Alike.eq_of_flat {xs ys : List Value} (alike : Value.Alike xs ys)
    (flat : ∀ x ∈ xs, x.isFlat = true) : xs = ys := by
  induction xs generalizing ys with
  | nil => exact (List.map_eq_nil_iff.mp alike.symm).symm
  | cons x xs ih =>
    cases ys with
    | nil => cases alike
    | cons y ys =>
      obtain ⟨first, rest⟩ := List.cons.inj alike
      rw [ih rest fun z member => flat z (List.mem_cons_of_mem _ member),
        Value.eq_of_flat (flat x List.mem_cons_self) first]

/-- Fields have been assigned in a heap, some cells have been let go of, and nothing else has
changed but the items of results. -/
structure Heap.Stores (qs : List LiveQuery) (as : List Assignment) (h k : Heap) : Prop where
  size : k.cells.size = h.cells.size
  alive : ∀ l, k.isAlive l = true → h.isAlive l = true
  items : ∀ r : Ref, (∀ q ∈ qs, q.result.loc ≠ r.loc) → k.isAlive r.loc = true →
    k.items r = h.items r
  fields : ∀ r : Ref, (∀ q ∈ qs, q.result.loc ≠ r.loc) → k.isAlive r.loc = true →
    k.fields r = as.foldl (Assignment.put r.loc) (h.fields r)

/-- Two heaps in which the same is found outside results, as far as anything is found in both. -/
structure Heap.Level (qs : List LiveQuery) (h k : Heap) : Prop where
  size : h.cells.size = k.cells.size
  items : ∀ r : Ref, (∀ q ∈ qs, q.result.loc ≠ r.loc) → h.isAlive r.loc = true →
    k.isAlive r.loc = true → h.items r = k.items r
  fields : ∀ r : Ref, (∀ q ∈ qs, q.result.loc ≠ r.loc) → h.isAlive r.loc = true →
    k.isAlive r.loc = true → h.fields r = k.fields r

theorem Heap.Level.symm {qs : List LiveQuery} {h k : Heap} (level : h.Level qs k) :
    k.Level qs h where
  size := level.size.symm
  items r other lives lives' := (level.items r other lives' lives).symm
  fields r other lives lives' := (level.fields r other lives' lives).symm

namespace Heap.Stores

variable {qs : List LiveQuery} {as bs : List Assignment} {g h k : Heap}

theorem refl (qs : List LiveQuery) (h : Heap) : h.Stores qs [] h :=
  ⟨rfl, fun _ => id, fun _ _ _ => rfl, fun _ _ _ => rfl⟩

theorem trans (first : g.Stores qs as h) (second : h.Stores qs bs k) :
    g.Stores qs (as ++ bs) k where
  size := second.size.trans first.size
  alive l lives := first.alive l (second.alive l lives)
  items r other lives :=
    (second.items r other lives).trans (first.items r other (second.alive _ lives))
  fields r other lives := by
    rw [second.fields r other lives, first.fields r other (second.alive _ lives),
      List.foldl_append]

/-- The same assignments leave the same. -/
theorem level (first : g.Stores qs as h) (second : g.Stores qs as k) : h.Level qs k where
  size := first.size.trans second.size.symm
  items r other lives lives' := (first.items r other lives).trans (second.items r other lives').symm
  fields r other lives lives' :=
    (first.fields r other lives).trans (second.fields r other lives').symm

end Heap.Stores

namespace World

variable {D : Prop} {M : Nat → Prop} {qs : List LiveQuery} {dispatch : Act Unit}
  {containers : List Value} {T : World → Prop} {I : List Value → World → Prop}
  {a : Assignment} {as : List Assignment} {u v w : World}

theorem Goes.stores {es fs : List Event} (goes : w.Goes qs es fs v) :
    w.heap.Stores qs [] v.heap where
  size := goes.size
  alive := goes.alive
  items _ other lives := Heap.items_eq_of_cell? (goes.cells _ other lives)
  fields _ other lives := Heap.fields_eq_of_cell? (goes.cells _ other lives)

theorem Sets.stores {old : Value} (sets : w.Sets qs a.record a.key a.value old v) :
    w.heap.Stores qs [a] v.heap where
  size := sets.size
  alive := sets.alive
  items r _ lives := sets.items_eq lives
  fields r _ lives := by
    by_cases here : r.loc = a.record.loc
    · obtain ⟨l, i⟩ := r
      cases here
      exact (sets.written lives).trans
        (Assignment.put_self sets.before (by rw [Value.strictEq_symm, sets.differs])).symm
    · rw [Heap.fields_eq_of_cell? (sets.cells _ here lives)]
      exact (Assignment.put_elsewhere (Ne.symm here)).symm

/-- A dispatch loses track of nothing, whether it works off what waits or is put off. -/
theorem Settles.goes (settles : Settles dispatch) (sound : w.Sound M qs) (queued : w.Queued qs)
    (steady : w.bus.dispatching = true ∨
      w.bus.dispatching = false ∧ w.bus.scheduler.marked = [] ∧ w.bus.scheduler.running = [])
    (gives : dispatch.Gives w () v) : w.Goes qs [] [] v := by
  rcases steady with busy | ⟨rests, clean, rested⟩
  · rw [settles.nested w v busy gives]
    exact .refl qs [] w
  · exact (settles.works sound queued rests clean rested gives).2.2.2

/-- An assignment, inside a batch or outside, changes its field and results. -/
theorem Sound.assign (settles : Settles dispatch) (sound : w.Sound M qs) (queued : w.Queued qs)
    (steady : w.bus.dispatching = true ∨ w.Idle) (fits : w.Fits containers qs)
    (may : w.May M containers a.value)
    (gives : (a.record.setField dispatch a.key a.value).Gives w () v) :
    w.heap.Stores qs [a] v.heap := by
  obtain ⟨u, sound', queued', dispatched, ⟨rfl, there⟩ | ⟨old, sets⟩⟩ :=
    Sound.setField settles sound queued (steady.imp_right Idle.silent) ⟨containers, fits, may.fits⟩
      may.alive may.apart gives
  · have stays := settles.calm u (steady.imp_right Idle.silent)
    obtain ⟨-, rfl⟩ := dispatched.unique stays
    exact ⟨rfl, fun _ => id, fun _ _ _ => rfl, fun r _ _ => by
      rw [List.foldl_cons, List.foldl_nil]
      by_cases here : a.record.loc = r.loc
      · obtain ⟨l, i⟩ := r
        cases here
        exact (Assignment.put_of_there there).symm
      · exact (Assignment.put_elsewhere here).symm⟩
  · refine sets.stores.trans (settles.goes sound' queued' ?_ dispatched).stores
    rw [sets.dispatching, sets.scheduler]
    exact steady.imp_right fun idle => ⟨idle.rests, idle.clean, idle.rested⟩

/-- Assignments in a row, each in a mode that stays. -/
theorem Mode.assign (mode : Mode D M qs dispatch T I) (settles : Settles dispatch)
    (steady : ∀ {containers w}, I containers w → w.bus.dispatching = true ∨ w.Idle)
    (stays : ∀ {a : Assignment} {w v : World}, T w → a.value.isNegativeZero = false →
      v.Sound M qs → w.heap.Stores qs [a] v.heap → T v)
    (holds : I containers w) (ready : T w) (given : ∀ a ∈ as, a.Given M w.desk.names)
    (gives : (Assignment.perform dispatch as).Gives w () v) :
    Turns I containers w v ∧ w.heap.Stores qs as v.heap := by
  induction as generalizing containers w with
  | nil =>
    obtain ⟨-, rfl⟩ := Act.gives_pure.mp gives
    exact ⟨.refl holds, .refl qs _⟩
  | cons a as ih =>
    obtain ⟨_, u, first, rest⟩ := Act.gives_bind.mp gives
    have here := given a List.mem_cons_self
    have may := here.may (mode.sound holds) (mode.fits holds)
    have stores := (mode.sound holds).assign settles (mode.queued holds) (steady holds)
      (mode.fits holds) may first
    obtain ⟨passes, more, grown, after⟩ := mode.setField settles holds ready
      (here.number (mode.fits holds)) may (fun _ => here.signed) first
    have others : ∀ {more}, I more u → Turns I more u v ∧ u.heap.Stores qs as v.heap :=
      fun after => ih after (stays ready here.signed (mode.sound after) stores)
        (fun b member => passes.desk ▸ given b (List.mem_cons_of_mem _ member)) rest
    exact ⟨Turns.trans ⟨passes, more, grown, after⟩ fun _ _ after => (others after).1,
      stores.trans (others after).2⟩

/-- No field is negative zero after an assignment if none was. -/
theorem Tame.stores (tame : w.Tame qs) (relative : ∀ q ∈ qs, q.Relative) (sound : v.Sound M qs)
    (signed : a.value.isNegativeZero = false) (stores : w.heap.Stores qs [a] v.heap) :
    v.Tame qs where
  signed r e member := by
    have lives : v.heap.isAlive r.loc = true := by
      obtain ⟨c, here, -⟩ := Heap.exists_of_mem_fields member
      exact Heap.isAlive_of_cell? here
    have inside := List.mem_map_of_mem (f := Prod.snd) member
    rw [stores.fields r (sound.apart_of_field member) lives, List.foldl_cons,
      List.foldl_nil] at inside
    rcases Assignment.mem_values_put inside with same | before
    · rw [same]
      exact signed
    · obtain ⟨e', member', same⟩ := List.mem_map.mp before
      rw [← same]
      exact tame.signed r e' member'
  shallow q member _ := (relative q member).shallow _

/-- Assignments one at a time are worked off one by one. -/
theorem Resting.assign (settles : Settles dispatch) (relative : ∀ q ∈ qs, q.Relative)
    (resting : Resting True M qs containers w) (tame : w.Tame qs)
    (given : ∀ a ∈ as, a.Given M w.desk.names)
    (gives : (Assignment.perform dispatch as).Gives w () v) :
    (∃ more, Resting True M qs more v) ∧ w.heap.Stores qs as v.heap := by
  obtain ⟨⟨-, more, -, after⟩, stores⟩ := (mode_resting settles).assign settles
    (fun resting => .inr resting.idle)
    (fun ready signed sound stores _ => (ready trivial).stores relative sound signed stores)
    resting (fun _ => tame) given gives
  exact ⟨⟨more, after⟩, stores⟩

/-- Assignments in a batch are worked off at its end. -/
theorem Resting.assign_batch (settles : Settles dispatch)
    (resting : Resting True M qs containers w) (tame : w.Tame qs)
    (given : ∀ a ∈ as, a.Given M w.desk.names)
    (gives : (Act.batch dispatch (Assignment.perform dispatch as)).Gives w () v) :
    (∃ more, Resting True M qs more v) ∧ w.heap.Stores qs as v.heap := by
  obtain ⟨u, performed, dispatched⟩ := Act.gives_batch_of_idle resting.idle.rests gives
  obtain ⟨⟨passes, more, -, closed⟩, stores⟩ := (mode_batching settles w).assign settles
    (fun batching => .inl batching.dispatching) (fun _ _ _ _ => trivial)
    (resting.opens fun _ => tame) trivial given performed
  obtain ⟨-, most, -, after⟩ :=
    resting.closes settles (fun _ => tame) closed passes.alive dispatched
  have goes := settles.goes (w := { u with bus := { u.bus with dispatching := false } })
    (closed.sound.quiet rfl) (closed.queued.of_bus rfl rfl)
    (.inr ⟨rfl, closed.clean, closed.rested⟩) dispatched
  exact ⟨⟨most, after⟩, List.append_nil as ▸ stores.trans goes.stores⟩

/-- Where two worlds are level, and the sources that a query rests on hold the same, the query comes
to the same. -/
theorem Sound.heap_level (sound : v.Sound M qs) (sound' : w.Sound M qs)
    (relative : ∀ q ∈ qs, q.Relative) (level : v.heap.Level qs w.heap)
    (tags : v.heap.nextTag ≤ w.heap.nextTag) {q : LiveQuery} (member : q ∈ qs)
    (sources : ∀ s, LiveQuery.Rests qs q s → v.heap.items s.source = w.heap.items s.source) :
    v.heap.Same (fun l => q.Reaches M qs l ∧ v.heap.isAlive l = true ∧ w.heap.isAlive l = true)
      (fun _ _ => True) w.heap := by
  have bare : ∀ {u : World}, u.Sound M qs → ∀ r : Ref, (∃ t ∈ qs, t.result.loc = r.loc) →
      u.heap.fields r = [] := fun sound r ⟨t, among, here⟩ =>
    List.eq_nil_iff_forall_not_mem.mpr fun e field => sound.apart_of_field field t among here
  have same : ∀ r : Ref, q.Reaches M qs r.loc → v.heap.isAlive r.loc = true →
      w.heap.isAlive r.loc = true →
      w.heap.items r = v.heap.items r ∧ w.heap.fields r = v.heap.fields r := by
    intro r reaches lives lives'
    by_cases result : ∃ t ∈ qs, t.result.loc = r.loc
    · refine ⟨?_, (bare sound' r result).trans (bare sound r result).symm⟩
      obtain ⟨t, among, here⟩ := result
      obtain ⟨s, rests, uses⟩ := reaches (here ▸ sound.changing t among)
      obtain ⟨l, i⟩ := r
      obtain rfl := (relative s (rests.mem member)).uses uses
      exact (sources s rests).symm
    · have other : ∀ t ∈ qs, t.result.loc ≠ r.loc := fun t among here => result ⟨t, among, here⟩
      exact ⟨(level.items r other lives lives').symm, (level.fields r other lives lives').symm⟩
  refine ⟨Nat.le_of_eq level.size, tags, fun r here => (same r here.1 here.2.1 here.2.2).1,
    fun r key here => by rw [(same r here.1 here.2.1 here.2.2).2],
    fun r key here _ => by rw [(same r here.1 here.2.1 here.2.2).2],
    fun r here x item l held => ?_, fun r key x here _ found l held => ?_⟩
  · exact ⟨sound.reaches_of_item here.1 item held, sound.alive_of_item item held,
      sound'.alive_of_item ((same r here.1 here.2.1 here.2.2).1 ▸ item) held⟩
  · have field := FieldMap.mem_of_get? found
    exact ⟨sound.reaches_of_field field held, sound.alive_of_field field held,
      sound'.alive_of_field ((same r here.1 here.2.1 here.2.2).2 ▸ field) held⟩

/-- Then its results are alike, if they are fresh. -/
theorem Sound.alike_of_sources (sound : v.Sound M qs) (sound' : w.Sound M qs)
    (relative : ∀ q ∈ qs, q.Relative) (level : v.heap.Level qs w.heap)
    (tags : v.heap.nextTag ≤ w.heap.nextTag) {q : LiveQuery} (member : q ∈ qs)
    (alive : v.heap.isAlive q.result.loc = true) (alive' : w.heap.isAlive q.result.loc = true)
    (sources : ∀ s, LiveQuery.Rests qs q s → v.heap.items s.source = w.heap.items s.source)
    (fresh : q.Fresh v.heap) (fresh' : q.Fresh w.heap) :
    Value.Alike (v.heap.items q.result) (w.heap.items q.result) := by
  obtain ⟨containers, fits⟩ := sound.fits
  have starts : q.Starts fun l =>
      q.Reaches M qs l ∧ v.heap.isAlive l = true ∧ w.heap.isAlive l = true := by
    have here := sound.starts member alive qs
    have there := sound'.starts member alive' qs
    exact ⟨fun l uses => ⟨(here.uses l uses).1, (here.uses l uses).2, (there.uses l uses).2⟩,
      fun x given other l held => ⟨(here.params x given other l held).1,
        (here.params x given other l held).2, (there.params x given other l held).2⟩⟩
  obtain ⟨rows, _, computes, alike⟩ := fresh Reentry.outer.call v rfl sound.read
  obtain ⟨rows', _, computes', alike', -⟩ := LiveQuery.rows_same (fits.queries q member) fits.heap
    sound.read sound'.read (sound.heap_level sound' relative level tags member sources) starts
    (q.reads_all _) computes Reentry.outer.call
  obtain ⟨_, _, computes'', alike''⟩ := fresh' Reentry.outer.call w rfl sound'.read
  obtain ⟨rfl, -⟩ := computes'.unique computes''
  exact alike.symm.trans (alike'.symm.trans alike'')

/-- Results of two level worlds are alike where all are fresh and no rows that have tags are queried
again. -/
theorem Resting.alike {more : List Value} (resting : Resting True M qs containers v)
    (resting' : Resting True M qs more w) (relative : ∀ q ∈ qs, q.Relative)
    (level : v.heap.Level qs w.heap)
    (flat : ∀ q ∈ qs, v.heap.isAlive q.result.loc = true →
      ∀ x ∈ v.heap.items q.source, x.isFlat = true) {q : LiveQuery} (member : q ∈ qs)
    (alive : v.heap.isAlive q.result.loc = true) (alive' : w.heap.isAlive q.result.loc = true) :
    Value.Alike (v.heap.items q.result) (w.heap.items q.result) := by
  have sound := resting.sound
  have sound' := resting'.sound
  induction place : q.result.loc using Nat.strongRecOn generalizing q with
  | ind n ih =>
    -- By induction on the place of the result: what it rests on has earlier places.
    have sources : ∀ s, LiveQuery.Rests qs q s →
        v.heap.items s.source = w.heap.items s.source := by
      intro s rests
      have among := rests.mem member
      have lives := sound.alive_of_rests member alive rests
      have lives' := sound'.alive_of_rests member alive' rests
      have uses : s.Uses s.source.loc := .inl rfl
      by_cases result : ∃ t ∈ qs, t.result.loc = s.source.loc
      · obtain ⟨t, inside, here⟩ := result
        -- The source is an earlier result, and what is alike and flat is the same.
        have below : t.result.loc < n := place ▸
          sound.lt_of_reaches member (sound.changing t inside) fun _ => ⟨s, rests, here ▸ uses⟩
        have earlier := ih t.result.loc below inside (here ▸ sound.alive_of_uses among lives uses)
          (here ▸ sound'.alive_of_uses among lives' uses) rfl
        have found : ∀ h : Heap, h.items s.source = h.items t.result := fun h => by
          unfold Heap.items Heap.collection?
          rw [here]
        have bare := flat s among lives
        rw [found] at bare
        rw [found, found]
        exact earlier.eq_of_flat bare
      · have other : ∀ t ∈ qs, t.result.loc ≠ s.source.loc :=
          fun t inside here => result ⟨t, inside, here⟩
        exact level.items s.source other (sound.alive_of_uses among lives uses)
          (sound'.alive_of_uses among lives' uses)
    have fresh := resting.fresh trivial q member alive
    have fresh' := resting'.fresh trivial q member alive'
    rcases Nat.le_total v.heap.nextTag w.heap.nextTag with tags | tags
    · exact sound.alike_of_sources sound' relative level tags member alive alive' sources fresh
        fresh'
    · exact (sound'.alike_of_sources sound relative level.symm tags member alive' alive
        (fun s rests => (sources s rests).symm) fresh' fresh).symm

end World

namespace Run

variable {M : Nat → Prop} {qs : List LiveQuery} {w v v' : World} {as : List Assignment}
  {q : LiveQuery}

/-- Whether fields are assigned in a batch or one at a time, results end with the same rows. -/
theorem batch_invisible (run : Run True M qs w) (relative : ∀ q ∈ qs, q.Relative)
    (signed : ∀ r : Ref, ∀ e ∈ w.heap.fields r, e.2.isNegativeZero = false)
    (given : ∀ a ∈ as, a.Given M w.desk.names)
    (together : (Act.batch Reentry.outer.dispatch
      (Assignment.perform Reentry.outer.dispatch as)).Gives w () v)
    (singly : (Assignment.perform Reentry.outer.dispatch as).Gives w () v')
    (flat : ∀ q ∈ qs, v.heap.isAlive q.result.loc = true →
      ∀ x ∈ v.heap.items q.source, x.isFlat = true) (member : q ∈ qs)
    (alive : v.heap.isAlive q.result.loc = true) (alive' : v'.heap.isAlive q.result.loc = true) :
    Value.sameItems (v.heap.items q.result) (v'.heap.items q.result) = true := by
  have settles : World.Settles Reentry.outer.dispatch := World.settles_within 19997
  obtain ⟨containers, resting⟩ := run.resting
  have tame : w.Tame qs := ⟨signed, fun q member _ => (relative q member).shallow _⟩
  obtain ⟨⟨_, after⟩, stores⟩ := resting.assign_batch settles tame given together
  obtain ⟨⟨_, after'⟩, stores'⟩ := resting.assign settles relative tame given singly
  exact (after.alike after' relative (stores.level stores') flat member alive alive').sameItems

end Run

/-- Fields can be assigned in a batch and one at a time without an error, and a result ends with
other rows. -/
def World.Shows (w : World) (as : List Assignment) (result : Ref) : Prop :=
  let singly := Assignment.perform Reentry.outer.dispatch as
  ∃ v v', (Act.batch Reentry.outer.dispatch singly).Gives w () v ∧ singly.Gives w () v' ∧
    v.heap.isAlive result.loc = true ∧ v'.heap.isAlive result.loc = true ∧
    Value.sameItems (v.heap.items result) (v'.heap.items result) = false

namespace Inverses

def assign (x : Double) : Assignment := ⟨⟨0, 1⟩, "x", .number x⟩

def batched (as : List Assignment) : World :=
  ((Act.batch Reentry.outer.dispatch (Assignment.perform Reentry.outer.dispatch as)).on watched).2

def unbatched (as : List Assignment) : World :=
  ((Assignment.perform Reentry.outer.dispatch as).on watched).2

theorem relative : live.Relative := fun p path => by
  have here : live.definition.paths.all (·.root = .here) = true := by decide +kernel
  simpa using List.all_eq_true.mp here p path

/-- A field that is written to and set back tells nothing in a batch and twice otherwise, and the
row is the same. -/
theorem batch_invisible_reverted :
    Value.sameItems ((batched [assign (.ofNat 5), assign .zero]).heap.items live.result)
      ((unbatched [assign (.ofNat 5), assign .zero]).heap.items live.result) = true := by
  have bound : watched.desk.record? "r" = some ⟨0, 1⟩ := by decide +kernel
  have given : ∀ x : Double, (Value.number x).isNegativeZero = false →
      (assign x).Given mayChange watched.desk.names := fun x signed =>
    ⟨⟨"r", Desk.record?_eq_some bound⟩, .inr ⟨.number x, rfl⟩, by simp [assign, Value.places],
      signed⟩
  have tame : watched.Tame [live] := .of_checks (by decide +kernel) (by decide +kernel)
  refine run_watched.batch_invisible (List.forall_mem_singleton.mpr relative) tame.signed ?_
    (Act.gives_of_toOption (by decide +kernel)) (Act.gives_of_toOption (by decide +kernel)) ?_
    (List.mem_singleton_self live) (by decide +kernel) (by decide +kernel)
  · simp only [List.mem_cons, List.not_mem_nil, or_false, forall_eq_or_imp, forall_eq]
    exact ⟨given _ (by decide +kernel), given _ (by decide +kernel)⟩
  · rw [List.forall_mem_singleton]
    have flat : ((batched [assign (.ofNat 5), assign .zero]).heap.items live.source).all
      Value.isFlat = true := by decide +kernel
    exact fun _ => List.all_eq_true.mp flat

/-- The other zero cancels the news of the batch. -/
theorem shows_negative_zero :
    watched.Shows [assign (.ofNat 5), assign Double.zero.neg] live.result :=
  ⟨_, _, Act.gives_of_toOption (by decide +kernel), Act.gives_of_toOption (by decide +kernel),
    by decide +kernel, by decide +kernel, by decide +kernel⟩

end Inverses

namespace Overrun

/-- With one cycle for each dispatch, so that two results in a row are too many. -/
def setup : Setup where
  maxNotifyCycles := 1
  queries := [
    ("small", { filter := some (.tagged "lte"
      [.path .here [.key (.text "n")], .literal (.number (.ofNat 9))]) }),
    ("other", { select := some (.path .here [.key (.text "m")]) })]

def start : World := (World.start setup).toOption.getD {}

/-- A live query over small numbers, and one over its result. -/
def chained : World := start.play
  [.bind "r" (.newRecord [("n", .number .zero), ("m", .number .zero)] none),
    .bind "s" (.newCollection [.named "r"] none),
    .bind "a" (.live "s" "small" []), .bind "b" (.live "a" "other" [])]

def grow : Command := .onRecord "r" (.write "n" (.number (.ofNat 10)))

/-- The number grows, which fails, and leaves the second result behind. -/
def behind : World := chained.next grow

def assign (x : Double) : Assignment := ⟨⟨0, 1⟩, "m", .number x⟩

/-- An assignment that is taken back brings the second result up to date unless it is in a batch. -/
theorem shows_behind : behind.Shows [assign .one, assign .zero] ⟨3, 4⟩ :=
  ⟨_, _, Act.gives_of_toOption (by decide +kernel), Act.gives_of_toOption (by decide +kernel),
    by decide +kernel, by decide +kernel, by decide +kernel⟩

end Overrun

/-- Batches show where the two zeros are told apart, and after an operation that has failed. -/
theorem batch_visible :
    (Run True Inverses.mayChange [Inverses.live] Inverses.watched ∧
      Inverses.live.Relative ∧
      Inverses.watched.Shows [Inverses.assign (.ofNat 5), Inverses.assign Double.zero.neg]
        Inverses.live.result) ∧
    World.start Overrun.setup = .ok Overrun.start ∧
      ((Overrun.chained.perform Overrun.grow).map (·.1)).bind Reply.error? =
        some (.cycleOverrun 1) ∧
      Overrun.behind.Shows [Overrun.assign .one, Overrun.assign .zero] ⟨3, 4⟩ :=
  ⟨⟨Inverses.run_watched, Inverses.relative, Inverses.shows_negative_zero⟩, rfl, by decide +kernel,
    Overrun.shows_behind⟩

end ReactiveQuery
