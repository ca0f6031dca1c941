import ReactiveQuery.Proofs.Bus.Delivery
import ReactiveQuery.Proofs.Cell
import ReactiveQuery.Proofs.Change.Net
import ReactiveQuery.Proofs.Lifetime

/-! The net effect of a batch of writes.  No listener runs before its body is over; then the first
cycle delivers one event for each field that the body wrote and that now holds another value. -/

namespace ReactiveQuery

/-- The value of a field. -/
def Heap.field? (h : Heap) (f : Field) : Option Value :=
  (h.record? f.1).bind fun c => FieldMap.get? f.2 c.fields

/-- Does someone follow a field? -/
def Registry.Follows (r : Registry) (f : Field) : Prop :=
  r.hasListeners f.1.id (.field f.2) = true

namespace World

/-- From one world to another by writes to records, which stay alive.  Between the writes anything
may happen that leaves these records and the bus as they are; registrations do not change. -/
inductive Edits (dispatch : Act Unit) (records : List Ref) : World → List Write → World → Prop
  | refl (w : World) : Edits dispatch records w [] w
  | other {w u x : World} {ws : List Write} (writes : Edits dispatch records w ws u)
    (bus : x.bus = u.bus) (cells : ∀ r ∈ records, x.heap.record? r = u.heap.record? r) :
    Edits dispatch records w ws x
  | set {w u x : World} {ws : List Write} {r : Ref} {key : String} {v : Value}
    {result : Except Fault Unit} (writes : Edits dispatch records w ws u) (member : r ∈ records)
    (outcome : (r.setField dispatch key v).on u = (result, x))
    (registry : x.bus.registry = u.bus.registry)
    (alive : ∀ s ∈ records, (x.heap.record? s).isSome) :
    Edits dispatch records w (ws ++ [⟨(r, key), v⟩]) x

/-- What the writes from one world to another leave waiting: the fields that were written and now
hold another value than at first report this once, in the order in which they left it. -/
structure NetEffect (w : World) (records : List Ref) (ws : List Write) (u : World)
    (fields : List Field) (batch : List Event) : Prop where
  nodup : fields.Nodup
  mem : ∀ f, f ∈ fields ↔ f.1 ∈ records ∧ w.bus.registry.Follows f ∧ (∃ y ∈ ws, y.field = f) ∧
    ∃ a b, w.heap.field? f = some a ∧ u.heap.field? f = some b ∧ b.strictEq a = false
  ordered : fields.Pairwise fun f g => ∃ a b m n, w.heap.field? f = some a ∧
    w.heap.field? g = some b ∧ f.LeavesAt a ws m ∧ g.LeavesAt b ws n ∧ m < n
  reports : List.Forall₂ (fun (f : Field) (e : Event) => e.target = f.1.id ∧ e.key = .field f.2 ∧
    ∃ a, w.heap.field? f = some a ∧ u.heap.field? f = some e.new ∧ e.old.Like a) fields batch

end World

namespace Act

variable {dispatch : Act Unit} {r : Ref} {key : String} {v : Value} {w x : World} {c : RecordCell}

/-- One event is queued if it is accepted by then; whatever lives thereafter is as it was. -/
theorem enqueueAll_single (e : Event) (w : World) : ∃ v, (enqueueAll [e]).Gives w () v ∧
    v.bus = { w.bus with
      registry := v.bus.registry
      queue := ([e].filter v.bus.registry.accepts).foldl Queue.enqueue w.bus.queue } ∧
    ∀ l cell, v.heap.cell? l = some cell → w.heap.cell? l = some cell := by
  let values := [e].flatMap Event.values
  obtain ⟨r, same⟩ := World.bus_sweep { w with held := values ++ w.held }
  refine ⟨_, gives_bind.mpr ⟨(), _, gives_holding.mpr ⟨_, rfl, rfl⟩, rfl⟩, ?_, fun l cell here =>
    World.cell?_of_sweep (w := { w with held := values ++ w.held }) here⟩
  have drops : (e.new.strictEq e.old || !r.hasListeners e.target e.key) = !r.accepts e := by
    simp [Registry.accepts]
  dsimp only
  rw [same]
  dsimp only
  rw [drops]
  cases accepts : r.accepts e <;> simp [accepts]

/-- In an open bus a write does nothing, or it changes the field and queues this for whoever
follows. -/
theorem setField_of_busy {result : Except Fault Unit}
    (skips : ∀ w, w.bus.dispatching = true → dispatch.on w = (.ok (), w))
    (busy : w.bus.dispatching = true) (here : w.heap.record? r = some c) (bus : c.sink = .bus)
    (outcome : (r.setField dispatch key v).on w = (result, x)) :
    (x = w ∧ ∀ a, w.heap.field? (r, key) = some a → a.strictEq v = true) ∨
      ∃ a, w.heap.field? (r, key) = some a ∧ a.strictEq v = false ∧
        x.bus = { w.bus with
          registry := x.bus.registry
          queue := ([Event.mk r.id (.field key) v a].filter x.bus.registry.accepts).foldl
            Queue.enqueue w.bus.queue } ∧
        ∀ l cell, x.heap.cell? l = some cell →
          (w.heap.put r.loc (some (.record { c with fields := c.fields.update key v }))).cell? l =
            some cell := by
  rw [Ref.setField, on_bind_ok (on_get w), here] at outcome
  cases field : FieldMap.get? key c.fields with
  | none =>
    simp only [field, on_raise] at outcome
    obtain ⟨-, rfl⟩ := Prod.mk.inj outcome
    exact .inl ⟨rfl, fun a held => by simp [Heap.field?, here, field] at held⟩
  | some old =>
    simp only [field] at outcome
    split at outcome
    · next equal =>
      obtain ⟨-, rfl⟩ := Prod.mk.inj outcome
      refine .inl ⟨rfl, fun a held => ?_⟩
      obtain rfl : old = a := by simpa [Heap.field?, here, field] using held
      exact equal
    · next differs =>
      rw [on_bind_ok (on_changeHeap ..), bus, report, publishAll] at outcome
      obtain ⟨u, queued, same, cells⟩ := enqueueAll_single ⟨r.id, .field key, v, old⟩
        { w with heap := w.heap.setField r key v }
      have stays : u.bus.dispatching = true := by
        rw [same]
        exact busy
      rw [on_bind_ok queued, skips u stays] at outcome
      obtain ⟨-, rfl⟩ := Prod.mk.inj outcome
      refine .inr ⟨old, by simp [Heap.field?, here, field], by simpa using differs, same, ?_⟩
      rwa [← Heap.setField_eq_put (Heap.record?_eq_some.mp here)]

end Act

namespace World

/-- Records are told apart by their places and by their identities. -/
def Apart (records : List Ref) : Prop :=
  ∀ r ∈ records, ∀ s ∈ records, r.loc = s.loc ∨ r.id = s.id → r = s

/-- The fields that are told of: those of the records that they declare and that someone follows. -/
def Reports (w : World) (records : List Ref) (f : Field) : Prop :=
  f.1 ∈ records ∧ (∃ a, w.heap.field? f = some a) ∧ w.bus.registry.Follows f

/-- Fields that are told of do not share a pair. -/
theorem Apart.eq_of_pair {w : World} {records : List Ref} {f g : Field} (apart : Apart records)
    (left : w.Reports records f) (right : w.Reports records g) (same : f.pair = g.pair) :
    f = g := by
  obtain ⟨id, key⟩ := Prod.mk.inj same
  exact Prod.ext (apart _ left.1 _ right.1 (.inr id)) (EventKey.field.inj key)

/-- What a field held first. -/
def first (w : World) (f : Field) : Value := (w.heap.field? f).getD .null

/-- What holds after writes. -/
structure Written (w : World) (records : List Ref) (ws : List Write) (u : World) : Prop where
  bus : u.bus = { w.bus with queue := u.bus.queue }
  sinks : ∀ r ∈ records, ∃ c, u.heap.record? r = some c ∧ c.sink = .bus
  fields : ∀ f : Field, f.1 ∈ records →
    u.heap.field? f = (w.heap.field? f).map fun a => f.after a ws
  waiting : ∃ r fields, u.bus.queue.Holds r ∧ Away (w.Reports records) w.first ws fields ∧
    r.events = fields.map fun f => f.report (w.first f) ws

namespace Written

variable {records : List Ref} {ws : List Write} {w u x : World} {r : Ref} {key : String} {v : Value}

theorem course_value (written : w.Written records ws u) {f : Field} (member : f.1 ∈ records)
    {b : Value} (holds : u.heap.field? f = some b) : (f.course (w.first f) ws).value = b := by
  rw [written.fields f member, Option.map_eq_some_iff] at holds
  obtain ⟨a, held, rfl⟩ := holds
  rw [Field.course_value, first, held, Option.getD_some]

/-- A write of a value that is there already. -/
theorem stay (written : w.Written records ws u) (member : r ∈ records)
    (same : ∀ a, u.heap.field? (r, key) = some a → a.strictEq v = true) :
    w.Written records (ws ++ [⟨(r, key), v⟩]) u where
  bus := written.bus
  sinks := written.sinks
  fields f inside := by
    rw [written.fields f inside]
    refine Option.map_congr fun a held => ?_
    by_cases own : (r, key) = f
    · subst own
      have now : u.heap.field? (r, key) = some (Field.after (r, key) a ws) := by
        rw [written.fields _ inside, held]
        rfl
      rw [Field.after_of_eq (y := ⟨(r, key), v⟩) rfl, if_pos (same _ now)]
    · exact (Field.after_of_ne own).symm
  waiting := by
    obtain ⟨reckoning, fields, holds, away, waiting⟩ := written.waiting
    have ⟨away', reports⟩ := away.pass (y := ⟨(r, key), v⟩) fun ⟨_, ⟨a, held⟩, _⟩ => by
      have now : u.heap.field? (r, key) = some (Field.after (r, key) a ws) := by
        rw [written.fields (r, key) member, held]
        rfl
      rw [written.course_value member now]
      exact same _ now
    exact ⟨reckoning, fields, holds, away', waiting.trans reports.symm⟩

/-- What is queued for those that follow a field brings what waits up to date. -/
theorem arrive {a : Value} {q : Queue} (written : w.Written records ws u) (apart : Apart records)
    (member : r ∈ records) (here : u.heap.field? (r, key) = some a)
    (differs : a.strictEq v = false)
    (queue : q = ([Event.mk r.id (.field key) v a].filter w.bus.registry.accepts).foldl
      Queue.enqueue u.bus.queue) :
    ∃ r' fields, q.Holds r' ∧
      Away (w.Reports records) w.first (ws ++ [⟨(r, key), v⟩]) fields ∧
        r'.events = fields.map fun f => f.report (w.first f) (ws ++ [⟨(r, key), v⟩]) := by
  obtain ⟨reckoning, moved, holds, away, waiting⟩ := written.waiting
  have value := written.course_value member here
  have accepts : w.bus.registry.accepts ⟨r.id, .field key, v, a⟩ =
      w.bus.registry.hasListeners r.id (.field key) := by
    simp [Registry.accepts, Value.strictEq_symm v, differs]
  rw [List.filter_cons, accepts, List.filter_nil] at queue
  cases follows : w.bus.registry.hasListeners r.id (.field key) with
  | true =>
    have declared : ∃ b, w.heap.field? (r, key) = some b := by
      rw [written.fields _ member] at here
      exact (Option.map_eq_some_iff.mp here).imp fun _ => And.left
    obtain ⟨moved', away', waiting'⟩ := away.arrive (fun _ _ => apart.eq_of_pair) (v := v)
      ⟨member, declared, follows⟩ (by rw [value, differs]) waiting
    rw [value] at waiting'
    refine ⟨_, moved', ?_, away', waiting'⟩
    rw [queue, follows]
    exact holds.enqueue _
  | false =>
    obtain ⟨away', reports⟩ := away.pass (y := ⟨(r, key), v⟩) fun reported => by
      obtain ⟨-, -, heard⟩ := reported
      rw [Registry.Follows, follows] at heard
      cases heard
    refine ⟨reckoning, moved, ?_, away', waiting.trans reports.symm⟩
    rw [queue, follows]
    exact holds

/-- A write of another value, queued for those that follow the field. -/
theorem move {a : Value} (written : w.Written records ws u) (apart : Apart records)
    (member : r ∈ records) (here : u.heap.field? (r, key) = some a)
    (differs : a.strictEq v = false)
    (fields : ∀ f : Field, f.1 ∈ records →
      x.heap.field? f = if f = (r, key) then some v else u.heap.field? f)
    (sinks : ∀ r ∈ records, ∃ c, x.heap.record? r = some c ∧ c.sink = .bus)
    (registry : x.bus.registry = u.bus.registry)
    (same : x.bus = { u.bus with
      registry := x.bus.registry
      queue := ([Event.mk r.id (.field key) v a].filter x.bus.registry.accepts).foldl
        Queue.enqueue u.bus.queue }) :
    w.Written records (ws ++ [⟨(r, key), v⟩]) x where
  bus := by
    rw [same, registry, written.bus]
  sinks := sinks
  fields f inside := by
    rw [fields f inside, written.fields f inside]
    split
    · next own =>
      subst own
      rw [written.fields _ member] at here
      obtain ⟨b, held, rfl⟩ := Option.map_eq_some_iff.mp here
      rw [held, Option.map_some, Field.after_of_eq (y := ⟨(r, key), v⟩) rfl, differs]
      rfl
    · next other =>
      exact Option.map_congr fun b _ =>
        (Field.after_of_ne (y := ⟨(r, key), v⟩) (Ne.symm other)).symm
  waiting := by
    have queue := congrArg Bus.queue same
    have first : x.bus.registry = w.bus.registry := by rw [registry, written.bus]
    rw [first] at queue
    exact written.arrive apart member here differs queue

end Written

section
variable {records : List Ref} {u x : World} {r s : Ref} {c d : RecordCell} {key : String} {v : Value}
  (apart : Apart records) (member : r ∈ records) (inside : s ∈ records)
  (here : u.heap.record? r = some c)
  (cells : ∀ l cell, x.heap.cell? l = some cell →
    (u.heap.put r.loc (some (.record { c with fields := c.fields.update key v }))).cell? l =
      some cell)
  (found : x.heap.record? s = some d)
include apart member inside here cells found

/-- A record that lives after a write holds what was written. -/
theorem record?_of_cells :
    u.heap.record? s = some d ∧ s ≠ r ∨ s = r ∧ d = { c with fields := c.fields.update key v } := by
  have there := cells _ _ (Heap.record?_eq_some.mp found)
  by_cases own : s = r
  · subst own
    rw [Heap.cell?_put_self (Heap.record?_eq_some.mp here)] at there
    cases there
    exact .inr ⟨rfl, rfl⟩
  · have apart' : r.loc ≠ s.loc := fun same => own (apart s inside r member (.inl same.symm))
    rw [Heap.cell?_put_of_ne apart'] at there
    exact .inl ⟨Heap.record?_eq_some.mpr there, own⟩

theorem field?_of_cells {a : Value} (held : u.heap.field? (r, key) = some a) (k : String) :
    x.heap.field? (s, k) = if (s, k) = (r, key) then some v else u.heap.field? (s, k) := by
  rcases record?_of_cells apart member inside here cells found with ⟨before, other⟩ | ⟨rfl, rfl⟩
  · rw [if_neg fun own => other (congrArg Prod.fst own), Heap.field?, found, Heap.field?, before]
  · simp only [Heap.field?, here, found, Option.bind_some, FieldMap.get?_update] at held ⊢
    by_cases own : key = k
    · subst own
      simp [held]
    · simp [own, Ne.symm own]

theorem sink_of_cells (sinks : ∀ r ∈ records, ∃ c, u.heap.record? r = some c ∧ c.sink = .bus) :
    d.sink = .bus := by
  rcases record?_of_cells apart member inside here cells found with ⟨before, -⟩ | ⟨-, rfl⟩
  · obtain ⟨c', before', sink⟩ := sinks s inside
    obtain rfl := Option.some.inj (before.symm.trans before')
    exact sink
  · obtain ⟨c', here', sink⟩ := sinks r member
    obtain rfl := Option.some.inj (here.symm.trans here')
    exact sink

end

/-- Writes in an open bus leave what they have to. -/
theorem Edits.written {dispatch : Act Unit} {records : List Ref} {ws : List Write} {w u : World}
    (skips : ∀ w, w.bus.dispatching = true → dispatch.on w = (.ok (), w))
    (apart : Apart records) (busy : w.bus.dispatching = true)
    (sinks : ∀ r ∈ records, ∃ c, w.heap.record? r = some c ∧ c.sink = .bus)
    (empty : w.bus.queue.Holds {}) (writes : Edits dispatch records w ws u) :
    w.Written records ws u := by
  induction writes with
  | refl =>
    refine ⟨rfl, sinks, fun f _ => ?_, {}, [], empty, .nil _ _, rfl⟩
    cases w.heap.field? f <;> rfl
  | @other u x ws writes bus cells ih =>
    obtain ⟨bus', sinks', fields, waiting⟩ := ih
    refine ⟨by rw [bus, ← bus'], fun r member => by rw [cells r member]; exact sinks' r member,
      fun f member => ?_, by rw [bus]; exact waiting⟩
    rw [← fields f member, Heap.field?, cells f.1 member, Heap.field?]
  | @set u x ws r key v result writes member outcome registry alive written =>
    obtain ⟨c, here, sink⟩ := written.sinks r member
    have busy' : u.bus.dispatching = true := by
      rw [written.bus]
      exact busy
    rcases Act.setField_of_busy skips busy' here sink outcome with
      ⟨rfl, same⟩ | ⟨a, holds, differs, same, cells⟩
    · exact written.stay member same
    · refine written.move apart member holds differs (fun f inside => ?_) (fun s inside => ?_)
        registry same
      · obtain ⟨d, found⟩ := Option.isSome_iff_exists.mp (alive f.1 inside)
        exact field?_of_cells apart member inside here cells found holds f.2
      · obtain ⟨d, found⟩ := Option.isSome_iff_exists.mp (alive s inside)
        exact ⟨d, found, sink_of_cells apart member inside here cells found written.sinks⟩

/-- What waits after writes is their net effect. -/
theorem Written.netEffect {records : List Ref} {ws : List Write} {w u : World}
    (written : w.Written records ws u) :
    ∃ fields, NetEffect w records ws u fields u.bus.queue.events := by
  obtain ⟨r, fields, holds, away, waiting⟩ := written.waiting
  -- What the course of a field that waits says about its first value, its last and when it left.
  have inside : ∀ f ∈ fields, ∃ a n o, w.heap.field? f = some a ∧ f.1 ∈ records ∧
      (f.course (w.first f) ws).left = some (n, o) ∧ o.Like a ∧ f.LeavesAt a ws n ∧
        u.heap.field? f = some (f.after a ws) := fun f member => by
    obtain ⟨⟨here, ⟨a, held⟩, -⟩, left⟩ := (away.mem f).mp member
    obtain ⟨⟨n, o⟩, left⟩ := Option.ne_none_iff_exists'.mp left
    have known : w.first f = a := by rw [first, held, Option.getD_some]
    obtain ⟨like, -, leaves⟩ := Field.tells_course.leaves n o left
    rw [known] at like leaves
    exact ⟨a, n, o, held, here, left, like, leaves, by rw [written.fields f here, held]; rfl⟩
  refine ⟨fields, away.nodup, fun f => ?_, ?_, ?_⟩
  · rw [away.mem, Field.left_ne_none_iff, Reports, and_assoc, and_assoc]
    refine and_congr_right fun here => ?_
    rw [written.fields f here]
    constructor
    · rintro ⟨⟨a, held⟩, follows, wrote, differs⟩
      rw [first, held] at differs
      exact ⟨follows, wrote, a, _, held, by rw [held]; rfl, differs⟩
    · rintro ⟨follows, wrote, a, b, held, after, differs⟩
      rw [held, Option.map_some, Option.some.injEq] at after
      subst after
      refine ⟨⟨a, held⟩, follows, wrote, ?_⟩
      rwa [first, held]
  · refine away.ordered.imp_of_mem fun {f g} left right before => ?_
    obtain ⟨a, m, o, held, -, exit, -, leaves, -⟩ := inside f left
    obtain ⟨b, n, p, held', -, exit', -, leaves', -⟩ := inside g right
    exact ⟨a, b, m, n, held, held', leaves, leaves', before m n o p exit exit'⟩
  · rw [holds.events, waiting, List.forall₂_map_right_iff, List.forall₂_same]
    intro f member
    obtain ⟨a, n, o, held, here, exit, like, -, after⟩ := inside f member
    refine ⟨rfl, rfl, a, held, ?_, ?_⟩
    · rw [after, Field.report, Field.course_value, first, held, Option.getD_some]
    · simpa [Field.report, exit] using like

end World

namespace Callbacks

variable {again : Reentry} (C : Callbacks again) {w u : World}

/-- The first cycle after a batch delivers all that waits, if anything does. -/
theorem dispatch_eq (busy : u.bus.dispatching = true) (ceiling : 1 ≤ u.bus.ceiling)
    (indexed : u.bus.queue.Indexed) :
    ∃ rest, C.dispatch { u with bus := { u.bus with dispatching := false } } =
      if u.bus.queue.events = [] then [] else
        .taken u.bus.queue.events :: C.deliver u.bus.queue.events { u with
          bus := { u.bus with queue := {} }
          held := u.bus.queue.events.flatMap Event.values ++ u.held } ++ rest := by
  have empty := indexed.isEmpty_iff
  by_cases none : u.bus.queue.events = []
  · exact ⟨[], by rw [dispatch, if_pos (empty.mpr none), if_pos none]⟩
  · obtain ⟨count, enough⟩ := Nat.exists_eq_add_of_le' ceiling
    have waits : ¬u.bus.queue.isEmpty = true := mt empty.mp none
    have reopened : { u.bus with dispatching := true } = u.bus := by rw [← busy]
    have step : C.dispatch { u with bus := { u.bus with dispatching := false } } =
        C.cycles (count + 1) u := by
      rw [dispatch, if_neg waits]
      dsimp only
      rw [reopened, enough]
    rw [step, cycles, if_neg waits]
    exact ⟨_, (if_neg none).symm⟩

/-- The net effect of a batch.  While its body writes, nobody is told of anything; if the body then
leaves fields changed, the first cycle delivers the events that tell of them, else there is none. -/
theorem moments_of_writes {α : Type} {body : Program Scope.any Act.Skips α}
    {result : Except Error α} {records : List Ref} {ws : List Write} (settled : w.bus.Settled)
    (ceiling : 1 ≤ w.bus.ceiling) (apart : World.Apart records)
    (sinks : ∀ r ∈ records, ∃ c, w.heap.record? r = some c ∧ c.sink = .bus)
    (runs : (Act.attempt body.act).Gives { w with bus := { w.bus with dispatching := true } }
      result u)
    (writes : World.Edits (Act.dispatchIfIdle again.call again.dispatch again.perform) records
      { w with bus := { w.bus with dispatching := true } } ws u) :
    ∃ fields batch rest, World.NetEffect w records ws u fields batch ∧
      C.moments w (.batch body) =
        (body.accepted { w with bus := { w.bus with dispatching := true } }).map .accepted ++
          if batch = [] then [] else
            .taken batch :: C.deliver batch { u with
              bus := { u.bus with queue := {} }
              held := batch.flatMap Event.values ++ u.held } ++ rest := by
  have written := writes.written (w := { w with bus := { w.bus with dispatching := true } })
    (fun _ => Act.on_dispatchIfIdle_of_busy again) apart rfl sinks
    (settled.indexed.holds_of_isEmpty settled.empty)
  obtain ⟨fields, effect⟩ := written.netEffect
  obtain ⟨_, _, holds, -⟩ := written.waiting
  have busy : u.bus.dispatching = true := by rw [written.bus]
  have ceiling' : 1 ≤ u.bus.ceiling := by
    rw [written.bus]
    exact ceiling
  obtain ⟨rest, dispatch⟩ := C.dispatch_eq busy ceiling' holds.indexed
  exact ⟨fields, _, rest, ⟨effect.nodup, effect.mem, effect.ordered, effect.reports⟩,
    by rw [C.moments_batch runs, dispatch]⟩

end Callbacks

/-- A write can be read off by making it. -/
theorem World.Edits.next {dispatch : Act Unit} {records : List Ref} {ws : List Write} {w u : World}
    {r : Ref} {key : String} {v : Value} (edits : Edits dispatch records w ws u)
    (member : r ∈ records)
    (registry : ((r.setField dispatch key v).on u).2.bus.registry.entries = u.bus.registry.entries)
    (alive : ∀ s ∈ records, (((r.setField dispatch key v).on u).2.heap.record? s).isSome) :
    Edits dispatch records w (ws ++ [⟨(r, key), v⟩]) ((r.setField dispatch key v).on u).2 := by
  rcases outcome : (r.setField dispatch key v).on u with ⟨result, x⟩
  rw [outcome] at registry alive
  refine .set edits member outcome ?_ alive
  dsimp only at registry
  generalize x.bus.registry = s, u.bus.registry = t at registry
  cases s
  cases t
  exact congrArg _ registry

namespace Rewrite

/-- A record, and someone who follows everything. -/
def world : World := ((World.start {}).toOption.getD {}).play
  [.bind "r" (.newRecord [("x", .number .zero)] none), .subscribe "all" .all none []]

def opened : World := { world with bus := { world.bus with dispatching := true } }

def dispatch : Act Unit := Act.dispatchIfIdle (Reentry.within 8).call (Reentry.within 8).dispatch
  (Reentry.within 8).perform

def record : Ref := ⟨0, 1⟩

def write (n : Nat) : Act Unit := record.setField dispatch "x" (.ofNat n)

def between : World := ((write 1).on opened).2

def done : World := ((write 2).on between).2

def writes : List Write := [⟨(record, "x"), .ofNat 1⟩, ⟨(record, "x"), .ofNat 2⟩]

/-- A field that is written twice in a batch. -/
theorem moments_of_writes_twice : ∃ (C : Callbacks (Reentry.within 8))
    (body : Program Scope.any Act.Skips Unit) (fields : List Field) (batch : List Event)
    (rest : List Moment), World.NetEffect world [record] writes done fields batch ∧
      C.moments world (.batch body) = (body.accepted opened).map .accepted ++
        if batch = [] then [] else
          .taken batch :: C.deliver batch { done with
            bus := { done.bus with queue := {} }
            held := batch.flatMap Event.values ++ done.held } ++ rest := by
  have skips := Act.skips_dispatchIfIdle (Reentry.within 8)
  obtain ⟨body, same⟩ : Act.Made Scope.any Act.Skips (write 1 >>= fun _ => write 2) :=
    .bind (Act.has_setField (C := .made Scope.any Act.Skips) skips record "x" _) fun _ =>
      Act.has_setField (C := .made Scope.any Act.Skips) skips record "x" _
  obtain ⟨C⟩ := Echo.engine.nonempty_callbacks 8
  rw [Echo.engine, Engine.within_standard] at C
  have first : (write 1).Gives opened () between := Act.gives_of_toOption (by decide +kernel)
  have second : (write 2).Gives between () done := Act.gives_of_toOption (by decide +kernel)
  have runs : (Act.attempt body.act).Gives opened (.ok ()) done := by
    rw [same]
    exact Act.gives_attempt.mpr (.inl ⟨(), rfl, Act.gives_bind.mpr ⟨(), _, first, second⟩⟩)
  have made : World.Edits dispatch [record] opened writes done :=
    .next (.next (.refl opened) (List.mem_singleton_self _) (by decide +kernel)
      (by decide +kernel)) (List.mem_singleton_self _) (by decide +kernel) (by decide +kernel)
  have begun : Echo.engine.Visits ((World.start {}).toOption.getD {}) :=
    .start (show World.start {} = .ok _ from rfl)
  have settled : world.bus.Settled := (begun.play fun _ _ => trivial).settled
  have ceiling : 1 ≤ world.bus.ceiling := by decide +kernel
  have apart : World.Apart [record] := by
    simp [World.Apart]
  have sinks : ∀ r ∈ [record], ∃ c, world.heap.record? r = some c ∧ c.sink = .bus := by
    have sink : (world.heap.record? record).map (·.sink) = some .bus := by decide +kernel
    exact List.forall_mem_singleton.mpr (Option.map_eq_some_iff.mp sink)
  exact ⟨C, body,
    C.moments_of_writes (w := world) (u := done) settled ceiling apart sinks runs made⟩

end Rewrite

namespace Unwritten

/-- A record with two fields, of which the one that is followed holds NaN. -/
def world : World := ((World.start {}).toOption.getD {}).play
  [.bind "r" (.newRecord [("x", .number .nan), ("y", .number .zero)] none),
    .subscribe "follower" (.named "r") (some (.field "x")) []]

def batch : Command := .batch [.onRecord "r" (.write "y" (.number .one))]

def followed : Field := (⟨0, 1⟩, "x")

/-- After a batch that writes the other field the followed one is not strictly equal to what it was
before, for NaN never is; but nobody has written it, and its listener is not told. -/
theorem silent_of_nan : world.bus.dispatching = false ∧ 1 ≤ world.bus.ceiling ∧
    world.bus.registry.Follows followed ∧
    (∃ reply, world.perform batch = some (reply, world.next batch) ∧ reply.Ok) ∧
    (∃ a b, world.heap.field? followed = some a ∧
      (world.next batch).heap.field? followed = some b ∧ b.strictEq a = false) ∧
    ∀ entry ∈ (world.next batch).log, entry.isHeard = false := by
  have read : ∀ o : Option Value, o.any Value.isNaN = true → ∃ a, o = some a ∧ a.isNaN = true :=
    fun o nan => by cases o with
      | none => cases nan
      | some a => exact ⟨a, rfl, nan⟩
  obtain ⟨a, held, nan⟩ := read (world.heap.field? followed) (by decide +kernel)
  obtain ⟨b, holds, -⟩ := read ((world.next batch).heap.field? followed) (by decide +kernel)
  have differs : b.strictEq a = false := by
    rw [← Bool.not_eq_true, Value.strictEq_symm]
    intro equal
    rw [Value.not_isNaN_of_strictEq equal] at nan
    cases nan
  have ends : ∃ reply ∈ (world.perform batch).map (·.1), reply.Ok := by decide +kernel
  obtain ⟨reply, ends, ok⟩ := ends
  exact ⟨by decide +kernel, by decide +kernel, by unfold Registry.Follows; decide +kernel,
    ⟨reply, World.perform_eq_next ends, ok⟩, ⟨a, b, held, holds, differs⟩, by decide +kernel⟩

end Unwritten

end ReactiveQuery
