import ReactiveQuery.Proofs.Session.Write

/-! Writes one at a time, where each is dispatched, and in a batch, where they are dispatched
together.  Either way every result is fresh again afterwards. -/

namespace ReactiveQuery

mutual
/-- A reply that tells of no failure. -/
def Reply.Ok : Reply → Prop
  | .failed _ => False
  | .list replies => Reply.AllOk replies
  | .value _ | .count _ | .definition .. | .stats _ => True

def Reply.AllOk : List Reply → Prop
  | [] => True
  | reply :: replies => Reply.Ok reply ∧ Reply.AllOk replies
end

namespace World

variable {D : Prop} {M : Nat → Prop} {qs : List LiveQuery} {T : World → Prop}
  {I : List Value → World → Prop} {dispatch : Act Unit} {containers : List Value}
  {u v w w₀ : World} {reply : Reply}

/-- What live queries ask of the values in a world: no field is negative zero, and what their paths
start at is shallow. -/
structure Tame (qs : List LiveQuery) (w : World) : Prop where
  signed : ∀ r : Ref, ∀ e ∈ w.heap.fields r, e.2.isNegativeZero = false
  shallow : ∀ q ∈ qs, w.heap.isAlive q.result.loc = true → q.Shallow w.heap

/-- A world between the operations of a caller, in which every living result is fresh as far as `D`
asks for it. -/
structure Resting (D : Prop) (M : Nat → Prop) (qs : List LiveQuery) (containers : List Value)
    (w : World) : Prop where
  sound : w.Sound M qs
  queued : w.Queued qs
  fits : w.Fits containers qs
  idle : w.Idle
  fresh : D → ∀ q ∈ qs, w.heap.isAlive q.result.loc = true → q.Fresh w.heap

/-- A world in which a batch is open that began in another world. -/
structure Batching (D : Prop) (M : Nat → Prop) (qs : List LiveQuery) (w₀ : World)
    (containers : List Value) (w : World) : Prop where
  sound : w.Sound M qs
  queued : w.Queued qs
  fits : w.Fits containers qs
  dispatching : w.bus.dispatching = true
  clean : w.bus.scheduler.marked = []
  rested : w.bus.scheduler.running = []
  olds : D → ∀ r : Ref, ∀ e ∈ w₀.heap.fields r,
    e.2.Fits containers w.heap.cells.size ∧ e.2.isNegativeZero = false
  amends : D → Amends M qs w₀ w

/-- Reading values changes no cell and nothing that waits. -/
theorem Reading.fresh {more : List Value} (reading : w.Reading qs containers more v)
    (sound : w.Sound M qs) {q : LiveQuery} (member : q ∈ qs)
    (alive : v.heap.isAlive q.result.loc = true) (fresh : q.Fresh w.heap) : q.Fresh v.heap := by
  have cells := reading.cell?
  exact sound.fresh_cells (reading.sound sound) member member alive (Nat.le_of_eq reading.size.symm)
    reading.heap.tags (fun l _ _ => by rw [cells]) (Heap.items_eq_of_cell? (by rw [cells])) fresh

theorem Reading.isAlive {more : List Value} (reading : w.Reading qs containers more v) :
    v.heap.isAlive = w.heap.isAlive := by
  unfold Heap.isAlive
  rw [reading.cell?]

theorem Tame.reading {more : List Value} (tame : w.Tame qs)
    (reading : w.Reading qs containers more v) : v.Tame qs := by
  have items : v.heap.items = w.heap.items := by
    rw [reading.heap.same]
    rfl
  constructor
  · rw [reading.heap.same]
    exact tame.signed
  · unfold LiveQuery.Shallow
    rw [reading.isAlive, items]
    exact tame.shallow

/-- Working off what waits leaves a world at rest. -/
theorem Resting.of_works (settles : Settles dispatch) (sound : u.Sound M qs) (queued : u.Queued qs)
    (fits : u.Fits containers qs) (rests : u.bus.dispatching = false)
    (clean : u.bus.scheduler.marked = []) (rested : u.bus.scheduler.running = [])
    (tracked : D → ∀ q ∈ qs, u.heap.isAlive q.result.loc = true → q.Tracked qs [] u)
    (gives : dispatch.Gives u () v) : Turns (Resting D M qs) containers u v := by
  obtain ⟨sound', queued', idle, goes⟩ := settles.works sound queued rests clean rested gives
  obtain ⟨more, grown, fits'⟩ := goes.refits containers fits
  refine ⟨goes.toPasses, more, grown, sound', queued', fits', idle, fun asked q member alive => ?_⟩
  exact (idle.tracked_iff q).mp
    (goes.tracked q member alive (tracked asked q member (goes.alive _ alive)))

/-- Outside a batch each write is dispatched. -/
theorem mode_resting (settles : Settles dispatch) :
    Mode D M qs dispatch (fun w => D → w.Tame qs) (Resting D M qs) where
  sound := Resting.sound
  queued := Resting.queued
  fits := Resting.fits
  calm rests := .inr rests.idle.silent
  holding _ rests := ⟨rests.sound.quiet rfl, rests.queued.of_bus rfl rfl, rests.fits.quiet rfl,
    ⟨rests.idle.rests, rests.idle.clean, rests.idle.rested, rests.idle.silent⟩, rests.fresh⟩
  reading rests reading := by
    refine ⟨reading.sound rests.sound, reading.queued rests.queued, reading.fits, ?_,
      fun asked q member alive => ?_⟩
    · rw [reading.same]
      exact ⟨rests.idle.rests, rests.idle.clean, rests.idle.rested, rests.idle.silent⟩
    · exact reading.fresh rests.sound member alive
        (rests.fresh asked q member (by rwa [reading.isAlive] at alive))
  ready_holding _ tame asked := ⟨(tame asked).signed, (tame asked).shallow⟩
  ready_reading tame reading asked := (tame asked).reading reading
  sets {containers w r key value old u v} rests tame number fits signed sound queued sets
      gives := by
    -- The dispatch of this write starts from fresh results, so the write alone is made up for.
    have turns : Turns (Resting D M qs) containers u v := by
      refine Resting.of_works settles sound queued (sets.fits containers rests.fits fits)
        (sets.dispatching.trans rests.idle.rests) (by rw [sets.scheduler, rests.idle.clean])
        (by rw [sets.scheduler, rests.idle.rested]) (fun asked q member alive => ?_) gives
      have lives := sets.alive _ alive
      refine Amends.tracked ?_ rests.sound sound member alive
        ((tame asked).shallow q member lives) (rests.fresh asked q member lives)
      exact (Amends.refl rests.idle.silent).sets sound rests.queued.indexed sets number fits
        (signed asked) fun s e member =>
          ⟨rests.fits.heap.fields s e member, (tame asked).signed s e member⟩
    exact ⟨sets.toPasses.trans turns.passes, turns.holds⟩
  writes {containers w r items u v} rests tame free fits sound queued writes gives := by
    have turns : Turns (Resting D M qs) containers u v := by
      refine Resting.of_works settles sound queued (writes.fits containers rests.fits fits)
        (writes.dispatching.trans rests.idle.rests) (by rw [writes.scheduler, rests.idle.clean])
        (by rw [writes.scheduler, rests.idle.rested]) (fun asked q member alive => ?_) gives
      have lives := writes.alive _ alive
      refine Amends.tracked ?_ rests.sound sound member alive
        ((tame asked).shallow q member lives) (rests.fresh asked q member lives)
      exact (Amends.refl rests.idle.silent).writes writes free.number (free.declared asked) free.own
    exact ⟨writes.toPasses.trans turns.passes, turns.holds⟩

/-- In a batch writes pile up. -/
theorem mode_batching (settles : Settles dispatch) (w₀ : World) :
    Mode D M qs dispatch (fun _ => True) (Batching D M qs w₀) where
  sound := Batching.sound
  queued := Batching.queued
  fits := Batching.fits
  calm batching := .inl batching.dispatching
  holding _ batching := ⟨batching.sound.quiet rfl, batching.queued.of_bus rfl rfl,
    batching.fits.quiet rfl, batching.dispatching, batching.clean, batching.rested, batching.olds,
    fun asked => (batching.amends asked).still rfl (Nat.le_refl _) rfl⟩
  reading {containers more w v} batching reading := by
    refine ⟨reading.sound batching.sound, reading.queued batching.queued, reading.fits, ?_, ?_, ?_,
      fun asked r e member => ?_, fun asked => ?_⟩
    · rw [reading.same]
      exact batching.dispatching
    · rw [reading.same]
      exact batching.clean
    · rw [reading.same]
      exact batching.rested
    · rw [reading.size]
      have old := batching.olds asked r e member
      exact ⟨old.1.later reading.grown (Nat.le_refl _), old.2⟩
    · refine (batching.amends asked).still ?_ reading.heap.tags ?_
      · rw [reading.heap.same]
      · rw [reading.same]
  ready_holding _ := id
  ready_reading _ _ := trivial
  sets {containers w r key value old u v} batching _ number fits signed sound queued sets
      gives := by
    -- The dispatch is nested in the batch and does nothing.
    have busy := sets.dispatching.trans batching.dispatching
    obtain rfl := settles.nested u v busy gives
    refine ⟨sets.toPasses, containers, List.prefix_refl _, sound, queued,
      sets.fits containers batching.fits fits, busy, by rw [sets.scheduler, batching.clean],
      by rw [sets.scheduler, batching.rested], ?_, fun asked => ?_⟩
    · rw [sets.size]
      exact batching.olds
    · exact (batching.amends asked).sets sound batching.queued.indexed sets number fits
        (signed asked) (batching.olds asked)
  writes {containers w r items u v} batching _ free fits sound queued writes gives := by
    have busy := writes.dispatching.trans batching.dispatching
    obtain rfl := settles.nested u v busy gives
    refine ⟨writes.toPasses, containers, List.prefix_refl _, sound, queued,
      writes.fits containers batching.fits fits, busy, by rw [writes.scheduler, batching.clean],
      by rw [writes.scheduler, batching.rested], ?_, fun asked => ?_⟩
    · rw [writes.size]
      exact batching.olds
    · exact (batching.amends asked).writes writes free.number (free.declared asked) free.own

end World

namespace Ref

variable {dispatch : Act Unit} {T : World → Prop} {key : String} {value : Value}

theorem steady_of_forall (all : ∀ w, T w) :
    ∀ (items : List Value) (w : World), Steady dispatch T key value items w
  | [], _ => trivial
  | _ :: rest, w => ⟨all w, fun v _ => steady_of_forall all rest v⟩

end Ref

namespace Command

/-- The commands that write a field, a field of every member, or the items of a collection, where
the names are bound as given. -/
inductive Single (D : Prop) (M : Nat → Prop) (qs : List LiveQuery) (names : FieldMap Value) :
    Command → Prop
  | set {name key : String} {t : Term} {r : Ref}
    (bound : FieldMap.get? name names = some (.record r)) (apart : t.Apart M names)
    (signed : D → t.isNegativeZero names = false) :
    Single D M qs names (.onRecord name (.write key t))
  | setAttr {name key : String} {t : Term} {r : Ref}
    (bound : FieldMap.get? name names = some (.collection r)) (apart : t.Apart M names)
    (signed : D → t.isNegativeZero names = false) :
    Single D M qs names (.onCollection name (.setAttr key t))
  | change {name : String} {c : CollectionCommand} {ts : List Term} {r : Ref}
    (bound : FieldMap.get? name names = some (.collection r)) (mutates : c.terms? = some ts)
    (apart : ∀ t ∈ ts, t.Apart M names) (own : ∀ q ∈ qs, q.result.loc ≠ r.loc)
    (declared : D → M r.loc) : Single D M qs names (.onCollection name c)

/-- Single writes, and batches of what writes. -/
inductive Writes (D : Prop) (M : Nat → Prop) (qs : List LiveQuery) (names : FieldMap Value) :
    Command → Prop
  | single {c : Command} (single : Single D M qs names c) : Writes D M qs names c
  | batch {cs : List Command} (all : ∀ c ∈ cs, Writes D M qs names c) :
    Writes D M qs names (.batch cs)

/-- Something holds whenever a write of the command begins. -/
def Steady (dispatch : Act Unit) (T : World → Prop) (w : World) : Command → Prop
  | .onCollection name (.setAttr key t) => ∀ r v u,
    FieldMap.get? name w.desk.names = some (.collection r) →
    (Act.read t).Gives { w with held := [.collection r] ++ w.held } v u →
    Ref.Steady dispatch T key v (u.heap.items r) u
  | _ => T w

theorem steady_of_forall {dispatch : Act Unit} {T : World → Prop} (all : ∀ w, T w) (w : World)
    (c : Command) : c.Steady dispatch T w := by
  unfold Steady
  split
  · exact fun _ _ _ _ _ => Ref.steady_of_forall all _ _
  · exact all w

end Command

namespace World

variable {D : Prop} {M : Nat → Prop} {qs : List LiveQuery} {T : World → Prop}
  {I : List Value → World → Prop} {containers : List Value} {again : Reentry} {u v w w₀ : World}
  {reply : Reply}

/-- What is held on the way may be taken off again. -/
theorem Answers.holding {dispatch : Act Unit} (mode : Mode D M qs dispatch T I)
    {values : List Value}
    (answers : Answers I containers { w with held := values ++ w.held } reply v) :
    Answers I containers w reply { v with held := w.held } := by
  obtain ⟨passes, more, grown, after, has⟩ := answers
  exact ⟨passes.holding, more, grown, mode.holding _ after,
    fun x same => ⟨(has x same).fits, (has x same).alive⟩⟩

theorem Fits.number_of_record (fits : w.Fits containers qs) {name : String} {r : Ref}
    (bound : FieldMap.get? name w.desk.names = some (.record r)) : r.id = r.loc + 1 :=
  (fits.names _ (FieldMap.mem_of_get? bound)).1

theorem Fits.number_of_collection (fits : w.Fits containers qs) {name : String} {r : Ref}
    (bound : FieldMap.get? name w.desk.names = some (.collection r)) : r.id = r.loc + 1 :=
  (fits.names _ (FieldMap.mem_of_get? bound)).1

theorem gives_onRecord {name : String} {r : Ref} {c : RecordCommand}
    (bound : FieldMap.get? name w.desk.names = some (.record r))
    (gives : ((Command.onRecord name c).perform again).Gives w reply v) :
    ∃ u, (c.perform again.dispatch r).Gives { w with held := [.record r] ++ w.held } reply u ∧
      v = { u with held := w.held } := by
  simp only [Command.perform, Act.named, Act.gives_bind, Act.gives_get, Act.gives_pure] at gives
  obtain ⟨_, _, ⟨_, _, ⟨rfl, rfl⟩, rfl, rfl⟩, gives⟩ := gives
  rw [bound] at gives
  exact Act.gives_holding.mp gives

theorem gives_onCollection {name : String} {r : Ref} {c : CollectionCommand}
    (bound : FieldMap.get? name w.desk.names = some (.collection r))
    (gives : ((Command.onCollection name c).perform again).Gives w reply v) :
    ∃ u, (c.perform again.dispatch r).Gives { w with held := [.collection r] ++ w.held } reply u ∧
      v = { u with held := w.held } := by
  simp only [Command.perform, Act.named, Act.gives_bind, Act.gives_get, Act.gives_pure] at gives
  obtain ⟨_, _, ⟨_, _, ⟨rfl, rfl⟩, rfl, rfl⟩, gives⟩ := gives
  rw [bound] at gives
  exact Act.gives_holding.mp gives

section
variable {dispatch : Act Unit} (mode : Mode D M qs dispatch T I) (settles : Settles dispatch)
  {r : Ref} {key : String} {t : Term}
include mode settles

theorem Mode.write_answers (holds : I containers w) (ready : T w) (number : r.id = r.loc + 1)
    (apart : t.Apart M w.desk.names) (signed : D → t.isNegativeZero w.desk.names = false)
    (gives : ((RecordCommand.write key t).perform dispatch r).Gives w reply v) :
    Answers I containers w reply v := by
  simp only [RecordCommand.perform, Act.gives_bind, Act.gives_holding, Act.gives_pure] at gives
  obtain ⟨x, u, read, _, _, ⟨y, set, rfl⟩, rfl, rfl⟩ := gives
  obtain ⟨more, reading, reads⟩ := Act.gives_read apart.1 (mode.fits holds) read
  have may := apart.may (mode.sound holds) reading reads
  have turns := mode.setField settles (mode.holding ([x] ++ u.held) (mode.reading holds reading))
    (mode.ready_holding _ (mode.ready_reading ready reading)) number
    ⟨⟨may.fits, may.alive⟩, may.apart⟩ (fun asked => reads.sign.trans (signed asked)) set
  refine ((turns.answers ?_).holding mode).of_reading reading
  rintro _ ⟨⟩
  exact has_null ..

theorem Mode.setAttr_answers (holds : I containers w)
    (steady : ∀ x u, (Act.read t).Gives w x u → Ref.Steady dispatch T key x (u.heap.items r) u)
    (apart : t.Apart M w.desk.names) (signed : D → t.isNegativeZero w.desk.names = false)
    (gives : ((CollectionCommand.setAttr key t).perform dispatch r).Gives w reply v) :
    Answers I containers w reply v := by
  simp only [CollectionCommand.perform, Act.gives_bind, Act.gives_get, Act.gives_pure] at gives
  obtain ⟨x, u, read, _, _, ⟨rfl, rfl⟩, _, _, set, rfl, rfl⟩ := gives
  obtain ⟨more, reading, reads⟩ := Act.gives_read apart.1 (mode.fits holds) read
  have sound := reading.sound (mode.sound holds)
  have turns := mode.setAttr settles (mode.reading holds reading) (steady x u read)
    (apart.may (mode.sound holds) reading reads) (fun asked => reads.sign.trans (signed asked))
    (fun y item => sound.has_item reading.fits item) set
  refine (turns.answers ?_).of_reading reading
  rintro _ ⟨⟩
  exact has_null ..

end

/-- A single write goes on to a world that holds as much. -/
theorem Mode.single (mode : Mode D M qs again.dispatch T I) (settles : Settles again.dispatch)
    {c : Command} (holds : I containers w) (steady : c.Steady again.dispatch T w)
    (single : c.Single D M qs w.desk.names) (gives : (c.perform again).Gives w reply v) :
    Answers I containers w reply v := by
  have fits := mode.fits holds
  cases single with
  | @set _ _ _ r bound apart signed =>
    obtain ⟨u, wrote, rfl⟩ := gives_onRecord bound gives
    have held := mode.holding ([.record r] ++ w.held) holds
    have ready := mode.ready_holding ([.record r] ++ w.held) steady
    have number := fits.number_of_record bound
    have answers := mode.write_answers settles held ready number apart signed wrote
    exact answers.holding mode
  | @setAttr _ _ _ r bound apart signed =>
    obtain ⟨u, wrote, rfl⟩ := gives_onCollection bound gives
    have answers := mode.setAttr_answers settles (mode.holding ([.collection r] ++ w.held) holds)
      (fun x u => steady r x u bound) apart signed wrote
    exact answers.holding mode
  | @change name c ts r bound mutates apart own declared =>
    obtain ⟨u, wrote, rfl⟩ := gives_onCollection bound gives
    have ready : T w := by
      cases c <;> first | exact steady | cases mutates
    have answers := mode.mutate settles (mode.holding ([.collection r] ++ w.held) holds)
      (mode.ready_holding _ ready) ⟨fits.number_of_collection bound, own, declared⟩ mutates apart
      wrote
    exact answers.holding mode

theorem Batching.single {c : Command} (settles : Settles again.dispatch)
    (batching : Batching D M qs w₀ containers w) (single : c.Single D M qs w.desk.names)
    (gives : (c.perform again).Gives w reply v) : Turns (Batching D M qs w₀) containers w v := by
  have steady : c.Steady again.dispatch (fun _ => True) w :=
    Command.steady_of_forall (fun _ => trivial) w c
  obtain ⟨passes, more, grown, after, -⟩ :=
    (mode_batching settles w₀).single settles batching steady single gives
  exact ⟨passes, more, grown, after⟩

/-- What is performed in an open batch without failure leaves it open. -/
theorem Batching.performAll {names : FieldMap Value} {cs : List Command}
    (all : ∀ c ∈ cs, ∀ {containers w reply v}, Batching D M qs w₀ containers w →
      w.desk.names = names → (c.perform again).Gives w reply v → reply.Ok →
      Turns (Batching D M qs w₀) containers w v)
    (batching : Batching D M qs w₀ containers w) (named : w.desk.names = names)
    {replies : List Reply} (gives : (Command.performAll again cs).Gives w replies v)
    (ok : Reply.AllOk replies) : Turns (Batching D M qs w₀) containers w v := by
  induction cs generalizing containers w replies with
  | nil =>
    rw [Command.performAll] at gives
    obtain ⟨-, rfl⟩ := Act.gives_pure.mp gives
    exact .refl batching
  | cons c cs ih =>
    simp only [Command.performAll, Act.gives_bind, Act.gives_pure] at gives
    obtain ⟨result, u, attempted, others, _, rest, rfl, rfl⟩ := gives
    rcases Act.gives_attempt.mp attempted with ⟨first, rfl, performed⟩ | ⟨e, rfl, -⟩
    · have turns := all c List.mem_cons_self batching named performed ok.1
      refine turns.trans fun more grown batching => ?_
      exact ih (fun c member => all c (List.mem_cons_of_mem _ member)) batching
        (by rw [turns.passes.desk, named]) rest ok.2
    · exact ok.1.elim

theorem Batching.perform {names : FieldMap Value} {c : Command} (settles : Settles again.dispatch)
    (writes : c.Writes D M qs names) : ∀ {containers w reply v},
    Batching D M qs w₀ containers w → w.desk.names = names →
    (c.perform again).Gives w reply v → reply.Ok → Turns (Batching D M qs w₀) containers w v := by
  induction writes with
  | single single =>
    rintro containers w reply v batching rfl gives -
    exact batching.single settles single gives
  | @batch cs all ih =>
    intro containers w reply v batching named gives ok
    simp only [Command.perform, Act.batch, Act.gives_bind, Act.gives_get, Act.gives_pure] at gives
    obtain ⟨replies, _, ⟨_, _, ⟨rfl, rfl⟩, body⟩, rfl, rfl⟩ := gives
    rw [if_pos batching.dispatching] at body
    exact Batching.performAll ih batching named body ok

theorem Passes.within {b : Bool}
    (passes : Passes { w with bus := { w.bus with dispatching := b } } v) :
    w.Passes { v with bus := { v.bus with dispatching := w.bus.dispatching } } where
  desk := passes.desk
  held := passes.held
  dispatching := rfl
  size := passes.size
  tags := passes.tags
  alive := passes.alive
  rooted := passes.rooted

/-- A batch begins with nothing written. -/
theorem Resting.opens (resting : Resting D M qs containers w) (tame : D → w.Tame qs) :
    Batching D M qs w containers { w with bus := { w.bus with dispatching := true } } :=
  ⟨resting.sound.quiet rfl, resting.queued.of_bus rfl rfl, resting.fits.quiet rfl, rfl,
    resting.idle.clean, resting.idle.rested, fun asked r e member =>
      ⟨resting.fits.heap.fields r e member, (tame asked).signed r e member⟩,
    fun _ => (Amends.refl resting.idle.silent).still rfl (Nat.le_refl _) rfl⟩

/-- What piled up in a batch is worked off at its end. -/
theorem Resting.closes {dispatch : Act Unit} {more : List Value} (settles : Settles dispatch)
    (resting : Resting D M qs containers w) (tame : D → w.Tame qs)
    (closed : Batching D M qs w more u) (alive : ∀ l, u.heap.isAlive l = true →
      w.heap.isAlive l = true)
    (dispatched : dispatch.Gives { u with bus := { u.bus with dispatching := false } } () v) :
    Turns (Resting D M qs) more { u with bus := { u.bus with dispatching := false } } v := by
  refine Resting.of_works settles (closed.sound.quiet rfl) (closed.queued.of_bus rfl rfl)
    (closed.fits.quiet rfl) rfl closed.clean closed.rested (fun asked q member living => ?_)
    dispatched
  have lives := alive _ living
  have amends : Amends M qs w { u with bus := { u.bus with dispatching := false } } :=
    (closed.amends asked).still rfl (Nat.le_refl _) rfl
  exact amends.tracked resting.sound (closed.sound.quiet rfl) member living
    ((tame asked).shallow q member lives) (resting.fresh asked q member lives)

/-- A batch of writes is worked off at its end. -/
theorem Resting.batch {cs : List Command} (settles : Settles again.dispatch)
    (resting : Resting D M qs containers w) (tame : D → w.Tame qs)
    (all : ∀ c ∈ cs, c.Writes D M qs w.desk.names)
    (gives : ((Command.batch cs).perform again).Gives w reply v) (ok : reply.Ok) :
    Turns (Resting D M qs) containers w v := by
  simp only [Command.perform, Act.gives_bind, Act.gives_pure] at gives
  obtain ⟨replies, _, body, rfl, rfl⟩ := gives
  obtain ⟨u, performed, dispatched⟩ := Act.gives_batch_of_idle resting.idle.rests body
  obtain ⟨passes, more, grown, closed⟩ := Batching.performAll
    (fun c member => Batching.perform settles (all c member)) (resting.opens tame) rfl performed ok
  have passes' := passes.within
  rw [resting.idle.rests] at passes'
  obtain ⟨passes'', most, grown', after⟩ :=
    resting.closes settles tame closed passes.alive dispatched
  exact ⟨passes'.trans passes'', most, grown.trans grown', after⟩

end World

end ReactiveQuery
