import ReactiveQuery.Proofs.Live.Rounds

/-! From round to round.  What each turn of a flush keeps is kept by the flush, and a dispatch that
succeeds goes on from each round to the next one for as long as events wait. -/

namespace ReactiveQuery

/-- The rest of the flush is given up. -/
def World.abandoned (w : World) : World :=
  { w with bus := { w.bus with scheduler := w.bus.scheduler.abandon } }

namespace Act

variable {again : Reentry} {v w : World} {count : Nat} {e : Error}

theorem turns_cons {id : Nat} {job : Job} {running : Jobs Job} {x : World}
    (next : w.bus.scheduler.running = (id, job) :: running)
    (ran : ((w.turn id job running).act again).Gives (w.turn id job running).world () x) :
    turns again (count + 1) w = w.turn id job running :: turns again count x := by
  simp only [turns, next, ran.after]

/-- What waits in a flush is run from the first job on, up to one that fails. -/
theorem on_drain_turns (again : Reentry) (count : Nat) (w : World) :
    (drain again.call again.dispatch again.perform (count + 1)).on w =
      match w.bus.scheduler.running with
      | [] => (.ok (), w)
      | (id, job) :: running =>
        match ((w.turn id job running).act again).on (w.turn id job running).world with
        | (.ok _, x) => (drain again.call again.dispatch again.perform count).on x
        | (.error (.raised e), x) => (.error (.raised e), x.abandoned)
        | (.error .endless, x) => (.error .endless, x) := by
  rcases next : w.bus.scheduler.running with _ | ⟨⟨id, job⟩, running⟩
  · exact on_drain_of_rested next
  · exact on_drain_succ next

theorem raised_drain_succ
    (fails : (drain again.call again.dispatch again.perform (count + 1)).on w =
      (.error (.raised e), v)) : ∃ id job running,
    w.bus.scheduler.running = (id, job) :: running ∧
      ((∃ x, ((w.turn id job running).act again).on (w.turn id job running).world =
          (.error (.raised e), x)) ∨
        ∃ x, ((w.turn id job running).act again).Gives (w.turn id job running).world () x ∧
          (drain again.call again.dispatch again.perform count).on x = (.error (.raised e), v)) := by
  rw [on_drain_turns] at fails
  cases next : w.bus.scheduler.running with
  | nil => simp [next] at fails
  | cons entry running =>
    obtain ⟨id, job⟩ := entry
    refine ⟨id, job, running, rfl, ?_⟩
    simp only [next] at fails
    rcases ran : ((w.turn id job running).act again).on (w.turn id job running).world with
      ⟨(e' | _) | _, x⟩ <;> rw [ran] at fails
    · cases fails
      exact .inl ⟨x, rfl⟩
    · cases fails
    · exact .inr ⟨x, ran, fails⟩

section
variable {I : World → Prop}
  (skips : ∀ w s, I w → I { w with bus := { w.bus with scheduler := s } })
  (keeps : ∀ t ∈ turns again count w, ∀ x, (t.act again).Gives t.world () x → I t.world → I x)
include skips keeps

/-- What every turn keeps is kept. -/
theorem keeps_of_drain (start : I w)
    (gives : (drain again.call again.dispatch again.perform count).Gives w () v) : I v := by
  induction count generalizing w with
  | zero =>
    obtain ⟨-, rfl⟩ := gives_drain_zero.mp gives
    exact start
  | succ count ih =>
    rcases gives_drain_succ.mp gives with ⟨-, rfl⟩ | ⟨id, job, running, x, next, ran, rest⟩
    · exact start
    · rw [turns_cons next ran] at keeps
      obtain ⟨now, later⟩ := List.forall_mem_cons.mp keeps
      exact ih later (now x ran (skips w _ start)) rest

/-- What one turn brings about, and every turn keeps, holds in the end. -/
theorem drain_of_mem_turns {t : JobTurn} (member : t ∈ turns again count w)
    (starts : ∀ x, (t.act again).Gives t.world () x → I x)
    (gives : (drain again.call again.dispatch again.perform count).Gives w () v) : I v := by
  induction count generalizing w with
  | zero => cases member
  | succ count ih =>
    rcases gives_drain_succ.mp gives with ⟨none, -⟩ | ⟨id, job, running, x, next, ran, rest⟩
    · simp [turns, none] at member
    · rw [turns_cons next ran] at keeps member
      obtain ⟨-, later⟩ := List.forall_mem_cons.mp keeps
      rcases List.mem_cons.mp member with rfl | after
      · exact keeps_of_drain skips later (starts x ran) rest
      · exact ih later after rest

end

/-- A turn that has succeeded leads to the end of the flush. -/
theorem comes_of_drain (proper : again.Proper) {t : JobTurn} {x : World}
    (member : t ∈ turns again count w) (ran : (t.act again).Gives t.world () x)
    (gives : (drain again.call again.dispatch again.perform count).Gives w () v) : x.Comes v := by
  refine drain_of_mem_turns (fun y s comes => ?_) (fun t' _ y ran' comes => ?_) member
    (fun y ran' => ?_) gives
  · have skips : (changeBus ({ · with scheduler := s })).Proper :=
      .changeBus (fun _ => rfl) (fun _ => rfl) fun _ => Nat.le_refl _
    exact comes.step skips
  · exact comes.gives (Trait.proper.holding _ (Act.Proper.run proper t'.job)) ran'
  · obtain ⟨-, rfl⟩ := ran.unique ran'
    exact .here

/-- What callbacks and marks keep is kept by a delivery. -/
theorem keeps_of_deliver {K : Command → Prop} {T : Trait} {I : World → Prop}
    (keeps : ∀ act : Act Unit, T.Has act → ∀ w v, act.Gives w () v → I w → I v)
    (performs : ∀ c, K c → T.Has (again.perform c))
    (marks : ∀ change : Bus → Scheduler Job,
      T.Has (changeBus fun b => { b with scheduler := change b }))
    (logs : ∀ name e, T.Has (Act.log (.heard name e)))
    (made : again.Made (Scope.clean K) (Settling K)) {es : List Event} (busy : w.bus.Busy K)
    (start : I w) (gives : (deliver again.perform es).Gives w () v) : I v := by
  induction es generalizing w with
  | nil =>
    obtain ⟨-, rfl⟩ := gives_pure.mp gives
    exact start
  | cons e es ih =>
    obtain ⟨u, told, rest⟩ := gives_deliver_cons.mp gives
    have hear := busy.sweep.hears (w.sweep.bus.registry.reached e.target e.key)
    have swept : I w.sweep := keeps _ T.settle w _ rfl start
    exact ih (tell_busy made hear busy.sweep told.leaves)
      (keeps _ (has_tell performs marks logs e hear) _ _ told swept) rest

/-- In a flush that succeeds every turn does. -/
theorem not_fails_of_drain {t : JobTurn} (member : t ∈ turns again count w)
    (gives : (drain again.call again.dispatch again.perform count).Gives w () v) :
    ¬t.Fails again := by
  induction count generalizing w with
  | zero => cases member
  | succ count ih =>
    rcases gives_drain_succ.mp gives with ⟨none, -⟩ | ⟨id, job, running, x, next, ran, rest⟩
    · simp [turns, none] at member
    · rw [turns_cons next ran] at member
      rcases List.mem_cons.mp member with rfl | after
      · exact fun fails => fails x ran
      · exact ih after rest

/-- A flush fails with what one of its turns fails with. -/
theorem exists_raised_of_drain
    (fails : (drain again.call again.dispatch again.perform count).on w = (.error (.raised e), v)) :
    ∃ t ∈ turns again count w, ∃ x, (t.act again).on t.world = (.error (.raised e), x) := by
  induction count generalizing w with
  | zero =>
    rw [drain, on_bind_ok (on_get w)] at fails
    split at fails <;> cases fails
  | succ count ih =>
    obtain ⟨id, job, running, next, ⟨x, raised⟩ | ⟨x, ran, rest⟩⟩ := raised_drain_succ fails
    · exact ⟨_, by rw [turns, next]; exact List.mem_cons_self, x, raised⟩
    · obtain ⟨t, member, raised⟩ := ih rest
      exact ⟨t, by rw [turns_cons next ran]; exact List.mem_cons_of_mem _ member, raised⟩

theorem exists_of_holding_error {α : Type} {values : List Value} {x : Act α} {fault : Fault}
    (fails : (holding values x).on w = (.error fault, v)) :
    ∃ u, x.on { w with held := values ++ w.held } = (.error fault, u) :=
  ⟨_, Prod.ext_iff.mpr ⟨(Prod.mk.inj fails).1, rfl⟩⟩

/-- An activity that never fails with an error. -/
def Mute {α : Type} (act : Act α) : Prop := ∀ w e v, act.on w ≠ (.error (.raised e), v)

namespace Mute

variable {α β : Type}

theorem of_ok {act : Act α} (ok : ∀ w, ∃ a v, act.on w = (.ok a, v)) : Mute act := by
  intro w e v fails
  obtain ⟨a, u, same⟩ := ok w
  rw [same] at fails
  cases fails

theorem bind {x : Act α} {f : α → Act β} (first : Mute x) (rest : ∀ a, Mute (f a)) :
    Mute (x >>= f) := fun w e v fails => by
  rcases raised_bind fails with raised | ⟨a, u, -, raised⟩
  · exact first w e v raised
  · exact rest a u e v raised

theorem holding {values : List Value} {x : Act α} (mute : Mute x) :
    Mute (Act.holding values x) := by
  intro w e v fails
  obtain ⟨u, raised⟩ := exists_of_holding_error fails
  exact mute _ e u raised

theorem log (entry : LogEntry) : Mute (Act.log entry) := of_ok fun _ => ⟨_, _, rfl⟩

variable (perform : Command → Act Reply)

theorem performAll (name : String) (cs : List Command) : Mute (Act.performAll perform name cs) := by
  induction cs with
  | nil => exact of_ok fun _ => ⟨_, _, rfl⟩
  | cons c cs ih =>
    refine bind (fun w e v => on_attempt_ne_raised e) fun result => ?_
    cases result with
    | ok reply => exact bind (log _) fun _ => ih
    | error e => exact bind (log _) fun _ => ih

/-- What a callback does wrong is logged, and a mark is a mark. -/
theorem hear (e : Event) (l : Listener) : Mute (l.hear perform e) := by
  cases l with
  | script name members actions =>
    have concerns : ∀ concerned : Bool, Mute (do
        if concerned then
          Act.log (.heard name e)
          Act.performAll perform name actions) := fun concerned => by
      split
      · exact bind (log _) fun _ => performAll perform name actions
      · exact of_ok fun _ => ⟨_, _, rfl⟩
    unfold Listener.hear
    cases members with
    | none => exact bind (of_ok fun _ => ⟨_, _, rfl⟩) concerns
    | some r =>
      exact bind (of_ok fun _ => ⟨_, _, rfl⟩) fun _ => bind (of_ok fun _ => ⟨_, _, rfl⟩) fun _ =>
        bind (of_ok fun _ => ⟨_, _, rfl⟩) concerns
  | invalidate id route job =>
    refine of_ok fun w => ?_
    rw [Listener.hear]
    split <;> exact ⟨_, _, rfl⟩

theorem tell (e : Event) (ls : List Listener) : Mute (Act.tell perform e ls) := by
  induction ls with
  | nil => exact of_ok fun _ => ⟨_, _, rfl⟩
  | cons l ls ih => exact bind (holding (hear perform e l)) fun _ => ih

/-- Delivery never fails. -/
theorem deliver (es : List Event) : Mute (Act.deliver perform es) := by
  induction es with
  | nil => exact of_ok fun _ => ⟨_, _, rfl⟩
  | cons e es ih =>
    exact bind (of_ok fun _ => ⟨_, _, rfl⟩) fun _ => bind (of_ok fun _ => ⟨_, _, rfl⟩) fun w =>
      bind (tell perform e _) fun _ => ih

end Mute

variable {r : Round}

theorem on_flush : (flush again.call again.dispatch again.perform).on r.told =
    (drain again.call again.dispatch again.perform r.flushing.bus.scheduler.running.length).on
      r.flushing := rfl

theorem rounds_of_isEmpty (empty : w.bus.queue.isEmpty = true) : rounds again count w = [] := by
  cases count with
  | zero => rfl
  | succ count => rw [rounds, if_pos empty]

/-- Cycles that succeed have nothing to do or begin with a round. -/
theorem cycles_succ_cases
    (gives : (cycles again.call again.dispatch again.perform (count + 1)).Gives w () v) :
    w.bus.queue.isEmpty = true ∧ w = v ∨ ∃ (r : Round) (x : World), r.opened = w ∧
      r.Delivers again ∧ (flush again.call again.dispatch again.perform).Gives r.told () x ∧
        (cycles again.call again.dispatch again.perform count).Gives x () v ∧
          rounds again (count + 1) w = r :: rounds again count x := by
  rcases gives_cycles_succ.mp gives with ⟨empty, same⟩ | ⟨waits, told, x, delivered, flushed, rest⟩
  · exact .inl ⟨empty, same⟩
  · refine .inr ⟨⟨w, told⟩, x, rfl, gives_holding.mp delivered, flushed, rest, ?_⟩
    simp only [rounds, waits, Bool.false_eq_true, if_false]
    rw [delivered.after, flushed.after]

/-- Cycles that fail do so in the flush of a round, or because events still wait in the end. -/
theorem raised_cycles_cases
    (fails : (cycles again.call again.dispatch again.perform (count + 1)).on w =
      (.error (.raised e), v)) : ∃ r : Round, r.opened = w ∧ r.Delivers again ∧
      ((flush again.call again.dispatch again.perform).on r.told = (.error (.raised e), v) ∧
          rounds again (count + 1) w = [r] ∨
        ∃ x, (flush again.call again.dispatch again.perform).Gives r.told () x ∧
          (cycles again.call again.dispatch again.perform count).on x = (.error (.raised e), v) ∧
            rounds again (count + 1) w = r :: rounds again count x) := by
  have waits := waits_of_cycles_error fails
  rw [on_cycles_succ waits] at fails
  rcases raised_bind fails with raised | ⟨_, told, delivered, rest⟩
  · exact absurd raised (Mute.holding (Mute.deliver again.perform _) _ e v)
  · refine ⟨⟨w, told⟩, rfl, gives_holding.mp delivered, ?_⟩
    have begins : ∀ l, (flush again.call again.dispatch again.perform).after told
        (fun _ x => rounds again count x) = l → rounds again (count + 1) w = ⟨w, told⟩ :: l := by
      rintro _ rfl
      simp only [rounds, waits, Bool.false_eq_true, if_false]
      rw [delivered.after]
    rcases raised_bind rest with raised | ⟨_, x, flushed, others⟩
    · exact .inl ⟨raised, begins [] (by rw [Act.after, raised])⟩
    · exact .inr ⟨x, flushed, others, begins _ (flushed.after _)⟩

/-- A dispatch that succeeds from an idle bus has gone through its cycles. -/
theorem exists_cycles_of_dispatchIfIdle (idle : w.bus.dispatching = false)
    (_some : w.bus.queue.isEmpty = false)
    (gives : (dispatchIfIdle again.call again.dispatch again.perform).Gives w () v) : ∃ x : World,
      (cycles again.call again.dispatch again.perform w.bus.ceiling).Gives w.opened () x ∧
        v = { x with bus := { x.bus with dispatching := false } } :=
  (gives_dispatchIfIdle idle).mp gives

/-- Where events wait, cycles that succeed begin with a round. -/
theorem exists_round_of_cycles
    (gives : (cycles again.call again.dispatch again.perform count).Gives w () v)
    (some : w.bus.queue.isEmpty = false) : ∃ (r : Round) (rs : List Round) (x : World),
      rounds again count w = r :: rs ∧ r.opened = w ∧
        (flush again.call again.dispatch again.perform).Gives r.told () x ∧
          ∃ n, (cycles again.call again.dispatch again.perform n).Gives x () v := by
  cases count with
  | zero =>
    obtain ⟨empty, -⟩ := gives_cycles_zero.mp gives
    simp [some] at empty
  | succ count =>
    rcases cycles_succ_cases gives with ⟨empty, -⟩ | ⟨r, x, opened, -, flushed, rest, more⟩
    · simp [some] at empty
    · exact ⟨r, _, x, more, opened, flushed, count, rest⟩

/-- A round of a dispatch that succeeds is flushed, and the rest of the dispatch follows. -/
theorem after_round {i : Nat}
    (gives : (cycles again.call again.dispatch again.perform count).Gives w () v)
    (here : (rounds again count w)[i]? = some r) : ∃ n x,
      (flush again.call again.dispatch again.perform).Gives r.told () x ∧
        (cycles again.call again.dispatch again.perform n).Gives x () v ∧
          (rounds again count w).drop (i + 1) = rounds again n x := by
  induction count generalizing w i with
  | zero => simp [rounds] at here
  | succ count ih =>
    rcases cycles_succ_cases gives with ⟨empty, -⟩ | ⟨s, x, -, -, flushed, rest, more⟩
    · simp [rounds_of_isEmpty empty] at here
    · rw [more] at here ⊢
      cases i with
      | zero =>
        obtain rfl : s = r := by simpa using here
        exact ⟨count, x, flushed, rest, rfl⟩
      | succ i => exact ih rest (by simpa using here)

end Act

namespace Chained

/-- Callbacks may look at the bus. -/
def Looks (c : Command) : Prop := c = .bus

theorem closed_looks : (Scope.clean Looks).Closed :=
  ⟨nofun, nofun, nofun, nofun, nofun, nofun, nofun, nofun⟩

def engine : Engine (Scope.clean Looks) := .standard closed_looks

def setup : Setup where
  queries := [
    ("known", { filter := some (.tagged "gt"
      [.path .here [.key (.text "n")], .literal (.number .zero)]) }),
    ("level", { filter := some (.tagged "gte"
      [.path .here [.key (.text "n")], .path (.arg 0) [.key (.text "n")]]) })]

def start : World := (World.start setup).toOption.getD {}

theorem started : World.start setup = .ok start := rfl

/-- A collection with a record. -/
def collect : Act Unit := do
  let r ← Act.newRecord [("n", .number .zero)]
  Act.bindName "r" (.record r)
  let s ← Act.newCollection [.record r]
  Act.bindName "s" (.collection s)

def source : World := (collect.on start).2

/-- A live query over the collection. -/
def known : Act Ref :=
  Act.live (engine.within 8).call (engine.within 8).dispatch ⟨1, 2⟩ "known" []

def watched : World := ((Act.bindName "a" (.collection ⟨2, 3⟩)).on (known.on source).2).2

/-- One over its result, which also reads the record as an argument. -/
def level : Act Ref :=
  Act.live (engine.within 8).call (engine.within 8).dispatch ⟨2, 3⟩ "level" [.record ⟨0, 1⟩]

def built : World := ((Act.bindName "b" (.collection ⟨3, 4⟩)).on (level.on watched).2).2

theorem ends_queries : (known.on source).1.toOption = some ⟨2, 3⟩ ∧
    (level.on watched).1.toOption = some ⟨3, 4⟩ := by
  decide +kernel

theorem gives_known : known.Gives source ⟨2, 3⟩ (known.on source).2 :=
  Act.gives_of_toOption ends_queries.1

theorem gives_level : level.Gives watched ⟨3, 4⟩ (level.on watched).2 :=
  Act.gives_of_toOption ends_queries.2

theorem proper : engine.Proper := Engine.proper_standard closed_looks

theorem has_collect {C : Conduct} : C.Has collect := by
  have names : ∀ name v, C.Has (Act.bindName name v) := fun _ _ =>
    Act.has_changeDesk (fun _ => rfl) fun _ => rfl
  exact .bind (Act.has_newRecord _) fun _ => .bind (names _ _) fun _ =>
    .bind (Act.has_newCollection _) fun _ => names _ _

theorem runs_source : engine.Runs source :=
  (Engine.Runs.start started).step (has_collect (C := .made _ _)) (has_collect (C := .proper))
    (Act.leaves_self nofun)

theorem runs_watched : engine.Runs watched := (runs_source.live proper gives_known).name _ _

theorem runs_built : engine.Runs built := (runs_watched.live proper gives_level).name _ _

/-- The record is given another number. -/
def put : Act Unit := Act.changeHeap (·.setField ⟨0, 1⟩ "n" (.ofNat 1))

/-- This is about to be dispatched. -/
def push : Act Unit := Act.enqueueAll [⟨1, .field "n", .ofNat 1, .number .zero⟩]

def written : World := (put.on built).2

def pushed : World := (push.on written).2

theorem gives_push : push.Gives written () pushed := Act.gives_of_toOption (by decide +kernel)

theorem begins_pushed : engine.Begins pushed := by
  have made : put.Made (Scope.clean Looks) engine.Dispatches := .of_bus fun _ => rfl
  exact .publish (runs_built.step made (Act.Proper.setField _ _ _) (Act.leaves_self nofun)) gives_push

end Chained

end ReactiveQuery
