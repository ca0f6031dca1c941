import ReactiveQuery.Proofs.Bus.Delivery
import ReactiveQuery.Proofs.Live.Stirring

/-! Who is called.  A field listener of a collection follows a field of every record, and asks only
when its turn comes whether the record at hand is a member.  So the calls of a dispatch, in their
order, are those of the listeners in the history of the dispatch that find themselves concerned when
they are told. -/

namespace ReactiveQuery

/-- On an open bus the activity leaves it open and calls no listener. -/
def Act.Aloof {α : Type} (act : Act α) : Prop := ∀ w : World, w.bus.dispatching = true →
  (act.on w).2.bus.dispatching = true ∧ (act.on w).2.heard = w.heard

theorem World.heard_sweep (w : World) : w.sweep.heard = w.heard := by
  rw [same_sweep]
  rfl

def Trait.aloof : Trait where
  Has := Act.Aloof
  still still w busy := ⟨by rw [(still w).bus, busy], (still w).heard⟩
  bind {_ _ x _} first rest w busy := by
    have ⟨busy', heard⟩ := first w busy
    rw [Act.on_bind]
    rcases outcome : x.on w with ⟨_ | a, u⟩ <;> rw [outcome] at busy' heard
    · exact ⟨busy', heard⟩
    · exact ⟨(rest a u busy').1, (rest a u busy').2.trans heard⟩
  holding values aloof w busy := aloof { w with held := values ++ w.held } busy
  attempt {_ x} aloof w busy := by
    have inner := aloof w busy
    rw [Act.on_attempt]
    rcases outcome : x.on w with ⟨(_ | _) | _, _⟩ <;> rw [outcome] at inner <;> exact inner
  settle w busy := by
    obtain ⟨r, same⟩ := World.bus_sweep w
    rw [Act.settle, Act.on_modify]
    exact ⟨by rw [same, ← busy], w.heard_sweep⟩

namespace Act

variable {α : Type}

/-- Queueing calls nobody. -/
theorem heard_of_enqueueAll {es : List Event} {w v : World}
    (gives : (enqueueAll es).Gives w () v) : v.heard = w.heard := by
  induction es generalizing w with
  | nil => rw [(gives_pure.mp gives).2]
  | cons e es ih =>
    obtain ⟨_, u, first, rest⟩ := gives_bind.mp gives
    obtain ⟨x, queued, rfl⟩ := gives_holding.mp first
    obtain ⟨_, _, settled, changed⟩ := gives_bind.mp queued
    obtain rfl := gives_modify.mp settled
    obtain rfl := gives_changeBus.mp changed
    rw [ih rest]
    exact World.heard_sweep _

namespace Aloof

theorem of_log {act : Act α} (log : ∀ w, (act.on w).2.log = w.log)
    (dispatching : ∀ w, (act.on w).2.bus.dispatching = w.bus.dispatching) : act.Aloof :=
  fun w busy => ⟨by rw [dispatching, busy], by rw [World.heard, log, World.heard]⟩

theorem onBus {change : Bus → α × Bus} (same : ∀ b, (change b).2.dispatching = b.dispatching) :
    (Act.onBus change).Aloof := of_log (fun _ => rfl) fun w => same w.bus

theorem changeDesk (change : Desk → Desk) : (Act.changeDesk change).Aloof :=
  of_log (fun _ => rfl) fun _ => rfl

theorem addListener (l : Listener) : (Act.addListener l).Aloof := onBus fun _ => rfl

theorem subscribe (s : Subscription) : (Act.subscribe s).Aloof := onBus fun _ => rfl

theorem unsubscribe (s : Subscription) : (Act.unsubscribe s).Aloof := onBus fun _ => rfl

theorem retain (r : Ref) (retained : Retained) : (r.retain retained).Aloof :=
  of_log (fun _ => rfl) fun _ => rfl

theorem newCollection (items : List Value) : (Act.newCollection items).Aloof :=
  of_log (fun _ => rfl) fun _ => rfl

theorem registers : Trait.aloof.Registers where
  addListener := addListener
  subscribe := subscribe
  unsubscribe := unsubscribe
  changeDesk := changeDesk
  retain := retain

theorem publishAll {dispatch : Act Unit} (silent : dispatch.Silent) (es : List Event) :
    (Act.publishAll dispatch es).Aloof := fun w busy => by
  obtain ⟨v, gives, takes⟩ := Act.enqueueAll_takes es w
  rw [Act.publishAll, Act.on_bind_ok gives]
  have left := takes.busy busy
  rcases silent v left with same | same <;> rw [same] <;> exact ⟨left, heard_of_enqueueAll gives⟩

end Aloof

end Act

/-- Nothing that runs on an open bus calls a listener: events wait for the dispatch. -/
def Conduct.aloof : Conduct where
  toTrait := .aloof
  inert inert w busy := ⟨by rw [(inert w).bus, busy], (inert w).heard⟩
  scope := .any
  dispatches := Act.Silent
  nextId := .onBus fun _ => rfl
  setField _ _ _ := .of_log (fun _ => rfl) fun _ => rfl
  setItems _ _ := .of_log (fun _ => rfl) fun _ => rfl
  keep r _ := .retain r _
  attach source d params _ first :=
    Trait.aloof.bind (.newCollection []) fun r => Trait.aloof.bind (Trait.aloof.holding _
      (Trait.aloof.bind (Act.has_attach Act.Aloof.registers r source d params) fun _ =>
        first r)) fun _ => Trait.Has.ret (T := .aloof) _
  tells _ := True
  tells_field _ _ _ _ := trivial
  tells_change _ _ _ _ _ := trivial
  tells_publish _ _ := trivial
  tells_publishAll _ _ := trivial
  publishAll silent events _ := .publishAll silent events
  batch _ aloof w busy := by
    rw [Act.on_batch_of_busy busy]
    exact aloof w busy
  reschedule _ _ := .onBus fun _ => rfl
  listen _ handle collection key := Act.has_listen Act.Aloof.registers handle collection key _
  unlisten := Act.has_unlisten Act.Aloof.registers
  subscribe _ again listener target key :=
    Act.has_subscribe Act.Aloof.registers again listener target key _
  unsubscribe := Act.has_unsubscribe Act.Aloof.registers

theorem Reentry.aloof_within (depth : Nat) : Conduct.aloof.Allows (Reentry.within depth) := by
  induction depth with
  | zero =>
    exact ⟨fun _ _ _ => Trait.Has.fault (T := .aloof) _, fun _ _ => .inr rfl,
      fun _ _ => Trait.Has.fault (T := .aloof) _⟩
  | succ depth ih =>
    refine ⟨Extension.has_invoke ih.call ih.dispatch, fun w busy => ?_,
      Command.has_perform Scope.closed_any ih⟩
    exact .inl (Act.on_dispatchIfIdle_of_busy (Reentry.within depth) busy)

/-- A listener that is told of an event, and the world just then. -/
structure Hearing where
  event : Event
  listener : Listener
  world : World

namespace Hearing

def pair (y : Hearing) : Event × Listener := (y.event, y.listener)

/-- The call of the callback, if it is called.  One for the members of a collection is called if just
then the collection lives and the event is on a member of it. -/
def call? (y : Hearing) : Option LogEntry :=
  match y.listener with
  | .script name none _ => some (.heard name y.event)
  | .script name (some r) _ =>
    if y.world.heap.isAlive r.loc && y.world.heap.hasMember r y.event.target then
      some (.heard name y.event)
    else none
  | .invalidate .. => none

end Hearing

namespace Reentry

variable (again : Reentry)

/-- Who is told of an event, when listeners are told of it in turn. -/
def tellings (e : Event) : List Listener → World → List Hearing
  | [], _ => []
  | l :: ls, w =>
    let values := (l :: ls).flatMap Listener.values
    ⟨e, l, { w with held := values ++ w.held }.sweep⟩ ::
      (Act.holding values (l.hear again.perform e)).after w fun _ v => tellings e ls v

/-- Who is told when events are delivered. -/
def deliveries : List Event → World → List Hearing
  | [], _ => []
  | e :: es, w =>
    let ls := w.sweep.bus.hearers e
    again.tellings e ls w.sweep ++
      (Act.tell again.perform e ls).after w.sweep fun _ v => deliveries es v

/-- Who is told in cycles. -/
def hearings : Nat → World → List Hearing
  | 0, _ => []
  | count + 1, w =>
    let es := w.bus.queue.events
    let values := es.flatMap Event.values
    let u := { w with bus := { w.bus with queue := {} } }
    if w.bus.queue.isEmpty then [] else
      again.deliveries es { u with held := values ++ u.held } ++
        (Act.holding values (Act.deliver again.perform es)).after u fun _ v =>
          (Act.flush again.call again.dispatch again.perform).after v fun _ x => hearings count x

/-- Who is told from the dispatch of an idle bus on. -/
def told (w : World) : List Hearing :=
  again.hearings w.bus.ceiling { w with bus := { w.bus with dispatching := true } }

end Reentry

/-- Who is told in an outermost call. -/
def Outer.told {α : Type} (again : Reentry) (w : World) : Outer α → List Hearing
  | .publish es => (Act.enqueueAll es).after w fun _ u => again.told u
  | .batch body =>
    (Act.attempt body.act).after { w with bus := { w.bus with dispatching := true } } fun _ u =>
      again.told { u with bus := { u.bus with dispatching := false } }

namespace Act

variable {again : Reentry} (allows : Conduct.aloof.Allows again) {e : Event} {w v : World}
include allows

/-- A listener that is told is called if it finds itself concerned. -/
theorem heard_of_hear {l : Listener} (busy : w.bus.dispatching = true)
    (gives : (l.hear again.perform e).Gives w () v) :
    v.bus.dispatching = true ∧ v.heard = (Hearing.call? ⟨e, l, w.sweep⟩).toList ++ w.heard := by
  cases l with
  | script name members actions =>
    -- The actions of a script are aloof on an open bus, so the call is the only one heard.
    have calls : ∀ u : World, u.bus.dispatching = true →
        (performAll again.perform name actions).Gives { u with log := .heard name e :: u.log } ()
          v → v.bus.dispatching = true ∧ v.heard = .heard name e :: u.heard := fun u busy gives => by
      have aloof := has_performAll (T := .aloof) (K := fun _ => True) allows.perform name actions
        (fun _ _ => trivial) { u with log := .heard name e :: u.log } busy
      rwa [gives.on] at aloof
    have swept : w.sweep.bus.dispatching = true := (Bus.Takes.sweep w).busy busy
    unfold Listener.hear at gives
    cases members with
    | none =>
      obtain ⟨_, _, same, rest⟩ := gives_bind.mp gives
      obtain ⟨rfl, rfl⟩ := gives_pure.mp same
      obtain ⟨_, _, logged, rest⟩ := gives_bind.mp rest
      obtain rfl := gives_modify.mp logged
      exact calls w busy rest
    | some r =>
      obtain ⟨alive, u, looked, rest⟩ := gives_bind.mp gives
      obtain ⟨rfl, rfl⟩ : alive = w.sweep.heap.isAlive r.loc ∧ u = w.sweep := by
        cases looked
        exact ⟨rfl, rfl⟩
      obtain ⟨_, _, same, rest⟩ := gives_bind.mp rest
      obtain ⟨rfl, rfl⟩ := gives_get.mp same
      obtain ⟨_, _, same, rest⟩ := gives_bind.mp rest
      obtain ⟨rfl, rfl⟩ := gives_pure.mp same
      cases concerned : w.sweep.heap.isAlive r.loc && w.sweep.heap.hasMember r e.target with
      | false =>
        rw [concerned] at rest
        obtain ⟨-, rfl⟩ := gives_pure.mp rest
        refine ⟨swept, ?_⟩
        simp [Hearing.call?, concerned, World.heard_sweep]
      | true =>
        rw [concerned] at rest
        obtain ⟨_, _, logged, rest⟩ := gives_bind.mp rest
        obtain rfl := gives_modify.mp logged
        obtain ⟨open', heard⟩ := calls w.sweep swept rest
        refine ⟨open', heard.trans ?_⟩
        simp [Hearing.call?, concerned, World.heard_sweep]
  | invalidate id route job =>
    have aloof : Act.Aloof (Listener.hear again.perform e (.invalidate id route job)) :=
      Trait.Has.ite (T := .aloof) (Aloof.of_log (fun _ => rfl) fun _ => rfl)
        (Trait.Has.ret (T := .aloof) _)
    have step := aloof w busy
    rwa [gives.on] at step

/-- The calls of a list of listeners, the last one first. -/
theorem heard_of_tell {ls : List Listener} (busy : w.bus.dispatching = true)
    (gives : (tell again.perform e ls).Gives w () v) : v.bus.dispatching = true ∧
      v.heard = ((again.tellings e ls w).filterMap Hearing.call?).reverse ++ w.heard := by
  induction ls generalizing w with
  | nil =>
    obtain ⟨-, rfl⟩ := gives_pure.mp gives
    exact ⟨busy, rfl⟩
  | cons l ls ih =>
    obtain ⟨_, u, first, rest⟩ := gives_bind.mp gives
    obtain ⟨x, inner, rfl⟩ := gives_holding.mp first
    obtain ⟨open', heard⟩ := heard_of_hear allows
      (w := { w with held := (l :: ls).flatMap Listener.values ++ w.held }) busy inner
    obtain ⟨open'', heard'⟩ := ih (w := { x with held := w.held }) open' rest
    refine ⟨open'', heard'.trans ?_⟩
    have goes : ({ x with held := w.held } : World).heard = _ := heard
    rw [Reentry.tellings, first.after, goes, List.filterMap_cons]
    cases Hearing.call? _ <;> simp [World.heard]

theorem heard_of_deliver {es : List Event} (busy : w.bus.dispatching = true)
    (gives : (deliver again.perform es).Gives w () v) : v.bus.dispatching = true ∧
      v.heard = ((again.deliveries es w).filterMap Hearing.call?).reverse ++ w.heard := by
  induction es generalizing w with
  | nil =>
    obtain ⟨-, rfl⟩ := gives_pure.mp gives
    exact ⟨busy, rfl⟩
  | cons e es ih =>
    obtain ⟨u, telling, delivering⟩ := gives_deliver_cons.mp gives
    have told : (tell again.perform e (w.sweep.bus.hearers e)).Gives w.sweep () u := telling
    obtain ⟨busy', heard⟩ := heard_of_tell allows ((Bus.Takes.sweep w).busy busy) told
    obtain ⟨busy'', heard'⟩ := ih busy' delivering
    refine ⟨busy'', ?_⟩
    rw [heard', heard, World.heard_sweep, Reentry.deliveries, told.after, List.filterMap_append,
      List.reverse_append, List.append_assoc]

theorem heard_of_cycles {count : Nat} (busy : w.bus.dispatching = true)
    (gives : (cycles again.call again.dispatch again.perform count).Gives w () v) :
    v.heard = ((again.hearings count w).filterMap Hearing.call?).reverse ++ w.heard := by
  induction count generalizing w with
  | zero =>
    obtain ⟨-, rfl⟩ := gives_cycles_zero.mp gives
    rfl
  | succ count ih =>
    rw [Reentry.hearings]
    dsimp only
    rcases gives_cycles_succ.mp gives with ⟨empty, rfl⟩ | ⟨waits, x, y, delivered, flushed, cycled⟩
    · rw [if_pos empty]
      rfl
    · obtain ⟨u, inner, rfl⟩ := gives_holding.mp delivered
      obtain ⟨busy', heard⟩ := heard_of_deliver allows
        (w := { w with
          bus := { w.bus with queue := {} }
          held := w.bus.queue.events.flatMap Event.values ++ w.held }) busy inner
      have aloof := has_flush allows trivial (fun _ => trivial) { u with held := w.held } busy'
      rw [flushed.on] at aloof
      obtain ⟨busy'', heard'⟩ := aloof
      rw [if_neg (by simp [waits]), delivered.after, flushed.after, ih busy'' cycled, heard',
        List.filterMap_append, List.reverse_append, List.append_assoc]
      exact congrArg _ heard

theorem heard_of_dispatch (idle : w.bus.dispatching = false)
    (gives : (dispatchIfIdle again.call again.dispatch again.perform).Gives w () v) :
    v.heard = ((again.told w).filterMap Hearing.call?).reverse ++ w.heard := by
  obtain ⟨u, cycled, rfl⟩ := (gives_dispatchIfIdle idle).mp gives
  exact heard_of_cycles allows (w := { w with bus := { w.bus with dispatching := true } })
    (v := u) rfl cycled

end Act

section
variable {α β γ : Type}

theorem Act.filterMap_after (act : Act α) (w : World) (rest : α → World → List β)
    (f : β → Option γ) :
    (act.after w rest).filterMap f = act.after w fun a v => (rest a v).filterMap f := by
  unfold Act.after
  split <;> rfl

theorem Act.map_after (act : Act α) (w : World) (rest : α → World → List β) (f : β → γ) :
    (act.after w rest).map f = act.after w fun a v => (rest a v).map f := by
  unfold Act.after
  split <;> rfl

@[simp] theorem Act.after_nil (act : Act α) (w : World) :
    (act.after w fun _ _ => ([] : List β)) = [] := by
  unfold Act.after
  split <;> rfl

end

/-- A moment at which a listener is told of an event. -/
def Moment.told? : Moment → Option (Event × Listener)
  | .told e l => some (e, l)
  | _ => none

@[simp] theorem Moment.told?_told (e : Event) (l : Listener) :
    (Moment.told e l).told? = some (e, l) := rfl

@[simp] theorem Moment.told?_turn (e : Event) (b : Bus) : (Moment.turn e b).told? = none := rfl

@[simp] theorem Moment.told?_taken (es : List Event) : (Moment.taken es).told? = none := rfl

@[simp] theorem Moment.told?_flushing : Moment.flushing.told? = none := rfl

@[simp] theorem Moment.told?_accepted (e : Event) : (Moment.accepted e).told? = none := rfl

/-- The listeners that are told in a turn. -/
def Turn.tells (t : Turn) : List (Event × Listener) := t.told.map fun x => (t.event, x.listener)

/-- Who is told of what in a history. -/
def History.tells (h : History) : List (Event × Listener) :=
  h.cycles.flatMap fun c => c.turns.flatMap Turn.tells

theorem Turn.filterMap_moments (t : Turn) : t.moments.filterMap Moment.told? = t.tells := by
  have each : ∀ x : Told, (x.moments t.event).filterMap Moment.told? = [(t.event, x.listener)] :=
    fun x => by
    simp [Told.moments]
  simp [moments, tells, List.filterMap_cons, List.filterMap_flatMap, each, List.map_eq_flatMap]

theorem Cycle.filterMap_moments (c : Cycle) :
    c.moments.filterMap Moment.told? = c.turns.flatMap Turn.tells := by
  simp [moments, List.filterMap_cons, List.filterMap_flatMap, Turn.filterMap_moments]

theorem History.filterMap_moments (h : History) :
    h.moments.filterMap Moment.told? = h.tells := by
  simp [moments, tells, List.filterMap_flatMap, Cycle.filterMap_moments]

namespace Callbacks

variable {again : Reentry} (C : Callbacks again) {w : World}

theorem map_tellings (e : Event) (ls : List Listener) (w : World) :
    (again.tellings e ls w).map Hearing.pair = (C.tell e ls w).filterMap Moment.told? := by
  induction ls generalizing w with
  | nil => rfl
  | cons l ls ih =>
    simp [Reentry.tellings, tell, Hearing.pair, Act.map_after, Act.filterMap_after, ih, C.hear_act]

theorem map_deliveries (es : List Event) (w : World) :
    (again.deliveries es w).map Hearing.pair = (C.deliver es w).filterMap Moment.told? := by
  induction es generalizing w with
  | nil => rfl
  | cons e es ih =>
    simp [Reentry.deliveries, deliver, List.filterMap_cons, Act.map_after, Act.filterMap_after, ih,
      C.map_tellings]

/-- Jobs tell nobody of an event. -/
theorem filterMap_drain (count : Nat) (w : World) :
    (C.drain count w).filterMap Moment.told? = [] := by
  induction count generalizing w with
  | zero => rfl
  | succ count ih =>
    rw [drain]
    split
    · rfl
    · simp [Act.filterMap_after, ih]

theorem map_hearings (count : Nat) (w : World) :
    (again.hearings count w).map Hearing.pair = (C.cycles count w).filterMap Moment.told? := by
  induction count generalizing w with
  | zero => rfl
  | succ count ih =>
    rw [Reentry.hearings, cycles]
    split
    · rfl
    · simp [List.filterMap_cons, Act.map_after, Act.filterMap_after, ih, C.map_deliveries, flush,
        C.filterMap_drain]

theorem map_told (w : World) :
    (again.told w).map Hearing.pair = (C.dispatch w).filterMap Moment.told? := by
  rw [Reentry.told, C.map_hearings, dispatch]
  split
  · next empty => cases ceiling : w.bus.ceiling <;> simp [cycles, empty]
  · rfl

/-- Those who are told are those of whom the history knows. -/
theorem map_told_call {α : Type} (call : Outer α) (w : World) :
    (call.told again w).map Hearing.pair = (C.moments w call).filterMap Moment.told? := by
  cases call with
  | publish es => simp [Outer.told, moments, Act.map_after, Act.filterMap_after, C.map_told]
  | batch body => simp [Outer.told, moments, Act.map_after, Act.filterMap_after, C.map_told]

end Callbacks

/-- A call whose batch, if it is one, calls no listener itself. -/
def Outer.Aloof {α : Type} : Outer α → Prop
  | .publish _ => True
  | .batch body => body.act.Aloof

namespace Engine.Visits

variable {w v : World}

/-- The calls of an outermost call that succeeds are those of the listeners that its history tells
and that find themselves concerned when they are told: a listener for the members of a collection is
called for an event if and only if just then the collection lives and the event is on a member. -/
theorem calls_concerned (visits : (standard Scope.closed_any).Visits w) {depth : Nat}
    (C : Callbacks (Reentry.within depth)) {α : Type} {call : Outer α} (aloof : call.Aloof) {a : α}
    (gives : (call.act (Reentry.within (depth + 1)).dispatch).Gives w a v) :
    ∃ h : History, C.moments w call = h.moments ∧ h.Lawful ∧
      (call.told (Reentry.within depth) w).map Hearing.pair = h.tells ∧
      v.heard =
        ((call.told (Reentry.within depth) w).filterMap Hearing.call?).reverse ++ w.heard := by
  have settled := visits.settled
  obtain ⟨h, moments, lawful, -⟩ := C.moments_lawful settled gives
  refine ⟨h, moments, lawful, by rw [C.map_told_call, moments, h.filterMap_moments], ?_⟩
  have allows := Reentry.aloof_within depth
  cases call with
  | publish es =>
    obtain ⟨_, u, queued, dispatched⟩ := Act.gives_bind.mp gives
    obtain ⟨u', queues, takes⟩ := Act.enqueueAll_takes es w
    obtain ⟨-, rfl⟩ := queues.unique queued
    rw [Outer.told, queued.after, ← Act.heard_of_enqueueAll queued]
    exact Act.heard_of_dispatch allows (takes.dispatching.trans settled.idle) dispatched
  | batch body =>
    obtain ⟨_, _, same, rest⟩ := Act.gives_bind.mp gives
    obtain ⟨rfl, rfl⟩ := Act.gives_get.mp same
    rw [if_neg (by simp [settled.idle])] at rest
    obtain ⟨_, _, opened, rest⟩ := Act.gives_bind.mp rest
    obtain rfl := Act.gives_changeBus.mp opened
    obtain ⟨result, u, attempted, rest⟩ := Act.gives_bind.mp rest
    obtain ⟨_, _, closed, rest⟩ := Act.gives_bind.mp rest
    obtain rfl := Act.gives_changeBus.mp closed
    obtain ⟨_, x, dispatched, returned⟩ := Act.gives_bind.mp rest
    obtain ⟨-, rfl⟩ := Act.gives_ofExcept.mp returned
    have quiet := (Trait.aloof.attempt aloof)
      { w with bus := { w.bus with dispatching := true } } rfl
    rw [attempted.on] at quiet
    rw [Outer.told, attempted.after]
    refine (Act.heard_of_dispatch allows (w := { u with bus := { u.bus with dispatching := false } })
      rfl dispatched).trans (congrArg _ ?_)
    exact quiet.2

end Engine.Visits

namespace Moved

/-- Two records with one field, of which the first is a member of a collection, and a callback on the
field for the members. -/
def world : World := ((World.start {}).toOption.getD {}).play
  [.bind "r" (.newRecord [("x", .number .zero)] none),
    .bind "q" (.newRecord [("x", .number .zero)] none),
    .bind "c" (.newCollection [.named "r"] none),
    .listen "h" "c" (.field "x") []]

def members : Ref := ⟨2, 3⟩

/-- Both records are written, and then the second takes the place of the first. -/
def commands : List Command :=
  [.onRecord "r" (.write "x" (.number .one)), .onRecord "q" (.write "x" (.number .one)),
    .onCollection "c" (.remove 0), .onCollection "c" (.push (.named "q"))]

def call (body : Program Scope.any Act.Skips (List Reply)) : Act (List Reply) :=
  (Outer.batch body).act (Reentry.within 9).dispatch

/-- The batch tells the callback of both writes. -/
theorem calls_concerned_commands : ∃ (C : Callbacks (Reentry.within 8))
    (body : Program Scope.any Act.Skips (List Reply)) (h : History),
    body.act = Command.performAll (Reentry.within 9) commands ∧
      C.moments world (.batch body) = h.moments ∧ h.Lawful ∧
      ((Outer.batch body).told (Reentry.within 8) world).map Hearing.pair = h.tells ∧
      ((call body).on world).2.heard = (((Outer.batch body).told (Reentry.within 8)
        world).filterMap Hearing.call?).reverse ++ world.heard := by
  have made : (Reentry.within 9).Made Scope.any Act.Skips := by
    have made := (Echo.engine.made_dispatches 9).mono fun d ⟨depth, same⟩ =>
      same ▸ Echo.engine.skips_within depth
    rwa [Echo.engine, Engine.within_standard] at made
  obtain ⟨body, same⟩ := Command.has_performAll (C := .made Scope.any Act.Skips)
    Scope.closed_any made.allows commands fun _ _ => trivial
  obtain ⟨C⟩ := Echo.engine.nonempty_callbacks 8
  rw [Echo.engine, Engine.within_standard] at C
  have begun : Echo.engine.Visits ((World.start {}).toOption.getD {}) :=
    .start (show World.start {} = .ok _ from rfl)
  have visits : Echo.engine.Visits world := begun.play fun _ _ => trivial
  have aloof : (Outer.batch body).Aloof := by
    change body.act.Aloof
    rw [same]
    exact Command.has_performAll (C := .aloof) Scope.closed_any (Reentry.aloof_within 9) commands
      fun _ _ => trivial
  have ends : (((call body).on world).1.toOption).isSome := by
    unfold call
    rw [Outer.act, same]
    decide +kernel
  obtain ⟨replies, ends⟩ := Option.isSome_iff_exists.mp ends
  obtain ⟨h, moments, lawful, tells, heard⟩ :=
    visits.calls_concerned C aloof (Act.gives_of_toOption ends)
  exact ⟨C, body, h, same, moments, lawful, tells, heard⟩

def batch : Command := .batch commands

/-- Who was called for which record. -/
def calls (w : World) : List (String × Nat) := w.heard.filterMap fun
  | .heard name e => some (name, e.target)
  | _ => none

/-- When the records are written the first one is a member and the second is not; the callback stays
registered, the collection lives on, and both records change.  The callback is called for the second
record alone, which has become a member in the meantime. -/
theorem called_for_joined :
    world.heap.hasMember members 1 = true ∧ world.heap.hasMember members 2 = false ∧
    (∃ reply, world.perform batch = some (reply, world.next batch) ∧ reply.Ok) ∧
    (world.next batch).heap.isAlive members.loc = true ∧
    (∀ w ∈ [world, world.next batch], w.bus.registry.on ⟨none, some (.field "x")⟩ = [0]) ∧
    calls world = [] ∧ calls (world.next batch) = [("h", 2)] := by
  have ends : ∃ reply ∈ (world.perform batch).map (·.1), reply.Ok := by decide +kernel
  obtain ⟨reply, ends, ok⟩ := ends
  exact ⟨by decide +kernel, by decide +kernel, ⟨reply, World.perform_eq_next ends, ok⟩,
    by decide +kernel, by decide +kernel, by decide +kernel, by decide +kernel⟩

end Moved

end ReactiveQuery
