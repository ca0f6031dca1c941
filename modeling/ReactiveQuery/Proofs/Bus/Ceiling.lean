import ReactiveQuery.Proofs.Bus.Hearing
import ReactiveQuery.Proofs.Bus.Returning

/-! The ceiling on the rounds of a dispatch.  Callbacks and jobs may publish for ever, and nothing
but the ceiling ends the rounds; it ends them after exactly as many as it allows. -/

namespace ReactiveQuery

/-- The ceiling stays as it is. -/
def Act.Capped {α : Type} (act : Act α) : Prop := ∀ w, (act.on w).2.bus.ceiling = w.bus.ceiling

def Trait.capped : Trait where
  Has := Act.Capped
  still still w := by rw [(still w).bus]
  bind {_ _ x _} first rest w := by
    have same := first w
    rw [Act.on_bind]
    rcases outcome : x.on w with ⟨_ | a, u⟩ <;> rw [outcome] at same
    · exact same
    · exact (rest a u).trans same
  holding values capped w := capped { w with held := values ++ w.held }
  attempt {_ x} capped w := by
    have inner := capped w
    rw [Act.on_attempt]
    rcases outcome : x.on w with ⟨(_ | _) | _, _⟩ <;> rw [outcome] at inner <;> exact inner
  settle w := by
    obtain ⟨r, same⟩ := World.bus_sweep w
    rw [Act.settle, Act.on_modify, same]

namespace Act.Capped

variable {α : Type}

theorem of_bus {act : Act α} (same : ∀ w, (act.on w).2.bus = w.bus) : act.Capped :=
  fun w => by rw [same]

theorem onBus {change : Bus → α × Bus} (same : ∀ b, (change b).2.ceiling = b.ceiling) :
    (Act.onBus change).Capped := fun w => same w.bus

theorem changeBus {change : Bus → Bus} (same : ∀ b, (change b).ceiling = b.ceiling) :
    (Act.changeBus change).Capped := fun w => same w.bus

theorem newCollection (items : List Value) : (Act.newCollection items).Capped := fun _ => rfl

theorem enqueueAll (es : List Event) : (Act.enqueueAll es).Capped := by
  induction es with
  | nil => exact Trait.Has.ret (T := .capped) ()
  | cons e es ih =>
    have queued : (Act.enqueue e).Capped := Trait.capped.bind Trait.capped.settle fun _ =>
      changeBus fun b => by split <;> rfl
    exact Trait.capped.bind (Trait.capped.holding _ queued) fun _ => ih

theorem registers : Trait.capped.Registers where
  addListener _ := .onBus fun _ => rfl
  subscribe _ := .onBus fun _ => rfl
  unsubscribe _ := .onBus fun _ => rfl
  changeDesk _ _ := rfl
  retain _ _ _ := rfl

theorem batch {dispatch : Act Unit} {body : Act α} (capped : dispatch.Capped)
    (inner : body.Capped) : (Act.batch dispatch body).Capped := by
  have flag : ∀ dispatching, (Act.changeBus fun b => { b with dispatching }).Capped :=
    fun _ => changeBus fun _ => rfl
  refine Trait.capped.bind (Trait.Has.world (T := .capped)) fun w => ?_
  split
  · exact inner
  · exact Trait.capped.bind (flag true) fun _ => Trait.capped.bind (Trait.capped.attempt inner)
      fun result => Trait.capped.bind (flag false) fun _ => Trait.capped.bind capped fun _ =>
        Trait.Has.ofExcept (T := .capped) result

end Act.Capped

/-- Nothing that an engine does moves the ceiling. -/
def Conduct.capped : Conduct where
  toTrait := .capped
  inert inert := .of_bus fun w => (inert w).bus
  scope := .any
  dispatches := Act.Capped
  nextId := .onBus fun _ => rfl
  setField _ _ _ := .of_bus fun _ => rfl
  setItems _ _ := .of_bus fun _ => rfl
  keep _ _ _ := rfl
  attach source d params _ first :=
    Trait.capped.bind (.newCollection []) fun r => Trait.capped.bind (Trait.capped.holding _
      (Trait.capped.bind (Act.has_attach Act.Capped.registers r source d params) fun _ =>
        first r)) fun _ => Trait.Has.ret (T := .capped) _
  tells _ := True
  tells_field _ _ _ _ := trivial
  tells_change _ _ _ _ _ := trivial
  tells_publish _ _ := trivial
  tells_publishAll _ _ := trivial
  publishAll capped events _ := Trait.capped.bind (.enqueueAll events) fun _ => capped
  batch := .batch
  reschedule _ _ := .onBus fun _ => rfl
  listen _ handle collection key := Act.has_listen Act.Capped.registers handle collection key _
  unlisten := Act.has_unlisten Act.Capped.registers
  subscribe _ again listener target key :=
    Act.has_subscribe Act.Capped.registers again listener target key _
  unsubscribe := Act.has_unsubscribe Act.Capped.registers

theorem Act.Capped.delivers : Conduct.capped.Delivers where
  scheduler := trivial
  all _ := trivial
  heard _ _ := Act.Capped.of_bus fun _ => rfl
  flag _ := Act.Capped.changeBus fun _ => rfl
  taken := Act.Capped.changeBus fun _ => rfl
  emptied := Act.Capped.changeBus fun _ => rfl

theorem Reentry.capped_within (depth : Nat) : Conduct.capped.Allows (Reentry.within depth) := by
  induction depth with
  | zero =>
    exact ⟨fun _ _ _ => Trait.Has.fault (T := .capped) _, Trait.Has.fault (T := .capped) _,
      fun _ _ => Trait.Has.fault (T := .capped) _⟩
  | succ depth ih =>
    exact ⟨Extension.has_invoke ih.call ih.dispatch, Act.has_dispatchIfIdle ih Act.Capped.delivers,
      Command.has_perform Scope.closed_any ih⟩

/-- Rounds that follow one upon the other, each with a flush that succeeds, from a world to the one
that they lead to. -/
inductive Succession (again : Reentry) : World → List Round → World → Prop
  | done (w : World) : Succession again w [] w
  | next {r : Round} {rs : List Round} {v u : World} (waits : r.opened.bus.queue.isEmpty = false)
    (delivers : r.Delivers again)
    (flushes : (Act.flush again.call again.dispatch again.perform).Gives r.told () v)
    (rest : Succession again v rs u) : Succession again r.opened (r :: rs) u

/-- The next round fails, while its batch is delivered or in its flush. -/
inductive Stalls (again : Reentry) (u : World) (fault : Fault) (v : World) : Prop
  | delivery (waits : u.bus.queue.isEmpty = false)
    (fails : (Act.holding (u.bus.queue.events.flatMap Event.values)
      (Act.deliver again.perform u.bus.queue.events)).on
        { u with bus := { u.bus with queue := {} } } = (.error fault, v))
  | flush (r : Round) (opened : r.opened = u) (waits : u.bus.queue.isEmpty = false)
    (delivers : r.Delivers again)
    (fails : (Act.flush again.call again.dispatch again.perform).on r.told = (.error fault, v))

/-- The bus is closed after a dispatch that succeeds. -/
def World.closed (w : World) : World := { w with bus := { w.bus with dispatching := false } }

/-- How a dispatch from an idle bus ends after rounds that succeed: nothing waits any more, or as
many batches as the ceiling allows have been delivered and events still wait, or a round fails that
the ceiling still allows. -/
inductive World.Ends (again : Reentry) (w : World) (rs : List Round) (u : World) :
    Except Fault Unit → World → Prop
  | quiet (within : rs.length ≤ w.bus.ceiling) (empty : u.bus.queue.isEmpty = true) :
    Ends again w rs u (.ok ()) u.closed
  | overrun (full : rs.length = w.bus.ceiling) (waits : u.bus.queue.isEmpty = false) :
    Ends again w rs u (.error (.raised (.cycleOverrun w.bus.ceiling))) u.cleared
  | raised {e : Error} {v : World} (within : rs.length < w.bus.ceiling)
    (stalls : Stalls again u (.raised e) v) : Ends again w rs u (.error (.raised e)) v.cleared
  | endless {v : World} (within : rs.length < w.bus.ceiling) (stalls : Stalls again u .endless v) :
    Ends again w rs u (.error .endless) v

namespace Round

variable {again : Reentry} {r : Round} {v : World} (waits : r.opened.bus.queue.isEmpty = false)
  (delivers : r.Delivers again) (count : Nat)
include waits delivers

omit waits in
theorem serves :
    (Act.holding (r.batch.flatMap Event.values) (Act.deliver again.perform r.batch)).Gives
      { r.opened with bus := { r.opened.bus with queue := {} } } () r.told :=
  Act.gives_holding.mpr delivers

theorem on_cycles : (Act.cycles again.call again.dispatch again.perform (count + 1)).on r.opened =
    (Act.flush again.call again.dispatch again.perform >>= fun _ =>
      Act.cycles again.call again.dispatch again.perform count).on r.told := by
  rw [Act.on_cycles_succ waits]
  exact Act.on_bind_ok (serves delivers)

theorem rounds_succ : Act.rounds again (count + 1) r.opened = r ::
    (Act.flush again.call again.dispatch again.perform).after r.told fun _ v =>
      Act.rounds again count v := by
  rw [Act.rounds]
  dsimp only
  rw [if_neg (by simp [waits])]
  exact (serves delivers).after _

theorem hearings_succ : again.hearings (count + 1) r.opened = again.deliveries r.batch r.taken ++
    (Act.flush again.call again.dispatch again.perform).after r.told fun _ v =>
      again.hearings count v := by
  rw [Reentry.hearings]
  dsimp only
  rw [if_neg (by simp [waits])]
  exact congrArg _ ((serves delivers).after _)

end Round

namespace Succession

variable {again : Reentry} {w u : World} {rs : List Round} (follow : Succession again w rs u)
include follow

theorem on_cycles (count : Nat) :
    (Act.cycles again.call again.dispatch again.perform (rs.length + count)).on w =
      (Act.cycles again.call again.dispatch again.perform count).on u := by
  induction follow with
  | done w => rw [List.length_nil, Nat.zero_add]
  | next waits delivers flushes rest ih =>
    rw [List.length_cons, Nat.add_right_comm, Round.on_cycles waits delivers,
      Act.on_bind_ok flushes, ih]

theorem rounds (count : Nat) :
    Act.rounds again (rs.length + count) w = rs ++ Act.rounds again count u := by
  induction follow with
  | done w => rw [List.length_nil, Nat.zero_add, List.nil_append]
  | next waits delivers flushes rest ih =>
    rw [List.length_cons, Nat.add_right_comm, Round.rounds_succ waits delivers, flushes.after, ih,
      List.cons_append]

/-- Who is told in rounds is told of their batches. -/
theorem hearings (count : Nat) : again.hearings (rs.length + count) w =
    (rs.flatMap fun r => again.deliveries r.batch r.taken) ++ again.hearings count u := by
  induction follow with
  | done w => rw [List.length_nil, Nat.zero_add, List.flatMap_nil, List.nil_append]
  | next waits delivers flushes rest ih =>
    rw [List.length_cons, Nat.add_right_comm, Round.hearings_succ waits delivers, flushes.after, ih,
      List.flatMap_cons, List.append_assoc]

theorem ceiling (capped : Conduct.capped.Allows again) : u.bus.ceiling = w.bus.ceiling := by
  induction follow with
  | done w => rfl
  | @next r rs v u waits delivers flushes rest ih =>
    have told := Act.has_deliver capped Act.Capped.delivers r.batch r.taken
    have flushed := Act.has_flush capped (C := .capped) trivial (fun _ => trivial) r.told
    obtain ⟨x, delivered, same⟩ := delivers
    rw [delivered.on] at told
    rw [flushes.on, same] at flushed
    exact ih.trans (flushed.trans told)

end Succession

theorem Stalls.on_cycles {again : Reentry} {u v : World} {fault : Fault}
    (stalls : Stalls again u fault v) (count : Nat) :
    (Act.cycles again.call again.dispatch again.perform (count + 1)).on u = (.error fault, v) := by
  cases stalls with
  | delivery waits fails =>
    rw [Act.on_cycles_succ waits]
    exact Act.on_bind_error fails
  | flush r opened waits delivers fails =>
    subst opened
    rw [Round.on_cycles waits delivers]
    exact Act.on_bind_error fails

/-- Rounds succeed one after the other until nothing waits, or there have been as many as are asked
for, or one fails. -/
theorem exists_succession (again : Reentry) (count : Nat) (w : World) :
    ∃ rs u, Succession again w rs u ∧ (rs.length ≤ count ∧ u.bus.queue.isEmpty = true ∨
      rs.length = count ∧ u.bus.queue.isEmpty = false ∨
        rs.length < count ∧ ∃ fault v, Stalls again u fault v) := by
  induction count generalizing w with
  | zero =>
    refine ⟨[], w, .done w, ?_⟩
    cases w.bus.queue.isEmpty with
    | true => exact .inl ⟨Nat.le_refl _, rfl⟩
    | false => exact .inr (.inl ⟨rfl, rfl⟩)
  | succ count ih =>
    cases waits : w.bus.queue.isEmpty with
    | true => exact ⟨[], w, .done w, .inl ⟨Nat.zero_le _, waits⟩⟩
    | false =>
      rcases delivered : (Act.holding (w.bus.queue.events.flatMap Event.values)
        (Act.deliver again.perform w.bus.queue.events)).on
          { w with bus := { w.bus with queue := {} } } with ⟨fault | _, told⟩
      · exact ⟨[], w, .done w, .inr (.inr ⟨Nat.zero_lt_succ _, fault, told,
          .delivery waits delivered⟩)⟩
      · have delivers : Round.Delivers ⟨w, told⟩ again := Act.gives_holding.mp delivered
        rcases flushed : (Act.flush again.call again.dispatch again.perform).on told with
          ⟨fault | _, v⟩
        · exact ⟨[], w, .done w, .inr (.inr ⟨Nat.zero_lt_succ _, fault, v,
            .flush ⟨w, told⟩ rfl waits delivers flushed⟩)⟩
        · obtain ⟨rs, u, follow, ends⟩ := ih v
          refine ⟨⟨w, told⟩ :: rs, u, .next waits delivers flushed follow, ?_⟩
          simpa only [List.length_cons, Nat.add_le_add_iff_right, Nat.add_right_cancel_iff,
            Nat.add_lt_add_iff_right] using ends

theorem Succession.stalls {again : Reentry} {rs : List Round} {u v w : World} {fault : Fault}
    (follow : Succession again w.opened rs u) (within : rs.length < w.bus.ceiling)
    (stalls : Stalls again u fault v) :
    (Act.cycles again.call again.dispatch again.perform w.bus.ceiling).on w.opened =
      (.error fault, v) := by
  obtain ⟨count, enough⟩ := Nat.exists_eq_add_of_lt within
  rw [enough, Nat.add_assoc, follow.on_cycles, stalls.on_cycles]

/-- What the next round fails with is what one of its jobs fails with. -/
theorem Stalls.exists_turn {again : Reentry} {u v : World} {e : Error}
    (stalls : Stalls again u (.raised e) v) :
    ∃ r : Round, (∀ count, r ∈ Act.rounds again (count + 1) u) ∧
      ∃ t ∈ r.turns again, ∃ x, (t.act again).on t.world = (.error (.raised e), x) := by
  cases stalls with
  | delivery _ fails =>
    exact absurd fails (Act.Mute.holding (Act.Mute.deliver again.perform _) _ e v)
  | flush r opened waits delivers fails =>
    subst opened
    refine ⟨r, fun count => ?_, Act.exists_raised_of_drain fails⟩
    rw [Round.rounds_succ waits delivers]
    exact List.mem_cons_self

/-- What the ceiling makes of a dispatch from an idle bus. -/
structure World.Limited (again : Reentry) (w : World) : Prop where
  /-- No more batches are delivered than the ceiling allows. -/
  ends : ∃ rs u, Succession again w.opened rs u ∧
    w.Ends again rs u ((Act.dispatchIfIdle again.call again.dispatch again.perform).on w).1
      ((Act.dispatchIfIdle again.call again.dispatch again.perform).on w).2
  /-- Unless a job fails with that same error, the dispatch overruns if and only if events still
  wait after as many rounds as the ceiling allows. -/
  overruns : (∀ r ∈ Act.rounds again w.bus.ceiling w.opened, ∀ t ∈ r.turns again, ∀ x,
      (t.act again).on t.world ≠ (.error (.raised (.cycleOverrun w.bus.ceiling)), x)) →
    ((∃ v, (Act.dispatchIfIdle again.call again.dispatch again.perform).on w =
        (.error (.raised (.cycleOverrun w.bus.ceiling)), v)) ↔
      ∃ rs u, Succession again w.opened rs u ∧ rs.length = w.bus.ceiling ∧
        u.bus.queue.isEmpty = false)
  /-- Nobody is told of events that wait beyond the ceiling, and nothing else is done. -/
  discards : ∀ rs u, Succession again w.opened rs u → rs.length = w.bus.ceiling →
    u.bus.queue.isEmpty = false →
      (Act.dispatchIfIdle again.call again.dispatch again.perform).on w =
          (.error (.raised (.cycleOverrun w.bus.ceiling)), u.cleared) ∧
        again.told w = rs.flatMap fun r => again.deliveries r.batch r.taken
  /-- As many rounds as the ceiling allows are allowed. -/
  settles : ∀ rs u, Succession again w.opened rs u → rs.length ≤ w.bus.ceiling →
    u.bus.queue.isEmpty = true →
      (Act.dispatchIfIdle again.call again.dispatch again.perform).on w = (.ok (), u.closed)
  /-- The dispatch comes back when the callbacks and jobs in it do. -/
  returns : (∀ s ∈ again.starts w.bus.ceiling w.opened, s.Returns) →
    (Act.dispatchIfIdle again.call again.dispatch again.perform).Returns w

section
variable {again : Reentry} {w : World} (idle : w.bus.dispatching = false)
include idle

/-- Dispatching from an idle bus ends as its cycles end. -/
theorem on_dispatchIfIdle_of_cycles :
    (Act.dispatchIfIdle again.call again.dispatch again.perform).on w =
      match (Act.cycles again.call again.dispatch again.perform w.bus.ceiling).on w.opened with
      | (.ok _, u) => (.ok (), u.closed)
      | (.error (.raised e), u) => (.error (.raised e), u.cleared)
      | (.error .endless, u) => (.error .endless, u) :=
  Act.on_dispatchIfIdle_of_idle idle

/-- After as many rounds as the ceiling allows the dispatch overruns it if events still wait. -/
theorem Succession.overruns {rs : List Round} {u : World} (follow : Succession again w.opened rs u)
    (capped : Conduct.capped.Allows again) (full : rs.length = w.bus.ceiling)
    (waits : u.bus.queue.isEmpty = false) :
    (Act.dispatchIfIdle again.call again.dispatch again.perform).on w =
      (.error (.raised (.cycleOverrun w.bus.ceiling)), u.cleared) := by
  have cycled := follow.on_cycles 0
  have last : (Act.cycles again.call again.dispatch again.perform 0).on u =
      (.error (.raised (.cycleOverrun w.bus.ceiling)), u) := by
    rw [Act.on_cycles_zero waits, follow.ceiling capped]
    rfl
  rw [Nat.add_zero, full, last] at cycled
  rw [on_dispatchIfIdle_of_cycles idle, cycled]

theorem Succession.settles {rs : List Round} {u : World} (follow : Succession again w.opened rs u)
    (within : rs.length ≤ w.bus.ceiling) (empty : u.bus.queue.isEmpty = true) :
    (Act.dispatchIfIdle again.call again.dispatch again.perform).on w = (.ok (), u.closed) := by
  have cycled := follow.on_cycles (w.bus.ceiling - rs.length)
  have last : (Act.cycles again.call again.dispatch again.perform
      (w.bus.ceiling - rs.length)).on u = (.ok (), u) := Act.on_cycles_of_isEmpty empty
  rw [Nat.add_sub_cancel' within, last] at cycled
  rw [on_dispatchIfIdle_of_cycles idle, cycled]

/-- A dispatch from an idle bus goes through its rounds and ends. -/
theorem exists_ends (capped : Conduct.capped.Allows again) :
    ∃ rs u, Succession again w.opened rs u ∧
      w.Ends again rs u ((Act.dispatchIfIdle again.call again.dispatch again.perform).on w).1
        ((Act.dispatchIfIdle again.call again.dispatch again.perform).on w).2 := by
  obtain ⟨rs, u, follow, ⟨within, empty⟩ | ⟨full, waits⟩ | ⟨within, fault, v, stalls⟩⟩ :=
    exists_succession again w.bus.ceiling w.opened
  · refine ⟨rs, u, follow, ?_⟩
    rw [follow.settles idle within empty]
    exact .quiet within empty
  · refine ⟨rs, u, follow, ?_⟩
    rw [follow.overruns idle capped full waits]
    exact .overrun full waits
  · refine ⟨rs, u, follow, ?_⟩
    have cycled := follow.stalls within stalls
    rw [on_dispatchIfIdle_of_cycles idle, cycled]
    cases fault with
    | raised e => exact .raised within stalls
    | endless => exact .endless within stalls

/-- The ceiling is exact, whatever callbacks and jobs do. -/
theorem Schedule.limited (C : Schedule again) (capped : Conduct.capped.Allows again) :
    w.Limited again where
  ends := exists_ends idle capped
  overruns honest := by
    constructor
    · rintro ⟨v, overrun⟩
      obtain ⟨rs, u, follow, ends⟩ := exists_ends idle capped
      rw [overrun] at ends
      cases ends with
      | overrun full waits => exact ⟨rs, u, follow, full, waits⟩
      | raised within stalls =>
        obtain ⟨r, member, t, turn, x, raised⟩ := stalls.exists_turn
        obtain ⟨count, enough⟩ := Nat.exists_eq_add_of_lt within
        refine absurd raised (honest r ?_ t turn x)
        rw [enough, Nat.add_assoc, follow.rounds]
        exact List.mem_append_right _ (member count)
    · rintro ⟨rs, u, follow, full, waits⟩
      exact ⟨_, follow.overruns idle capped full waits⟩
  discards rs u follow full waits := by
    have told := follow.hearings 0
    rw [Nat.add_zero, full, Reentry.hearings, List.append_nil] at told
    exact ⟨follow.overruns idle capped full waits, told⟩
  settles rs u follow := follow.settles idle
  returns each := by
    have cycled := Act.returns_cycles C (w := w.opened) rfl each
    unfold Act.Returns at cycled ⊢
    rw [on_dispatchIfIdle_of_cycles idle]
    rcases ran : (Act.cycles again.call again.dispatch again.perform w.bus.ceiling).on w.opened with
      ⟨(e | _) | _, u⟩ <;> rw [ran] at cycled
    · rintro ⟨⟩
    · exact absurd rfl cycled
    · rintro ⟨⟩

end

/-- In every world with an idle bus the ceiling is exact, for the callbacks and jobs of all commands
to any depth. -/
theorem limited_within (depth : Nat) {w : World} (idle : w.bus.dispatching = false) :
    w.Limited (Reentry.within depth) :=
  (Schedule.nonempty_within depth).elim fun C => C.limited idle (Reentry.capped_within depth)

namespace Feeding

/-- Whoever hears of the key publishes on it again. -/
def world : World := ((World.start { maxNotifyCycles := 2 }).toOption.getD {}).play
  [.subscribe "L" .all none [.publish ⟨.id 1, .field "x", .bool true, .null⟩]]

def push : Act Unit := Act.enqueueAll [⟨1, .field "x", .bool true, .null⟩]

def pushed : World := (push.on world).2

/-- The ceiling that a dispatch overruns, and how many callbacks it has called. -/
def told (w : World) : Option Nat × Nat :=
  match (Reentry.within 9).dispatch.on w with
  | (.error (.raised (.cycleOverrun ceiling)), v) => (some ceiling, v.heard.length)
  | (_, v) => (none, v.heard.length)

theorem limited_feeding : pushed.bus.dispatching = false ∧ told pushed = (some 2, 2) ∧
    pushed.Limited (Reentry.within 8) := by
  have idle : pushed.bus.dispatching = false := by decide +kernel
  exact ⟨idle, by decide +kernel, limited_within 8 idle⟩

end Feeding

end ReactiveQuery
