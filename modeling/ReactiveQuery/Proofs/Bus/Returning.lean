import ReactiveQuery.Proofs.Bus.Schedule
import ReactiveQuery.Proofs.Live.Failing

/-! What comes back.  A flush runs no more jobs than it has taken, for marks are left to the next
flush and a flush by hand drops what is left of the one under way.  So cycles come back when the
callbacks and jobs in them do. -/

namespace ReactiveQuery

namespace Act

/-- On an open bus no more jobs of a flush are left when the activity ends than before. -/
def Recedes {α : Type} (act : Act α) : Prop := ∀ w v, w.bus.dispatching = true → act.Leaves w v →
  v.bus.scheduler.running.length ≤ w.bus.scheduler.running.length

end Act

/-- Marks are for the next flush, and a flush by hand leaves nothing of the one under way. -/
theorem Routine.recedes {α : Type} (p : Routine α) : p.act.Recedes := by
  induction p with
  | own act aside =>
    rintro w v _ ⟨r, outcome, _⟩
    have same := (aside w).1
    rw [show act.on w = (r, v) from outcome] at same
    exact Nat.le_of_eq (congrArg (·.running.length) same)
  | bind p f first rest =>
    intro w v busy leaves
    rcases Act.leaves_bind leaves with ⟨e, stops⟩ | ⟨a, u, gives, goes⟩
    · exact first w v busy (Act.leaves_of_raised stops)
    · exact Nat.le_trans (rest a u v (p.does w u busy gives.leaves).busy goes)
        (first w u busy gives.leaves)
  | attempt p ih => exact fun w v busy leaves => ih w v busy (Act.leaves_attempt leaves)
  | holding values p ih =>
    intro w v busy leaves
    obtain ⟨u, inner, rfl⟩ := Act.leaves_holding leaves
    exact ih { w with held := values ++ w.held } u busy inner
  | dispatch act skips =>
    rintro w v busy ⟨r, outcome, ends⟩
    obtain ⟨-, rfl⟩ := skips w busy r v outcome ends
    exact Nat.le_refl _
  | batch d skips body ih =>
    rintro w v busy ⟨r, outcome, ends⟩
    rw [show (batch d skips body).act = Act.batch d body.act from rfl,
      Act.on_batch_of_busy busy] at outcome
    exact ih w v busy ⟨r, outcome, ends⟩
  | mark id job =>
    intro w v busy leaves
    have gives : (mark id job).act.Gives w _ _ := Act.gives_onBus.mpr ⟨rfl, rfl⟩
    obtain rfl := gives.leaves_iff.mp leaves
    dsimp only
    rw [Scheduler.mark]
    split <;> exact Nat.le_refl _
  | clear =>
    intro w v busy leaves
    obtain rfl := Act.leaves_changeBus.mp leaves
    exact Nat.zero_le _
  | flush run =>
    rintro w v busy ⟨r, outcome, ends⟩
    rw [Routine.act, Act.flushing, Act.on_bind_ok (Act.on_changeBus ..),
      Act.on_bind_ok (Act.on_get _)] at outcome
    rw [Act.running_of_leaves_draining ⟨r, outcome, ends⟩]
    exact Nat.zero_le _

namespace Schedule

variable {again : Reentry} (C : Schedule again)

/-- What is done in the turn of a job. -/
def turn (job : Job) : Routine Unit := .holding job.values (C.run job)

theorem turn_act (job : Job) : (C.turn job).act =
    Act.holding job.values (job.run again.call again.dispatch again.perform) := by
  rw [turn, Routine.act, C.run_act]

end Schedule

/-- A callback or a job that is started, and the world in which it is. -/
structure Start where
  act : Act Unit
  world : World

/-- The activity comes back, with whatever result. -/
def Act.Returns {α : Type} (act : Act α) (w : World) : Prop := (act.on w).1 ≠ .error .endless

def Start.Returns (s : Start) : Prop := s.act.Returns s.world

/-- The turn of a job begins. -/
def JobTurn.start (again : Reentry) (t : JobTurn) : Start := ⟨t.act again, t.world⟩

namespace Reentry

variable (again : Reentry)

/-- The callbacks of listeners that are told of an event in turn. -/
def startsOfTell (e : Event) : List Listener → World → List Start
  | [], _ => []
  | l :: ls, w =>
    let hear := Act.holding ((l :: ls).flatMap Listener.values) (l.hear again.perform e)
    ⟨hear, w⟩ :: hear.after w fun _ v => startsOfTell e ls v

/-- The callbacks in a delivery. -/
def startsOfDelivery : List Event → World → List Start
  | [], _ => []
  | e :: es, w =>
    let ls := w.sweep.bus.hearers e
    again.startsOfTell e ls w.sweep ++
      (Act.tell again.perform e ls).after w.sweep fun _ v => startsOfDelivery es v

/-- The callbacks and jobs in cycles. -/
def starts : Nat → World → List Start
  | 0, _ => []
  | count + 1, w =>
    let es := w.bus.queue.events
    let values := es.flatMap Event.values
    let u := { w with bus := { w.bus with queue := {} } }
    if w.bus.queue.isEmpty then [] else
      again.startsOfDelivery es { u with held := values ++ u.held } ++
        (Act.holding values (Act.deliver again.perform es)).after u fun _ told =>
          ((⟨w, told⟩ : Round).turns again).map (·.start again) ++
            (Act.flush again.call again.dispatch again.perform).after told fun _ v => starts count v

end Reentry

namespace Act

variable {α β : Type} {again : Reentry} {w : World} {count : Nat}

theorem Returns.bind {x : Act α} {f : α → Act β} (first : x.Returns w)
    (rest : ∀ a u, x.Gives w a u → (f a).Returns u) : (x >>= f).Returns w := by
  unfold Returns at first ⊢
  rw [on_bind]
  rcases outcome : x.on w with ⟨e | a, u⟩ <;> rw [outcome] at first
  · exact fun ends => first (congrArg Except.error (Except.error.inj ends))
  · exact rest a u outcome

theorem returns_tell {e : Event} {ls : List Listener}
    (each : ∀ s ∈ again.startsOfTell e ls w, s.Returns) :
    (tell again.perform e ls).Returns w := by
  induction ls generalizing w with
  | nil => exact nofun
  | cons l ls ih =>
    obtain ⟨first, others⟩ := List.forall_mem_cons.mp each
    refine Returns.bind first fun _ u gives => ih ?_
    rw [gives.after] at others
    exact others

theorem returns_deliver {es : List Event} (each : ∀ s ∈ again.startsOfDelivery es w, s.Returns) :
    (deliver again.perform es).Returns w := by
  induction es generalizing w with
  | nil => exact nofun
  | cons e es ih =>
    obtain ⟨first, others⟩ := List.forall_mem_append.mp each
    refine Returns.bind (x := settle) nofun fun _ u settled => ?_
    obtain rfl := gives_modify.mp settled
    refine Returns.bind (x := get) nofun fun _ u same => ?_
    obtain ⟨rfl, rfl⟩ := gives_get.mp same
    refine Returns.bind (returns_tell first) fun _ u gives => ih ?_
    have told : (tell again.perform e (w.sweep.bus.hearers e)).Gives w.sweep _ u := gives
    rw [told.after] at others
    exact others

section
variable (C : Schedule again)
include C

/-- A flush comes back when its turns do: each job that it has taken has one turn at most. -/
theorem returns_drain (busy : w.bus.dispatching = true)
    (enough : w.bus.scheduler.running.length ≤ count)
    (each : ∀ t ∈ turns again count w, (t.act again).Returns t.world) :
    (drain again.call again.dispatch again.perform count).Returns w := by
  induction count generalizing w with
  | zero =>
    unfold Returns
    rw [on_drain_of_rested (List.eq_nil_of_length_eq_zero (Nat.le_zero.mp enough))]
    rintro ⟨⟩
  | succ count ih =>
    unfold Returns
    rw [on_drain_turns]
    rw [turns] at each
    cases next : w.bus.scheduler.running with
    | nil => rintro ⟨⟩
    | cons entry running =>
      obtain ⟨id, job⟩ := entry
      simp only [next] at each
      obtain ⟨now, later⟩ := List.forall_mem_cons.mp each
      unfold Returns at now
      dsimp only
      rcases ran : ((w.turn id job running).act again).on (w.turn id job running).world with
        ⟨(e | _) | _, x⟩ <;> rw [ran] at now
      · rintro ⟨⟩
      · exact absurd rfl now
      · have leaves : (C.turn job).act.Leaves (w.turn id job running).world x := by
          rw [C.turn_act]
          exact Gives.leaves ran
        have recedes := (C.turn job).recedes (w.turn id job running).world x busy leaves
        rw [Gives.after ran] at later
        rw [next, List.length_cons] at enough
        exact ih ((C.turn job).does (w.turn id job running).world x busy leaves).busy
          (Nat.le_trans recedes (Nat.le_of_succ_le_succ enough)) later

theorem returns_flush {r : Round} (busy : r.told.bus.dispatching = true)
    (each : ∀ t ∈ r.turns again, (t.act again).Returns t.world) :
    (flush again.call again.dispatch again.perform).Returns r.told :=
  returns_drain C (w := r.flushing) busy (Nat.le_refl _) each

/-- Cycles come back when the callbacks and jobs in them do. -/
theorem returns_cycles (busy : w.bus.dispatching = true)
    (each : ∀ s ∈ again.starts count w, s.Returns) :
    (cycles again.call again.dispatch again.perform count).Returns w := by
  induction count generalizing w with
  | zero =>
    unfold Returns
    cases waits : w.bus.queue.isEmpty with
    | true => rw [on_cycles_of_isEmpty waits]; exact nofun
    | false => rw [on_cycles_zero waits]; exact nofun
  | succ count ih =>
    unfold Returns
    cases waits : w.bus.queue.isEmpty with
    | true => rw [on_cycles_of_isEmpty waits]; exact nofun
    | false =>
      rw [on_cycles_succ waits]
      simp only [Reentry.starts, waits, Bool.false_eq_true, if_false] at each
      obtain ⟨first, others⟩ := List.forall_mem_append.mp each
      refine Returns.bind (returns_deliver first) fun _ told served => ?_
      rw [Gives.after served] at others
      obtain ⟨turns, later⟩ := List.forall_mem_append.mp others
      rw [← C.serve_act] at served
      have open' := ((C.serve w.bus.queue.events).does
        { w with bus := { w.bus with queue := {} } } told busy served.leaves).busy
      refine Returns.bind (returns_flush C (r := ⟨w, told⟩) open' fun t member =>
        turns (t.start again) (List.mem_map_of_mem member)) fun _ v flushed => ih ?_ ?_
      · rw [← C.flush_act] at flushed
        exact (C.flush.does told v open' flushed.leaves).busy
      · rw [Gives.after flushed] at later
        exact later

end

end Act

end ReactiveQuery
