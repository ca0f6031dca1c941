import ReactiveQuery.Proofs.Bus.Engine
import ReactiveQuery.Proofs.Bus.History

/-! Delivery.  In an engine with callbacks and jobs of any kind every outermost call that succeeds
has a lawful history. -/

namespace ReactiveQuery

namespace Act

variable {again : Reentry} {w v : World}

/-- A way to dispatch that lets an open bus be and settles an idle one. -/
structure Serves (dispatch : Act Unit) : Prop where
  skips : Skips dispatch
  settles : ∀ w v burst, w.bus.dispatching = false → w.bus.queue.Holds (.of burst) →
    dispatch.Leaves w v → v.bus.Settled

theorem skips_dispatchIfIdle (again : Reentry) :
    Skips (dispatchIfIdle again.call again.dispatch again.perform) := fun w busy r v outcome _ => by
  rw [on_dispatchIfIdle_of_busy again busy] at outcome
  obtain ⟨rfl, rfl⟩ := Prod.mk.inj outcome
  exact ⟨rfl, rfl⟩

/-- After a dispatch that fails nothing waits. -/
theorem settled_of_raised {e : Error} (idle : w.bus.dispatching = false)
    (fails : (dispatchIfIdle again.call again.dispatch again.perform).on w
      = (.error (.raised e), v)) : v.bus.Settled := by
  obtain ⟨u, -, rfl⟩ := (raises_dispatchIfIdle idle).mp fails
  exact ⟨rfl, Queue.indexed_empty, rfl⟩

theorem serves_dispatchIfIdle (C : Callbacks again) :
    Serves (dispatchIfIdle again.call again.dispatch again.perform) where
  skips := skips_dispatchIfIdle again
  settles w v burst idle holds leaves := by
    obtain ⟨(e | _) | _, outcome, ends⟩ := leaves
    · exact settled_of_raised idle outcome
    · exact absurd rfl ends
    · obtain ⟨_, -, -, settled⟩ := C.dispatch_lawful idle holds outcome
      exact settled

end Act

/-- Whatever a program does with a settled bus, it leaves it settled. -/
theorem Program.settles {S : Scope} {α : Type} (p : Program S Act.Serves α) {w v : World}
    (settled : w.bus.Settled) (leaves : p.act.Leaves w v) : v.bus.Settled := by
  induction p generalizing w v with
  | own act own =>
    obtain ⟨r, outcome, -⟩ := leaves
    have keeps := own w
    rw [show act.on w = (r, v) from outcome] at keeps
    exact ⟨keeps.dispatching.trans settled.idle, keeps.queue ▸ settled.indexed,
      keeps.queue ▸ settled.empty⟩
  | bind p f first rest =>
    rcases Act.leaves_bind leaves with ⟨e, stops⟩ | ⟨a, u, gives, goes⟩
    · exact first settled (Act.leaves_of_raised stops)
    · exact rest a (first settled gives.leaves) goes
  | attempt p ih => exact ih settled (Act.leaves_attempt leaves)
  | holding values p ih =>
    obtain ⟨u, inner, rfl⟩ := Act.leaves_holding leaves
    exact ih (w := { w with held := values ++ w.held }) (v := u) settled inner
  | publish dispatch serves es =>
    obtain ⟨u, gives, takes⟩ := Act.enqueueAll_takes es w
    obtain ⟨r, outcome, ends⟩ := leaves
    rw [show (Program.publish dispatch serves es).act = Act.publishAll dispatch es from rfl,
      Act.publishAll, Act.on_bind_ok gives] at outcome
    refine serves.settles u v (Act.acceptedAll es w) (takes.dispatching.trans settled.idle) ?_
      ⟨r, outcome, ends⟩
    rw [takes.queue]
    exact (settled.indexed.holds_of_isEmpty settled.empty).foldl_enqueue _
  | batch dispatch serves body _ =>
    obtain ⟨u, inner, dispatched⟩ := Act.leaves_batch_of_idle settled.idle leaves
    obtain ⟨body', same⟩ : Act.Made S Act.Skips body.act :=
      Act.Made.mono (fun _ serves => serves.skips) ⟨body, rfl⟩
    rw [← same] at inner
    have takes := body'.takes (w := { w with bus := { w.bus with dispatching := true } }) rfl inner
    refine serves.settles _ v
      (body'.accepted { w with bus := { w.bus with dispatching := true } }) rfl ?_ dispatched
    change Queue.Holds u.bus.queue _
    rw [takes.queue]
    exact (settled.indexed.holds_of_isEmpty settled.empty).foldl_enqueue _

namespace Engine

variable (E : Engine Scope.any)

theorem skips_within : ∀ depth, Act.Skips (E.within depth).dispatch
  | 0 => fun _ _ _ _ outcome ends => absurd (Prod.mk.inj outcome).1.symm ends
  | depth + 1 => Act.skips_dispatchIfIdle (E.within depth)

/-- Callbacks and jobs of an engine can be written as programs. -/
theorem nonempty_callbacks (depth : Nat) : Nonempty (Callbacks (E.within depth)) := by
  have made := (E.made_dispatches depth).mono fun d ⟨depth, same⟩ => same ▸ E.skips_within depth
  have hears : ∀ e l, Act.Made Scope.any Act.Skips (Listener.hear (E.within depth).perform e l) :=
    fun e l => Act.has_hear made.allows.perform
      (Act.has_setScheduler (C := .made Scope.any Act.Skips) trivial)
      (fun _ _ => Act.Made.log _) e (Scope.hears_any l)
  have runs : ∀ j : Job, Act.Made Scope.any Act.Skips
      (j.run (E.within depth).call (E.within depth).dispatch (E.within depth).perform) :=
    fun j => Act.has_run made.allows (Scope.admits_any j)
  choose hear hear_act using hears
  choose run run_act using runs
  exact ⟨⟨hear, hear_act, run, run_act⟩⟩

theorem serves_within : ∀ depth, Act.Serves (E.within depth).dispatch
  | 0 => ⟨E.skips_within 0, fun _ _ _ _ _ leaves => absurd leaves Act.not_leaves_endless⟩
  | depth + 1 => Act.serves_dispatchIfIdle (E.nonempty_callbacks depth).some

variable {E} {w : World}

/-- In every world that is visited the bus is settled. -/
theorem Visits.settled (visits : E.Visits w) : w.bus.Settled := by
  induction visits with
  | start started =>
    obtain ⟨orderly, idle, quiet⟩ := orderly_start (K := fun _ => True) started
    exact ⟨idle, orderly.indexed, quiet.queue⟩
  | step visits made leaves ih =>
    obtain ⟨p, rfl⟩ := made.mono fun d ⟨depth, same⟩ => same ▸ E.serves_within depth
    exact p.settles ih leaves

/-- Whatever its callbacks and jobs do, an outermost call that succeeds has a lawful history: what
is noted of it, in order, is what happens in the cycles of that history. -/
theorem Visits.lawful (visits : E.Visits w) {depth : Nat} (C : Callbacks (E.within depth))
    {α : Type} (call : Outer α) {a : α} {v : World}
    (gives : (call.act (E.within (depth + 1)).dispatch).Gives w a v) :
    ∃ h : History, C.moments w call = h.moments ∧ h.Lawful ∧ v.bus.Settled :=
  C.moments_lawful visits.settled gives

end Engine

namespace Echo

/-- Whoever hears of one key publishes on another, and someone follows everything. -/
def world : World := ((World.start {}).toOption.getD {}).play
  [.subscribe "echo" (.id 1) (some (.field "x"))
      [.publish ⟨.id 1, .field "y", .bool true, .null⟩],
    .subscribe "all" .all none []]

def engine : Engine Scope.any := .standard Scope.closed_any

def call : Outer Unit := .publish [⟨1, .field "x", .bool true, .null⟩]

/-- A publication on the one key has a lawful history. -/
theorem lawful_call : ∃ (C : Callbacks (engine.within 8)) (h : History),
    C.moments world call = h.moments ∧ h.Lawful ∧
      ((call.act (Reentry.within 9).dispatch).on world).2.bus.Settled := by
  have begun : engine.Visits ((World.start {}).toOption.getD {}) :=
    .start (show World.start {} = .ok _ from rfl)
  have visits : engine.Visits world := begun.play fun _ _ => trivial
  have gives : (call.act (engine.within 9).dispatch).Gives world ()
      ((call.act (Reentry.within 9).dispatch).on world).2 := by
    rw [engine, Engine.within_standard]
    exact Act.gives_of_toOption (by decide +kernel)
  obtain ⟨C⟩ := engine.nonempty_callbacks 8
  exact ⟨C, visits.lawful C call gives⟩

end Echo

end ReactiveQuery
