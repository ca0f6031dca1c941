import ReactiveQuery.Proofs.Bus.Quiescence
import ReactiveQuery.Proofs.Change.Reckoning
import ReactiveQuery.Proofs.Session.Snapshot

/-! Engines with callbacks and extension functions of any kind.  They are programs of the engine
that they run in, so they may start one another to any depth. -/

namespace ReactiveQuery

/-- What commands and extension functions do, given what they may start again. -/
structure Engine (S : Scope) where
  call : Reentry → Caller
  perform : Reentry → Command → Act Reply
  made_call : ∀ {D : Act Unit → Prop} {again : Reentry}, again.Made S D → (call again).Made S D
  made_perform : ∀ {D : Act Unit → Prop} {again : Reentry}, again.Made S D →
    ∀ c, S.commands c → Act.Made S D (perform again c)

namespace Engine

variable {S : Scope}

/-- Activities of an engine that may start one another to a depth. -/
def within (E : Engine S) : Nat → Reentry
  | 0 => ⟨fun _ _ _ => throw .endless, throw .endless, fun _ => throw .endless⟩
  | depth + 1 => {
    call := E.call (E.within depth)
    dispatch := Act.dispatchIfIdle (E.within depth).call (E.within depth).dispatch
      (E.within depth).perform
    perform := E.perform (E.within depth) }

/-- The ways in which an engine dispatches. -/
def Dispatches (E : Engine S) (dispatch : Act Unit) : Prop :=
  ∃ depth, dispatch = (E.within depth).dispatch

/-- The worlds that come about when programs run one after the other, each until it ends. -/
inductive Visits (E : Engine S) : World → Prop
  | start {setup : Setup} {w : World} (started : World.start setup = .ok w) : Visits E w
  | step {α : Type} {act : Act α} {w v : World} (visits : Visits E w)
    (made : act.Made S E.Dispatches) (leaves : act.Leaves w v) : Visits E v

end Engine

namespace Command

mutual
/-- A command that leaves the scheduler to live queries, in all its parts. -/
def Clean : Command → Prop
  | .bind _ inner => inner.Clean
  | .batch cs => AllClean cs
  | .listen _ _ _ actions | .subscribe _ _ _ actions => AllClean actions
  | .mark .. | .flush | .clear => False
  | _ => True

def AllClean : List Command → Prop
  | [] => True
  | c :: cs => c.Clean ∧ AllClean cs
end

theorem allClean_iff : ∀ {cs : List Command}, AllClean cs ↔ ∀ c ∈ cs, c.Clean
  | [] => by simp [AllClean]
  | c :: cs => by rw [AllClean, allClean_iff, List.forall_mem_cons]

theorem closed_clean : (Scope.clean Clean).Closed where
  bind clean := clean
  batch clean := allClean_iff.mp clean
  listen clean := allClean_iff.mp clean
  subscribe clean := allClean_iff.mp clean
  mark clean := clean
  flush clean := clean
  clear clean := clean
  all scheduler := scheduler.elim

end Command

/-- The engine whose callbacks are commands and whose extension functions are those there are. -/
def Engine.standard {S : Scope} (closed : S.Closed) : Engine S where
  call again e ctx args := e.invoke again.call again.dispatch ctx args
  perform again c := c.perform again
  made_call made e ctx args :=
    Extension.has_invoke made.allows.call made.allows.dispatch e ctx args
  made_perform made := Command.has_perform closed made.allows

theorem Engine.within_standard {S : Scope} (closed : S.Closed) (depth : Nat) :
    (Engine.standard closed).within depth = Reentry.within depth := by
  induction depth with
  | zero => rfl
  | succ depth ih => rw [Engine.within, ih, Reentry.within, standard]

namespace Engine

variable {K : Command → Prop} (E : Engine (Scope.clean K))

theorem made_within (depth : Nat) :
    (E.within depth).Made (Scope.clean K) (Act.Settling K) := by
  induction depth with
  | zero =>
    refine ⟨fun _ _ _ => .fault _, ⟨fun w _ r v outcome ends => ?_, fun w v _ _ _ leaves => ?_⟩,
      fun _ _ => .fault _⟩
    · exact absurd (Prod.mk.inj outcome).1.symm ends
    · exact absurd leaves Act.not_leaves_endless
  | succ depth ih => exact ⟨E.made_call ih, Act.settling_dispatchIfIdle ih, E.made_perform ih⟩

end Engine

namespace Bus

/-- A new bus with the same registrations and listeners. -/
def renewed (b : Bus) : Bus :=
  { registry := b.registry, listeners := b.listeners, ceiling := b.ceiling, nextId := b.nextId }

/-- A bus at rest: it differs from a new one in the slots that its queue has left behind, and no
arrivals can tell. -/
structure Rested (b : Bus) : Prop where
  same : b = { b.renewed with queue := b.queue }
  empty : b.queue.isEmpty = true
  arrivals : ∀ es : List Event,
    (es.foldl Queue.enqueue b.queue).events = (es.foldl Queue.enqueue {}).events ∧
      (es.foldl Queue.enqueue b.queue).isEmpty = (es.foldl Queue.enqueue {}).isEmpty

variable {K : Command → Prop} {b : Bus}

theorem Orderly.rested (orderly : b.Orderly K) (idle : b.dispatching = false) (quiet : b.Quiet) :
    b.Rested where
  same := by
    obtain ⟨_, _, _, _, _, _, _⟩ := b
    cases idle
    cases quiet.scheduler
    rfl
  empty := quiet.queue
  arrivals es := by
    have left := (orderly.indexed.holds_of_isEmpty quiet.queue).foldl_enqueue es
    have right := Queue.holds_empty.foldl_enqueue es
    have events : (es.foldl Queue.enqueue b.queue).events = _ := left.events.trans right.events.symm
    refine ⟨events, Bool.eq_iff_iff.mpr ?_⟩
    rw [left.indexed.isEmpty_iff, right.indexed.isEmpty_iff, events]

end Bus

/-- A command that is performed from outside has ended. -/
theorem World.leaves_of_perform {w v : World} {c : Command} {reply : Reply}
    (performs : w.perform c = some (reply, v)) : (Reentry.deepest.perform c).Leaves w v := by
  unfold World.perform at performs
  unfold Act.Leaves Act.on
  rcases outcome : (Reentry.deepest.perform c).run.run w with ⟨(e | _) | _, x⟩ <;>
    rw [outcome] at performs <;> cases performs
  · exact ⟨_, rfl, nofun⟩
  · exact ⟨_, rfl, nofun⟩

namespace Engine

variable {K : Command → Prop} {E : Engine (Scope.clean K)} {w : World}

theorem orderly_start {setup : Setup} (started : World.start setup = .ok w) :
    w.bus.Orderly K ∧ w.bus.dispatching = false ∧ w.bus.Quiet := by
  obtain ⟨known, serial, rfl⟩ := World.start_same started
  exact ⟨⟨Queue.indexed_empty, by simp, by simp⟩, rfl, rfl, rfl⟩

/-- In every world that is visited the bus is in order and idle, and nothing waits. -/
theorem Visits.orderly (visits : E.Visits w) :
    w.bus.Orderly K ∧ w.bus.dispatching = false ∧ w.bus.Quiet := by
  induction visits with
  | start started => exact orderly_start started
  | step visits made leaves ih =>
    obtain ⟨orderly, idle, quiet⟩ := ih
    have settles : ∀ d, E.Dispatches d → Act.Settling K d := fun d ⟨depth, same⟩ =>
      same ▸ (E.made_within depth).dispatch
    obtain ⟨p, rfl⟩ := made.mono settles
    have moves := p.moves orderly (fun _ => quiet) leaves
    exact ⟨moves.orderly, moves.dispatching.trans idle, moves.idle idle quiet⟩

/-- Whatever an engine is made to do, in the end its bus is at rest, however that end came about.
While the bus is open no call fails with what a dispatch fails for; the call that opened it does. -/
theorem quiescent (E : Engine (Scope.clean K)) : (∀ w, E.Visits w → w.bus.Rested) ∧
    ∀ depth, Act.Defers (E.within (depth + 1)).dispatch ∧
      Act.Surfaces (E.within depth) (E.within (depth + 1)).dispatch := by
  refine ⟨fun w visits => ?_, fun depth => ⟨?_, Act.surfaces _⟩⟩
  · obtain ⟨orderly, idle, quiet⟩ := visits.orderly
    exact orderly.rested idle quiet
  · exact Act.defers fun w busy => Act.on_dispatchIfIdle_of_busy (E.within depth) busy

/-- Activities of an engine are made of what may dispatch in it. -/
theorem made_dispatches {S : Scope} (E : Engine S) (depth : Nat) :
    (E.within depth).Made S E.Dispatches := by
  induction depth with
  | zero => exact ⟨fun _ _ _ => .fault _, ⟨0, rfl⟩, fun _ _ => .fault _⟩
  | succ depth ih => exact ⟨E.made_call ih, ⟨depth + 1, rfl⟩, E.made_perform ih⟩

/-- A command from outside that ends leads from one visited world to another. -/
theorem Visits.perform {S : Scope} {closed : S.Closed} {w v : World} {c : Command} {reply : Reply}
    (visits : (standard closed).Visits w) (may : S.commands c)
    (performs : w.perform c = some (reply, v)) : (standard closed).Visits v := by
  have made := ((standard closed).made_dispatches 20000).perform c may
  rw [within_standard] at made
  exact visits.step made (World.leaves_of_perform performs)

/-- Commands in a row lead from one visited world to another. -/
theorem Visits.play {S : Scope} {closed : S.Closed} {w : World} {cs : List Command}
    (visits : (standard closed).Visits w) (may : ∀ c ∈ cs, S.commands c) :
    (standard closed).Visits (w.play cs) := by
  induction cs generalizing w with
  | nil => exact visits
  | cons c cs ih =>
    obtain ⟨first, others⟩ := List.forall_mem_cons.mp may
    refine ih (w := w.next c) ?_ others
    unfold World.next
    cases performs : w.perform c with
    | none => exact visits
    | some result => exact visits.perform first performs

end Engine

/-- The error that a reply tells of. -/
def Reply.error? : Reply → Option Error
  | .failed e => some e
  | _ => none

theorem Reply.error?_eq_some {reply : Reply} {e : Error} (tells : reply.error? = some e) :
    reply = .failed e := by
  unfold error? at tells
  split at tells
  · rw [Option.some.inj tells]
  · cases tells

namespace Restless

/-- A query that changes what it reads. -/
def setup : Setup where
  maxNotifyCycles := 2
  queries := [("grow", { filter := some (.tagged "and"
    [.call "bump" [.path .here [], .literal (.text "n")],
      .tagged "gte" [.path .here [.key (.text "n")], .literal (.number .zero)]]) })]
  extensions := [("bump", .bump)]

def start : World := (World.start setup).toOption.getD {}

/-- A record with a number, in a collection. -/
def counter : World := start.play
  [.bind "r" (.newRecord [("n", .number .zero)] none),
    .bind "s" (.newCollection [.named "r"] none)]

def watch : Command := .live "s" "grow" []

/-- Asking for it as a live query exceeds the cycles, and the bus is at rest again. -/
theorem quiescent_watch : ∃ v, counter.perform watch = some (.failed (.cycleOverrun 2), v) ∧
    v.bus.Rested := by
  have fails : ((counter.perform watch).map (·.1)).bind Reply.error? = some (.cycleOverrun 2) := by
    decide +kernel
  obtain ⟨reply, ends, tells⟩ := Option.bind_eq_some_iff.mp fails
  obtain rfl := Reply.error?_eq_some tells
  have performs := World.perform_eq_next ends
  have begun : (Engine.standard Command.closed_clean).Visits start :=
    .start (show World.start setup = .ok _ from rfl)
  have played : (Engine.standard Command.closed_clean).Visits counter :=
    begun.play (Command.allClean_iff.mp ⟨trivial, trivial, trivial⟩)
  have visits := played.perform (c := watch) trivial performs
  exact ⟨_, performs, (Engine.standard Command.closed_clean).quiescent.1 _ visits⟩

end Restless

end ReactiveQuery
