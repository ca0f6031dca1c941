import ReactiveQuery.Proofs.Bus.Engine
import ReactiveQuery.Proofs.Live.Enrolled

/-! What an activity may stir while the bus is open: the pairs on which events come to wait. -/

namespace ReactiveQuery

/-- An event waits on the pair. -/
def Bus.Waits (b : Bus) (pair : Nat × EventKey) : Prop := ∃ e ∈ b.queue.events, e.pair = pair

theorem Queue.pair_of_mem_enqueue {q : Queue} {e e' : Event} (member : e' ∈ (q.enqueue e).events) :
    e'.pair = e.pair ∨ ∃ e'' ∈ q.events, e''.pair = e'.pair := by
  have waiting : ∀ {i : Nat} {e}, q.slot? i = some e → e ∈ q.events := fun {i e} found => by
    rw [slot?, Option.join_eq_some_iff] at found
    simpa [events] using Array.mem_of_getElem? found
  simp only [events, List.mem_filterMap, id_eq, exists_eq_right, Array.mem_toList_iff] at member
  unfold enqueue at member
  split at member
  · rcases Array.mem_push.mp member with old | new
    · exact .inr ⟨e', by simpa [events] using old, rfl⟩
    · exact .inl (by rw [Option.some.inj new])
  · split at member
    · exact .inr ⟨e', by simpa [events] using member, rfl⟩
    · next i _ old found =>
      split at member <;> rcases Array.mem_or_eq_of_mem_setIfInBounds member with before | new
      · exact .inr ⟨e', by simpa [events] using before, rfl⟩
      · cases new
      · exact .inr ⟨e', by simpa [events] using before, rfl⟩
      · exact .inr ⟨old, waiting found, by rw [Option.some.inj new]; rfl⟩

namespace World

variable {P : Nat × EventKey → Prop} {u v w : World}

/-- The bus stays open, no live query comes, and events come to wait on some pairs only. -/
structure Stirs (P : Nat × EventKey → Prop) (w v : World) : Prop where
  dispatching : v.bus.dispatching = true
  lists : ∀ q, v.bus.Lists q → w.bus.Lists q
  waits : ∀ p, v.bus.Waits p → P p ∨ w.bus.Waits p

theorem Stirs.trans (first : u.Stirs P v) (second : v.Stirs P w) : u.Stirs P w where
  dispatching := second.dispatching
  lists q listed := first.lists q (second.lists q listed)
  waits p waits := (second.waits p waits).elim .inl (first.waits p)

theorem Stirs.of_bus (busy : w.bus.dispatching = true)
    (dispatching : v.bus.dispatching = w.bus.dispatching)
    (listeners : v.bus.listeners = w.bus.listeners) (queue : v.bus.queue = w.bus.queue) :
    w.Stirs P v where
  dispatching := dispatching.trans busy
  lists q listed := by
    unfold Bus.Lists at *
    rwa [← listeners]
  waits p waits := by
    unfold Bus.Waits at *
    rw [queue] at waits
    exact .inr waits

theorem Stirs.sweep (busy : w.bus.dispatching = true) : w.Stirs P w.sweep := by
  obtain ⟨r, same⟩ := bus_sweep w
  exact .of_bus busy (by rw [same]) (by rw [same]) (by rw [same])

end World

/-- A way to dispatch that lets an open bus be. -/
def Act.Silent (dispatch : Act Unit) : Prop := ∀ w : World, w.bus.dispatching = true →
  dispatch.on w = (.ok (), w) ∨ dispatch.on w = (.error .endless, w)

theorem Engine.silent_within {S : Scope} (E : Engine S) (depth : Nat) :
    (E.within depth).dispatch.Silent := fun w busy => by
  cases depth with
  | zero => exact .inr rfl
  | succ depth => exact .inl (Act.on_dispatchIfIdle_of_busy (E.within depth) busy)

/-- While the bus is open, events come to wait on some pairs only. -/
def Act.Stirs (P : Nat × EventKey → Prop) {α : Type} (act : Act α) : Prop :=
  ∀ w : World, w.bus.dispatching = true → w.Stirs P (act.on w).2

def Trait.stirring (P : Nat × EventKey → Prop) : Trait where
  Has := Act.Stirs P
  still still w busy := by
    have same := (still w).bus
    exact .of_bus busy (by rw [same]) (by rw [same]) (by rw [same])
  bind {_ _ x _} first rest w busy := by
    have stirs := first w busy
    rw [Act.on_bind]
    rcases outcome : x.on w with ⟨_ | a, u⟩ <;> rw [outcome] at stirs
    · exact stirs
    · exact stirs.trans (rest a u stirs.dispatching)
  holding values stirs w busy := by
    obtain ⟨dispatching, lists, waits⟩ := stirs { w with held := values ++ w.held } busy
    exact ⟨dispatching, lists, waits⟩
  attempt {_ x} stirs w busy := by
    have inner := stirs w busy
    rw [Act.on_attempt]
    rcases outcome : x.on w with ⟨(_ | _) | _, _⟩ <;> rw [outcome] at inner <;> exact inner
  settle _ busy := .sweep busy

namespace Act.Stirs

variable {P : Nat × EventKey → Prop} {α : Type}

theorem gives {act : Act α} {w v : World} {a : α} (stirs : act.Stirs P)
    (busy : w.bus.dispatching = true) (gives : act.Gives w a v) : w.Stirs P v := by
  have step := stirs w busy
  rwa [gives.on] at step

theorem of_bus {act : Act α} (same : ∀ w, (act.on w).2.bus = w.bus) : act.Stirs P := fun w busy =>
  .of_bus busy (by rw [same]) (by rw [same]) (by rw [same])

theorem enqueueAll {es : List Event} (may : ∀ e ∈ es, P e.pair) : (Act.enqueueAll es).Stirs P := by
  induction es with
  | nil => exact Trait.Has.ret (T := .stirring P) ()
  | cons e es ih =>
    obtain ⟨first, others⟩ := List.forall_mem_cons.mp may
    have queues : (Act.changeBus fun b =>
        if e.new.strictEq e.old || !b.registry.hasListeners e.target e.key then b
        else { b with queue := b.queue.enqueue e }).Stirs P := fun w busy => by
      rw [Act.on_changeBus]
      dsimp only
      split
      · exact .of_bus busy rfl rfl rfl
      · refine ⟨busy, fun _ => id, fun p ⟨e', member, pair⟩ => ?_⟩
        rcases Queue.pair_of_mem_enqueue member with same | ⟨e'', old, same⟩
        · exact .inl (pair ▸ same ▸ first)
        · exact .inr ⟨e'', old, same.trans pair⟩
    exact (Trait.stirring P).bind ((Trait.stirring P).holding _
      ((Trait.stirring P).bind (Trait.stirring P).settle fun _ => queues)) fun _ => ih others

variable {dispatch : Act Unit} (silent : dispatch.Silent)
include silent

theorem publishAll {es : List Event} (may : ∀ e ∈ es, P e.pair) :
    (Act.publishAll dispatch es).Stirs P :=
  (Trait.stirring P).bind (enqueueAll may) fun _ w busy => by
    rcases silent w busy with same | same <;> rw [same] <;> exact .of_bus busy rfl rfl rfl

theorem report (sink : Sink) {es : List Event} (may : ∀ e ∈ es, P e.pair) :
    (Act.report dispatch sink es).Stirs P := by
  unfold Act.report
  split
  · exact Trait.Has.ret (T := .stirring P) ()
  · exact publishAll silent may
  · exact Trait.Has.forM (T := .stirring P) (fun _ => .log _ rfl) _
  · exact Trait.Has.ret (T := .stirring P) ()
  · exact Trait.Has.bind (T := .stirring P) (.log _ rfl) fun _ => .raise _

/-- A refresh without calls stirs the content and the length of its result. -/
theorem refresh {call : Caller} {result : Ref} {d : Definition} (calls : d.functions = [])
    (content : P (result.id, .content)) (length : P (result.id, .length)) (source : Ref)
    (params : List Value) : (Act.refresh call dispatch result source d params).Stirs P := by
  have tells : ∀ old new, ∀ e ∈ changeEvents result.id old new, P e.pair := by
    intro old new e member
    unfold changeEvents at member
    split at member
    · exact List.mem_singleton.mp member ▸ content
    · rcases List.mem_cons.mp member with rfl | other
      · exact content
      · exact List.mem_singleton.mp other ▸ length
  have changes : ∀ rows, (result.change dispatch (.replaceAll rows)).Stirs P := fun rows => by
    refine (Trait.stirring P).bind (Trait.Has.world (T := .stirring P)) fun w => ?_
    split
    · exact (Trait.stirring P).bind (Trait.Has.ofExcept (T := .stirring P) _) fun _ =>
        (Trait.stirring P).bind (of_bus fun _ => rfl) fun _ =>
          (Trait.stirring P).bind ((Trait.stirring P).holding _ (report silent _ (tells _ _))) fun _ =>
            Trait.Has.ret (T := .stirring P) _
    · exact Trait.Has.ret (T := .stirring P) _
  exact (Trait.stirring P).bind (Trait.Has.world (T := .stirring P)) fun _ =>
    (Trait.stirring P).holding _ ((Trait.stirring P).bind
      (d.has_execute (T := .stirring P) _ (calls ▸ Trait.Calls.nil) _) fun rows =>
        (Trait.stirring P).bind (changes rows) fun _ => Trait.Has.ret (T := .stirring P) ())

end Act.Stirs

end ReactiveQuery
