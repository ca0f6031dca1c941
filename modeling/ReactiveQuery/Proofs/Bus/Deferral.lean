import ReactiveQuery.Proofs.Bus.Program
import ReactiveQuery.Proofs.Dispatch

/-! Open buses.  While a dispatch or a batch is under way, calls queue their events and dispatch
nothing, so all that they fail for is their own. -/

namespace ReactiveQuery

/-- What a sink answers that takes no changes. -/
def Sink.refusal : Error := .invalidOperation "sink refused"

namespace Act

variable {α β : Type} {P : Error → Prop}

/-- The activity leaves an open bus open, and fails there with these errors only. -/
def Deferred (P : Error → Prop) (act : Act α) : Prop :=
  ∀ w, w.bus.dispatching = true →
    (act.on w).2.bus.dispatching = true ∧ ∀ e, (act.on w).1 = .error (.raised e) → P e

namespace Deferred

theorem mono {Q : Error → Prop} {x : Act α} (deferred : Deferred P x) (weaker : ∀ e, P e → Q e) :
    Deferred Q x := fun w busy =>
  ⟨(deferred w busy).1, fun e fails => weaker e ((deferred w busy).2 e fails)⟩

theorem ret (a : α) : Deferred P (pure a : Act α) := fun _ busy => ⟨busy, nofun⟩

theorem endless : Deferred P (throw .endless : Act α) := fun _ busy => ⟨busy, nofun⟩

theorem raise {e : Error} (may : P e) : Deferred P (Act.raise e : Act α) := fun _ busy =>
  ⟨busy, fun _ same => by cases same; exact may⟩

theorem world : Deferred P (get : Act World) := fun _ busy => ⟨busy, nofun⟩

theorem changeHeap (change : Heap → Heap) : Deferred P (Act.changeHeap change) := fun _ busy =>
  ⟨busy, nofun⟩

theorem log (entry : LogEntry) : Deferred P (Act.log entry) := fun _ busy => ⟨busy, nofun⟩

theorem changeBus {change : Bus → Bus} (same : ∀ b, (change b).dispatching = b.dispatching) :
    Deferred P (Act.changeBus change) := fun w busy => ⟨(same w.bus).trans busy, nofun⟩

theorem settle : Deferred P Act.settle := fun w busy => by
  obtain ⟨r, same⟩ := World.bus_sweep w
  refine ⟨?_, nofun⟩
  rw [Act.settle, on_modify, same]
  exact busy

theorem bind {x : Act α} {f : α → Act β} (first : Deferred P x) (rest : ∀ a, Deferred P (f a)) :
    Deferred P (x >>= f) := fun w busy => by
  have ⟨busy', fails⟩ := first w busy
  rw [on_bind]
  rcases outcome : x.on w with ⟨e | a, v⟩ <;> rw [outcome] at busy' fails
  · exact ⟨busy', fun e' same => fails e' (by cases same; rfl)⟩
  · exact rest a v busy'

theorem holding {values : List Value} {x : Act α} (deferred : Deferred P x) :
    Deferred P (Act.holding values x) := fun w busy => by
  rw [on_holding]
  exact deferred { w with held := values ++ w.held } busy

theorem ofOption (o : Option α) : Deferred P (Act.ofOption o) := by
  cases o with
  | none => exact endless
  | some a => exact ret a

theorem ofExcept {r : Except Error α} (may : ∀ e, r = .error e → P e) :
    Deferred P (Act.ofExcept r) := by
  cases r with
  | error e => exact raise (may e rfl)
  | ok a => exact ret a

theorem ite {c : Prop} [Decidable c] {x y : Act α} (yes : Deferred P x) (no : Deferred P y) :
    Deferred P (if c then x else y) := by
  split
  · exact yes
  · exact no

theorem enqueueAll (es : List Event) : Deferred P (Act.enqueueAll es) := by
  induction es with
  | nil => exact ret ()
  | cons e es ih =>
    refine bind (holding (bind settle fun _ => changeBus fun b => ?_)) fun _ => ih
    split <;> rfl

end Deferred

/-- A way to dispatch that leaves an open bus alone, and the calls that use it: no error of a
dispatch comes out of them while the bus is open. -/
structure Defers (dispatch : Act Unit) : Prop where
  skips : ∀ w, w.bus.dispatching = true → dispatch.on w = (.ok (), w)
  publishAll : ∀ es, Deferred (fun _ => False) (publishAll dispatch es)
  setField : ∀ (r : Ref) key v,
    Deferred (fun e => e = .unknownField key ∨ e = Sink.refusal) (r.setField dispatch key v)
  change : ∀ (r : Ref) f,
    Deferred (fun e => (∃ items, f items = .error e) ∨ e = Sink.refusal) (r.change dispatch f)
  sortItems : ∀ (r : Ref) ascending, Deferred (· = Sink.refusal) (r.sortItems dispatch ascending)
  setAttr : ∀ key v items, Deferred (fun e => e = .unknownField key ∨ e = Sink.refusal)
    (Ref.setAttr dispatch key v items)
  batch : ∀ {α : Type} (body : Act α) w, w.bus.dispatching = true →
    (batch dispatch body).on w = body.on w

section
variable {dispatch : Act Unit}
  (skips : ∀ w, w.bus.dispatching = true → dispatch.on w = (.ok (), w))
include skips

theorem deferred_dispatch : Deferred P dispatch := fun w busy => by
  rw [skips w busy]
  exact ⟨busy, nofun⟩

theorem deferred_publishAll (es : List Event) : Deferred P (publishAll dispatch es) :=
  .bind (.enqueueAll es) fun _ => deferred_dispatch skips

theorem deferred_report (refuses : P Sink.refusal) (sink : Sink) (es : List Event) :
    Deferred P (report dispatch sink es) := by
  cases sink with
  | silent => exact .ret ()
  | bus => exact deferred_publishAll skips es
  | log =>
    change Deferred P (es.forM fun e => Act.log (.reported e))
    induction es with
    | nil => exact .ret ()
    | cons e es ih => exact .bind (.log _) fun _ => ih
  | refusing =>
    cases es with
    | nil => exact .ret ()
    | cons e es => exact .bind (.log _) fun _ => .raise refuses

/-- A write fails for an undeclared field or for its sink. -/
theorem deferred_setField (r : Ref) (key : String) (v : Value) :
    Deferred (fun e => e = .unknownField key ∨ e = Sink.refusal) (r.setField dispatch key v) := by
  refine .bind .world fun w => ?_
  split
  · split
    · exact .raise (.inl rfl)
    · exact .ite (.ret ()) (.bind (.changeHeap _) fun _ => deferred_report skips (.inr rfl) _ _)
  · exact .ret ()

/-- A change of items fails as the change does or for its sink. -/
theorem deferred_change (r : Ref) (f : ItemChange) :
    Deferred (fun e => (∃ items, f items = .error e) ∨ e = Sink.refusal)
      (r.change dispatch f) := by
  refine .bind .world fun w => ?_
  split
  · refine .bind (.ofExcept fun e fails => .inl ⟨_, fails⟩) fun _ => ?_
    exact .bind (.changeHeap _) fun _ =>
      .bind (.holding (deferred_report skips (.inr rfl) _ _)) fun _ => .ret _
  · exact .ret []

theorem deferred_sortItems (r : Ref) (ascending : Bool) :
    Deferred (· = Sink.refusal) (r.sortItems dispatch ascending) := by
  refine .bind (.bind .world fun w => .ofOption _) fun sorted => .bind ?_ fun _ => .ret ()
  exact (deferred_change skips r (.replaceAll sorted)).mono fun e may =>
    may.resolve_left fun ⟨_, fails⟩ => nomatch fails

theorem deferred_setAttr (key : String) (v : Value) (items : List Value) :
    Deferred (fun e => e = .unknownField key ∨ e = Sink.refusal)
      (Ref.setAttr dispatch key v items) := by
  induction items with
  | nil => exact .ret ()
  | cons item items ih =>
    cases item with
    | record r =>
      exact .bind .world fun w =>
        .ite (.bind (.holding (deferred_setField skips r key v)) fun _ => ih) ih
    | _ => exact ih

/-- Where an open bus is left alone, all calls defer to the one that opened it. -/
theorem defers : Defers dispatch where
  skips := skips
  publishAll es := deferred_publishAll skips es
  setField r key v := deferred_setField skips r key v
  change r f := deferred_change skips r f
  sortItems r ascending := deferred_sortItems skips r ascending
  setAttr key v items := deferred_setAttr skips key v items
  batch _ _ busy := on_batch_of_busy busy

end

/-- The call that has opened the bus fails with what dispatching fails for. -/
structure Surfaces (again : Reentry) (dispatch : Act Unit) : Prop where
  raises_iff : ∀ w e, w.bus.dispatching = false →
    ((∃ v, dispatch.on w = (.error (.raised e), v)) ↔ w.bus.queue.isEmpty = false ∧
      ∃ v, (cycles again.call again.dispatch again.perform w.bus.ceiling).on
        { w with bus := { w.bus with dispatching := true } } = (.error (.raised e), v))
  publishAll : ∀ w u v e es, (enqueueAll es).Gives w () u →
    dispatch.on u = (.error (.raised e), v) →
    (publishAll dispatch es).on w = (.error (.raised e), v)
  batch : ∀ {α : Type} (body : Act α) w u v e r, w.bus.dispatching = false →
    (attempt body).Gives { w with bus := { w.bus with dispatching := true } } r u →
    dispatch.on { u with bus := { u.bus with dispatching := false } } = (.error (.raised e), v) →
    (batch dispatch body).on w = (.error (.raised e), v)

section
variable (again : Reentry) {w : World}

theorem on_dispatchIfIdle_of_busy (busy : w.bus.dispatching = true) :
    (dispatchIfIdle again.call again.dispatch again.perform).on w = (.ok (), w) :=
  on_dispatchIfIdle_of_still (.inl busy)

/-- Dispatching from an idle bus fails as its cycles do. -/
theorem dispatchIfIdle_raises_iff {e : Error} (idle : w.bus.dispatching = false) :
    (∃ v, (dispatchIfIdle again.call again.dispatch again.perform).on w
      = (.error (.raised e), v)) ↔ w.bus.queue.isEmpty = false ∧
        ∃ v, (cycles again.call again.dispatch again.perform w.bus.ceiling).on
          { w with bus := { w.bus with dispatching := true } } = (.error (.raised e), v) := by
  simp only [raises_dispatchIfIdle idle]
  constructor
  · rintro ⟨_, u, fails, -⟩
    have waits := waits_of_cycles_error fails
    exact ⟨waits, u, fails⟩
  · rintro ⟨-, u, fails⟩
    exact ⟨_, u, fails, rfl⟩

theorem surfaces :
    Surfaces again (dispatchIfIdle again.call again.dispatch again.perform) where
  raises_iff _ _ idle := dispatchIfIdle_raises_iff again idle
  publishAll w u v e es queued fails := by
    rw [publishAll, on_bind_ok queued, fails]
  batch body w u v e r idle ran fails := by
    rw [on_batch_of_idle idle ran, on_bind_error fails]

end

end Act

end ReactiveQuery
