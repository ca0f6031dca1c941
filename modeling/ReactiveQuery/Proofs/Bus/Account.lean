import ReactiveQuery.Proofs.Bus.Quiescence

/-! What an open bus takes in.  Programs that run while it is open leave the events that they
publish in its queue, as far as these change something that someone follows. -/

namespace ReactiveQuery

/-- Does the event change something that someone follows? -/
def Registry.accepts (r : Registry) (e : Event) : Bool :=
  !e.new.strictEq e.old && r.hasListeners e.target e.key

namespace Bus

/-- The second bus is the first one after it has taken in events. -/
structure Takes (b : Bus) (es : List Event) (c : Bus) : Prop where
  queue : c.queue = es.foldl Queue.enqueue b.queue
  dispatching : c.dispatching = b.dispatching

namespace Takes

variable {b c d : Bus} {es es' : List Event}

theorem refl (b : Bus) : Takes b [] b := ⟨rfl, rfl⟩

theorem trans (first : Takes b es c) (second : Takes c es' d) : Takes b (es ++ es') d where
  queue := by rw [second.queue, first.queue, List.foldl_append]
  dispatching := second.dispatching.trans first.dispatching

/-- An open bus stays open. -/
theorem busy (takes : Takes b es c) (busy : b.dispatching = true) : c.dispatching = true :=
  takes.dispatching.trans busy

/-- An event is taken in if it is accepted. -/
theorem enqueue (b : Bus) (e : Event) : Takes b ([e].filter b.registry.accepts)
    (if e.new.strictEq e.old || !b.registry.hasListeners e.target e.key then b
      else { b with queue := b.queue.enqueue e }) := by
  have drops :
    (e.new.strictEq e.old || !b.registry.hasListeners e.target e.key) = !b.registry.accepts e := by
    simp [Registry.accepts]
  rw [drops, List.filter_cons]
  cases b.registry.accepts e with
  | true => exact ⟨rfl, rfl⟩
  | false => exact refl b

/-- Letting go of what nothing holds takes nothing in. -/
theorem sweep (w : World) : Takes w.bus [] w.sweep.bus := by
  obtain ⟨r, same⟩ := World.bus_sweep w
  rw [same]
  exact ⟨rfl, rfl⟩

end Takes

end Bus

namespace Act

variable {α β : Type}

/-- What comes after an activity that succeeds. -/
def after (act : Act α) (w : World) (rest : α → World → List β) : List β :=
  match act.on w with
  | (.ok a, v) => rest a v
  | (.error _, _) => []

theorem Gives.after {act : Act α} {w v : World} {a : α} (gives : act.Gives w a v)
    (rest : α → World → List β) : act.after w rest = rest a v := by
  rw [Act.after, gives.on]

theorem after_of_raised {act : Act α} {w v : World} {e : Error}
    (fails : act.on w = (.error (.raised e), v)) (rest : α → World → List β) :
    act.after w rest = [] := by
  rw [Act.after, fails]

/-- The events that are taken in when some are queued one after the other. -/
def acceptedAll : List Event → World → List Event
  | [], _ => []
  | e :: es, w =>
    let values := (e :: es).flatMap Event.values
    [e].filter { w with held := values ++ w.held }.sweep.bus.registry.accepts ++
      (holding values (enqueue e)).after w fun _ v => acceptedAll es v

theorem enqueue_takes (e : Event) (w : World) :
    ∃ v, (enqueue e).Gives w () v ∧ w.bus.Takes ([e].filter w.sweep.bus.registry.accepts) v.bus :=
  ⟨_, rfl, (Bus.Takes.sweep w).trans (.enqueue w.sweep.bus e)⟩

theorem enqueueAll_takes (es : List Event) (w : World) :
    ∃ v, (enqueueAll es).Gives w () v ∧ w.bus.Takes (acceptedAll es w) v.bus := by
  induction es generalizing w with
  | nil => exact ⟨w, rfl, .refl _⟩
  | cons e es ih =>
    let values := (e :: es).flatMap Event.values
    obtain ⟨u, first, takes⟩ := enqueue_takes e { w with held := values ++ w.held }
    obtain ⟨v, rest, takes'⟩ := ih { u with held := w.held }
    have held : (holding values (enqueue e)).Gives w () { u with held := w.held } :=
      gives_holding.mpr ⟨u, first, rfl⟩
    refine ⟨v, gives_bind.mpr ⟨(), _, held, rest⟩, ?_⟩
    rw [acceptedAll, held.after]
    exact Bus.Takes.trans (c := u.bus) takes takes'

/-- A way to dispatch that lets an open bus be, unless it never ends. -/
def Skips (dispatch : Act Unit) : Prop := ∀ w, w.bus.dispatching = true →
  ∀ r v, dispatch.on w = (r, v) → r ≠ .error .endless → r = .ok () ∧ v = w

end Act

namespace Program

variable {S : Scope} {D : Act Unit → Prop} {α : Type}

/-- The events that an open bus takes in while a program runs. -/
def accepted {α : Type} : Program S D α → World → List Event
  | .own _ _, _ => []
  | .bind p f, w => p.accepted w ++ p.act.after w fun a v => (f a).accepted v
  | .attempt p, w => p.accepted w
  | .holding values p, w => p.accepted { w with held := values ++ w.held }
  | .publish _ _ es, w => Act.acceptedAll es w
  | .batch _ _ body, w => body.accepted w

/-- All that a program leaves in an open bus is what the bus has taken in. -/
theorem takes (p : Program S Act.Skips α) {w v : World} (busy : w.bus.dispatching = true)
    (leaves : p.act.Leaves w v) : w.bus.Takes (p.accepted w) v.bus := by
  induction p generalizing w v with
  | own act own =>
    obtain ⟨r, outcome, -⟩ := leaves
    have keeps := own w
    rw [show act.on w = (r, v) from outcome] at keeps
    exact ⟨keeps.queue, keeps.dispatching⟩
  | bind p f first rest =>
    rw [accepted]
    rcases Act.leaves_bind leaves with ⟨e, stops⟩ | ⟨a, u, gives, goes⟩
    · rw [Act.after_of_raised stops, List.append_nil]
      exact first busy (Act.leaves_of_raised stops)
    · have takes := first busy gives.leaves
      rw [gives.after]
      exact takes.trans (rest a (takes.busy busy) goes)
  | attempt p ih => exact ih busy (Act.leaves_attempt leaves)
  | holding values p ih =>
    obtain ⟨u, inner, rfl⟩ := Act.leaves_holding leaves
    exact ih (w := { w with held := values ++ w.held }) (v := u) busy inner
  | publish dispatch skips es =>
    obtain ⟨u, gives, takes⟩ := Act.enqueueAll_takes es w
    obtain ⟨r, outcome, ends⟩ := leaves
    rw [show (Program.publish dispatch skips es).act = Act.publishAll dispatch es from rfl,
      Act.publishAll, Act.on_bind_ok gives] at outcome
    obtain ⟨-, rfl⟩ := skips u (takes.busy busy) r v outcome ends
    exact takes
  | batch dispatch skips body ih =>
    obtain ⟨r, outcome, ends⟩ := leaves
    rw [show (Program.batch dispatch skips body).act = Act.batch dispatch body.act from rfl,
      Act.on_batch_of_busy busy] at outcome
    exact ih busy ⟨r, outcome, ends⟩

end Program

end ReactiveQuery
