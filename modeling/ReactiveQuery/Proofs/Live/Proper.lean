import ReactiveQuery.Proofs.Bus.Program
import ReactiveQuery.Proofs.Live.Attached

/-! Proper activities keep the order among registrations.  Whatever an engine does is proper, so in
every run the registrations of a live query come with its attachment and go with its result. -/

namespace ReactiveQuery

/-- A number in use that stands for no live query. -/
def Bus.Free (b : Bus) (n : Nat) : Prop := n < b.listeners.size ∧ b.place? n = none

namespace World

variable {w : World}

theorem leads_script (w : World) (name : String) (members : Option Ref)
    (actions : List Command) : w.Leads { w with bus := { w.bus with
      listeners := w.bus.listeners.push (.script name members actions) } } := by
  have old : ∀ (n : Nat) l, w.bus.listeners[n]? = some l →
      (w.bus.listeners.push (.script name members actions))[n]? = some l := fun n l listens => by
    have low := (Array.getElem?_eq_some_iff.mp listens).1
    rw [Array.getElem?_push, if_neg (Nat.ne_of_lt low), listens]
  refine leads_of_scripts rfl rfl old (fun n l listens => ?_)
    (fun enrolled => ⟨enrolled.tidy, fun t n member => ?_⟩) (fun _ _ _ _ => .rfl)
    (fun t => ⟨[], by simp, nofun⟩) fun enrolled n member => ?_
  · rw [Array.getElem?_push] at listens
    split at listens
    · exact .inr ⟨name, members, actions, (Option.some.inj listens).symm⟩
    · exact .inl listens
  · rw [Array.size_push]
    exact Nat.lt_succ_of_lt (enrolled.known t n member)
  · have ⟨low, unplaced⟩ := enrolled.desk n member
    refine ⟨by rw [Array.size_push]; exact Nat.lt_succ_of_lt low, ?_⟩
    have listens := Array.getElem?_eq_getElem low
    rw [Bus.place?, listens] at unplaced
    rw [Bus.place?, old n _ listens, unplaced]

theorem free_script (w : World) (name : String) (members : Option Ref) (actions : List Command) :
    Bus.Free { w.bus with listeners := w.bus.listeners.push (.script name members actions) }
      w.bus.listeners.size := by
  simp [Bus.Free, Bus.place?, Listener.place?]

theorem leads_subscribe {n : Nat} (free : w.bus.Free n) (t : Topic) :
    w.Leads { w with bus := { w.bus with registry := (w.bus.registry.add ⟨t, n⟩).2 } } := by
  refine leads_of_scripts rfl rfl (fun _ _ => id) (fun _ _ => .inl)
    (fun enrolled => ⟨enrolled.tidy.add _, fun t' m member => ?_⟩) (fun _ t' m placed => ?_)
    (fun t' => ⟨[n], ?_, by simpa using free.2⟩) fun enrolled => enrolled.desk
  · rcases Registry.mem_on_add_iff.mp member with before | ⟨⟨⟩⟩
    · exact enrolled.known t' m before
    · exact free.1
  · rw [Registry.mem_on_add_iff, or_iff_left]
    rintro ⟨⟩
    exact placed free.2
  · rw [Registry.on_add]
    split
    · exact .refl _
    · exact List.sublist_append_left _ _

theorem leads_unsubscribe {n : Nat} (free : w.bus.Free n) (t : Topic) :
    w.Leads { w with bus := { w.bus with registry := (w.bus.registry.remove ⟨t, n⟩).2 } } := by
  refine leads_of_scripts rfl rfl (fun _ _ => id) (fun _ _ => .inl)
    (fun enrolled => ⟨enrolled.tidy.remove _, fun t' m member => ?_⟩)
    (fun enrolled t' m placed => ?_) (fun t' => ⟨[], ?_, nofun⟩) fun enrolled => enrolled.desk
  · exact enrolled.known t' m ((Registry.mem_on_remove_iff enrolled.tidy).mp member).1
  · rw [Registry.mem_on_remove_iff enrolled.tidy, and_iff_left]
    rintro ⟨⟩
    exact placed free.2
  · rw [List.append_nil, Registry.on_remove]
    split
    · exact List.erase_sublist
    · exact .refl _

theorem leads_desk {d : Desk}
    (numbers : ∀ n ∈ d.numbers, n ∈ w.desk.numbers ∨ w.bus.Free n) :
    w.Leads { w with desk := d } :=
  leads_of_scripts rfl rfl (fun _ _ => id) (fun _ _ => .inl)
    (fun enrolled => ⟨enrolled.tidy, enrolled.known⟩) (fun _ _ _ _ => .rfl)
    (fun t => ⟨[], by simp, nofun⟩) fun enrolled n member =>
      (numbers n member).elim (enrolled.desk n) id

end World

namespace Desk

theorem mem_numbers {d : Desk} {n : Nat} : n ∈ d.numbers ↔
    (∃ e ∈ d.handles, e.2.listener = n) ∨ ∃ e ∈ d.listeners, e.2 = n := by
  simp [numbers, FieldMap.values]

theorem mem_numbers_handle {d : Desk} {name : String} {h : Handle} {n : Nat}
    (member : n ∈ { d with handles := FieldMap.insert name h d.handles }.numbers) :
    n ∈ d.numbers ∨ n = h.listener := by
  rcases mem_numbers.mp member with ⟨e, inside, rfl⟩ | named
  · rcases FieldMap.mem_insert inside with same | old
    · exact .inr (by rw [same])
    · exact .inl (mem_numbers.mpr (.inl ⟨e, old, rfl⟩))
  · exact .inl (mem_numbers.mpr (.inr named))

theorem mem_numbers_listener {d : Desk} {name : String} {l n : Nat}
    (member : n ∈ { d with listeners := FieldMap.insert name l d.listeners }.numbers) :
    n ∈ d.numbers ∨ n = l := by
  rcases mem_numbers.mp member with handle | ⟨e, inside, rfl⟩
  · exact .inl (mem_numbers.mpr (.inl handle))
  · rcases FieldMap.mem_insert inside with same | old
    · exact .inr same
    · exact .inl (mem_numbers.mpr (.inr ⟨e, old, rfl⟩))

end Desk

/-- Whatever comes of it, the activity keeps the order among registrations. -/
def Act.Proper {α : Type} (act : Act α) : Prop := ∀ w : World, w.Leads (act.on w).2

namespace World

variable {α β : Type} {w : World}

theorem leads_bind {x : Act α} {f : α → Act β} (first : w.Leads (x.on w).2)
    (rest : ∀ a, (f a).Proper) : w.Leads ((x >>= f).on w).2 := by
  rw [Act.on_bind]
  rcases outcome : x.on w with ⟨_ | a, u⟩ <;> rw [outcome] at first
  · exact first
  · exact first.trans (rest a u)

theorem leads_holding {values : List Value} {act : Act α}
    (leads : Leads { w with held := values ++ w.held }
      (act.on { w with held := values ++ w.held }).2) :
    w.Leads ((Act.holding values act).on w).2 := by
  have enter : w.Inert { w with held := values ++ w.held } := ⟨.refl _, rfl, rfl, rfl⟩
  have leave : ∀ u : World, u.Inert { u with held := w.held } := fun _ =>
    ⟨.refl _, rfl, rfl, rfl⟩
  exact enter.leads.trans (leads.trans (leave _).leads)

/-- A new cell that retains nothing. -/
theorem leads_withCell (w : World) {cell : Cell} (bare : cell.subscriptions = []) :
    w.Leads (w.withCell cell) := by
  refine leads_of_registry (Heap.Extends.allocate w.heap w.bus.nextId bare).sheds
    (fun l inside => ?_) rfl rfl (Nat.le_succ _) rfl
  rw [Heap.subscriptions, withCell, Heap.cell?_allocate, if_neg (Nat.ne_of_lt inside),
    Heap.subscriptions]

/-- The next collection, while it is empty. -/
def empty (w : World) : CollectionCell := { id := w.bus.nextId, items := [], sink := .bus }

def nextRef (w : World) : Ref := ⟨w.heap.cells.size, w.bus.nextId⟩

theorem bare_withCell (enrolled : w.Enrolled) :
    (w.withCell (.collection w.empty)).Bare w.nextRef w.empty where
  here := (Heap.cell?_allocate w.heap w.bus.nextId _ _).trans (if_pos rfl)
  bare := rfl
  sink := rfl
  numbered := Nat.lt_succ_self _
  fresh q listed := by
    have ⟨low, inside⟩ := enrolled.ranked.below q listed
    exact ⟨Nat.ne_of_lt low, inside⟩

theorem Bare.holding {r : Ref} {c : CollectionCell} (bare : w.Bare r c) (held : List Value) :
    Bare { w with held } r c :=
  ⟨bare.here, bare.bare, bare.sink, bare.numbered, bare.fresh⟩

theorem leads_attach {r : Ref} {c : CollectionCell} (bare : w.Bare r c) (source : Ref)
    (d : Definition) (params : List Value) :
    w.Leads ((Act.attach r source d params).on w).2 := by
  cases follows : Dependency.all w.heap source d params with
  | none =>
    have fails : (Act.attach r source d params).on w = (.error .endless, w) :=
      Act.on_bind_error (by rw [Act.on_ask, follows]; rfl)
    rw [fails]
    exact .refl w
  | some ds =>
    let q : LiveQuery := ⟨r, source, "", params, d, ds⟩
    have attached : (Act.attach r source d params).on w = (.ok (), w.attached q c) :=
      Act.on_attach (q := q) bare.here bare.bare follows
    rw [attached]
    exact Bare.leads_attached (q := q) bare ⟨_, follows⟩

end World

theorem Act.Proper.attempt {α : Type} {act : Act α} (proper : act.Proper) :
    (Act.attempt act).Proper := fun w => by
  have leads := proper w
  rw [Act.on_attempt]
  rcases outcome : act.on w with ⟨(_ | _) | _, _⟩ <;> rw [outcome] at leads <;> exact leads

def Trait.proper : Trait where
  Has := Act.Proper
  still still w := (still w).hushed.leads
  bind first rest w := World.leads_bind (first w) rest
  holding _ act _ := World.leads_holding (act _)
  attempt := .attempt
  settle := World.leads_sweep

namespace Act.Proper

variable {α : Type} {w : World}

theorem log (entry : LogEntry) : (Act.log entry).Proper := fun _ =>
  World.Inert.leads ⟨.refl _, rfl, rfl, rfl⟩

theorem changeBus {change : Bus → Bus} (registry : ∀ b, (change b).registry = b.registry)
    (listeners : ∀ b, (change b).listeners = b.listeners)
    (nextId : ∀ b, b.nextId ≤ (change b).nextId) : (Act.changeBus change).Proper :=
  fun w => World.leads_of_bus (registry w.bus) (listeners w.bus) (nextId w.bus)

theorem setField (r : Ref) (key : String) (v : Value) :
    (Act.changeHeap (·.setField r key v)).Proper := by
  intro w
  cases found : w.heap.record? r with
  | none =>
    have same : w.heap.setField r key v = w.heap := by simp [Heap.setField, found]
    rw [Act.on_changeHeap, same]
    exact .refl w
  | some c =>
    have here := Heap.record?_eq_some.mp found
    rw [Act.on_changeHeap, Heap.setField_eq_put here]
    refine World.leads_of_registry (Heap.sheds_put here (.inl rfl) (by simp [Cell.Reports]))
      (fun l _ => ?_) rfl rfl (Nat.le_refl _) rfl
    rw [Heap.subscriptions_put]
    split
    · next at_ => rw [← at_.1, Heap.subscriptions_of_cell? here]; rfl
    · rfl

theorem setItems (r : Ref) (items : List Value) :
    (Act.changeHeap (·.setItems r items)).Proper := by
  intro w
  cases found : w.heap.collection? r with
  | none =>
    have same : w.heap.setItems r items = w.heap := by simp [Heap.setItems, found]
    rw [Act.on_changeHeap, same]
    exact .refl w
  | some c =>
    have here := Heap.collection?_eq_some.mp found
    rw [Act.on_changeHeap, Heap.setItems_eq_put here]
    refine World.leads_of_registry (Heap.sheds_put here (.inl rfl) ?_) (fun l _ => ?_) rfl rfl
      (Nat.le_refl _) rfl
    · rintro ⟨_, ⟨⟩, sink⟩
      exact ⟨_, rfl, sink⟩
    · rw [Heap.subscriptions_put]
      split
      · next at_ => rw [← at_.1, Heap.subscriptions_of_cell? here]; rfl
      · rfl

/-- What a collection retained is undone when it is given something else to keep. -/
theorem keep (r : Ref) (values : List Value) : (r.retain { values }).Proper := by
  intro w
  cases found : w.heap.collection? r with
  | none =>
    have same : w.heap.setRetained r { values } = w.heap := by simp [Heap.setRetained, found]
    simp only [Ref.retain, Act.on_modify, found, same]
    exact .refl w
  | some c =>
    have here := Heap.collection?_eq_some.mp found
    have retained : c.retained.subscriptions = w.heap.subscriptions r.loc :=
      (Heap.subscriptions_of_cell? here).symm
    simp only [Ref.retain, Act.on_modify, Heap.setRetained, found, Option.map_some,
      Option.getD_some, retained]
    refine World.leads_of_undone (Heap.sheds_put here (.inr rfl) ?_) ?_ fun l _ other => ?_
    · rintro ⟨_, ⟨⟩, sink⟩
      exact ⟨_, rfl, sink⟩
    · rw [Heap.subscriptions_put, if_pos ⟨rfl, Heap.lt_size_of_cell? here⟩]
      rfl
    · rw [Heap.subscriptions_put, if_neg fun at_ => other at_.1.symm]

/-- A query is attached to a new collection, which nobody knows yet. -/
theorem attach (source : Ref) (d : Definition) (params : List Value) {first : Ref → Act Unit}
    (proper : ∀ r, (first r).Proper) : Act.Proper (do
      let result ← Act.newCollection []
      Act.holding (.collection result :: .collection source :: params) do
        Act.attach result source d params
        first result
      return result) := by
  intro w enrolled
  have created : (Act.newCollection []).on w = (.ok w.nextRef, w.withCell (.collection w.empty)) :=
    rfl
  rw [Act.on_bind_ok created]
  have bare := World.bare_withCell enrolled
  refine (World.leads_withCell w rfl).trans (World.leads_bind (World.leads_holding
    (World.leads_bind (World.leads_attach (bare.holding _) source d params) fun _ => proper _))
    fun _ => Trait.Has.ret (T := .proper) _) enrolled

theorem arrive (e : Event) : (Act.changeBus fun b =>
    if e.new.strictEq e.old || !b.registry.hasListeners e.target e.key then b
    else { b with queue := b.queue.enqueue e }).Proper := by
  refine changeBus (fun b => ?_) (fun b => ?_) fun b => ?_
  · split <;> rfl
  · split <;> rfl
  · split <;> exact Nat.le_refl _

theorem enqueue (e : Event) : (Act.enqueue e).Proper :=
  Trait.proper.bind Trait.proper.settle fun _ => arrive e

theorem enqueueAll (es : List Event) : (Act.enqueueAll es).Proper := by
  induction es with
  | nil => exact Trait.Has.ret (T := .proper) ()
  | cons e es ih => exact Trait.proper.bind (Trait.proper.holding _ (enqueue e)) fun _ => ih

theorem publishAll {dispatch : Act Unit} (proper : dispatch.Proper) (es : List Event) :
    (Act.publishAll dispatch es).Proper := Trait.proper.bind (enqueueAll es) fun _ => proper

theorem flag (dispatching : Bool) :
    (Act.changeBus fun b => { b with dispatching }).Proper :=
  changeBus (fun _ => rfl) (fun _ => rfl) fun _ => Nat.le_refl _

theorem batch {dispatch : Act Unit} {body : Act α} (proper : dispatch.Proper)
    (inner : body.Proper) : (Act.batch dispatch body).Proper := by
  refine Trait.proper.bind (Trait.Has.world (T := .proper)) fun w => ?_
  split
  · exact inner
  · exact Trait.proper.bind (flag true) fun _ => Trait.proper.bind inner.attempt fun result =>
      Trait.proper.bind (flag false) fun _ => Trait.proper.bind proper fun _ =>
        Trait.Has.ofExcept (T := .proper) result

/-- A session registers listeners of its own and keeps their numbers. -/
theorem listen (handle collection : String) (key : EventKey) (actions : List Command) :
    (Act.listen handle collection key actions).Proper := by
  have registers : ∀ (members : Option Ref) (topic : Topic), Act.Proper (do
      let l ← addListener (.script handle members actions)
      let _ ← Act.subscribe ⟨topic, l⟩
      changeDesk fun d => { d with handles := FieldMap.insert handle ⟨topic, l⟩ d.handles }
      return Reply.text key.text) := fun members topic w => by
    have free := World.free_script w handle members actions
    refine (World.leads_script w handle members actions).trans
      ((World.leads_subscribe free topic).trans (World.leads_desk fun n member => ?_))
    rcases Desk.mem_numbers_handle member with old | rfl
    · exact .inl old
    · exact .inr free
  refine Trait.proper.bind (has_named (T := .proper) collection) fun v => ?_
  split
  · exact registers _ _
  · exact Trait.Has.ret (T := .proper) _

theorem unlisten (again : Reentry) (handle : String) :
    ((Command.unlisten handle).perform again).Proper := by
  intro w enrolled
  rw [Command.perform, on_bind_ok (on_get w)]
  split
  · next h found =>
    have free := enrolled.desk h.listener
      (Desk.mem_numbers.mpr (.inl ⟨_, FieldMap.mem_of_get? found, rfl⟩))
    exact World.leads_unsubscribe free h.topic enrolled
  · exact World.Leads.refl w enrolled

theorem listenerNamed (name : String) (actions : List Command) (w : World) :
    ∃ l v, (Act.listenerNamed name actions).on w = (.ok l, v) ∧ w.Leads v ∧
      (w.Enrolled → v.bus.Free l) := by
  unfold Act.listenerNamed
  rw [on_bind_ok (on_get w)]
  split
  · next l found =>
    exact ⟨l, w, rfl, .refl w, fun enrolled => enrolled.desk l
      (Desk.mem_numbers.mpr (.inr ⟨_, FieldMap.mem_of_get? found, rfl⟩))⟩
  · have free := World.free_script w name none actions
    refine ⟨_, _, rfl, (World.leads_script w name none actions).trans
      (World.leads_desk fun n member => ?_), fun _ => free⟩
    rcases Desk.mem_numbers_listener member with old | rfl
    · exact .inl old
    · exact .inr free

/-- Registering and undoing under a name is a matter of the session's own listeners. -/
theorem ofListener (name : String) (actions : List Command) {rest : Nat → Act α}
    (leads : ∀ l (w : World), w.bus.Free l → w.Leads ((rest l).on w).2) :
    (Act.listenerNamed name actions >>= rest).Proper := by
  intro w enrolled
  obtain ⟨l, v, gives, goes, free⟩ := listenerNamed name actions w
  rw [on_bind_ok gives]
  exact goes.trans (leads l v (free enrolled)) enrolled

theorem targetId?_on (target : Target) (w : World) :
    ∃ id, (Act.targetId? target).on w = (.ok id, w) := by
  cases target <;> exact ⟨_, rfl⟩

theorem subscribe (again : Reentry) (listener : String) (target : Target) (key : Option EventKey)
    (actions : List Command) :
    ((Command.subscribe listener target key actions).perform again).Proper := by
  rw [Command.perform]
  refine ofListener listener actions fun l w free => ?_
  obtain ⟨id, named⟩ := targetId?_on target w
  rw [on_bind_ok named]
  exact World.leads_subscribe free _

theorem unsubscribe (again : Reentry) (listener : String) (target : Target)
    (key : Option EventKey) :
    ((Command.unsubscribe listener target key).perform again).Proper := by
  rw [Command.perform]
  refine ofListener listener [] fun l w free => ?_
  obtain ⟨id, named⟩ := targetId?_on target w
  rw [on_bind_ok named]
  exact World.leads_unsubscribe free _

end Act.Proper

/-- Whatever an engine does by itself is proper, with any commands and jobs. -/
def Conduct.proper : Conduct where
  toTrait := .proper
  inert inert w := (inert w).leads
  scope := .any
  dispatches := Act.Proper
  nextId _ := World.leads_of_bus rfl rfl (Nat.le_succ _)
  setField := .setField
  setItems := .setItems
  keep := .keep
  attach source d params _ first := .attach source d params first
  tells _ := True
  tells_field _ _ _ _ := trivial
  tells_change _ _ _ _ _ := trivial
  tells_publish _ _ := trivial
  tells_publishAll _ _ := trivial
  publishAll proper events _ := .publishAll proper events
  batch proper inner := .batch proper inner
  reschedule _ _ _ := World.leads_of_bus rfl rfl (Nat.le_refl _)
  listen _ handle collection key := .listen handle collection key _
  unlisten := .unlisten
  subscribe _ again listener target key := .subscribe again listener target key _
  unsubscribe := .unsubscribe

theorem Act.Proper.delivers : Conduct.proper.Delivers where
  scheduler := trivial
  all _ := trivial
  heard _ _ := Act.Proper.log _
  flag := Act.Proper.flag
  taken := Act.Proper.changeBus (fun _ => rfl) (fun _ => rfl) fun _ => Nat.le_refl _
  emptied := Act.Proper.changeBus (fun _ => rfl) (fun _ => rfl) fun _ => Nat.le_refl _

/-- What an engine starts again inside itself, as proper activities. -/
def Reentry.Proper (again : Reentry) : Prop := Conduct.proper.Allows again

/-- What activities under way hold on to is of no concern. -/
theorem Act.Proper.hold (held : List Value) : (modify fun w => { w with held } : Act Unit).Proper :=
  fun _ => World.Inert.leads ⟨.refl _, rfl, rfl, rfl⟩

namespace Act.Proper

variable {again : Reentry} (proper : again.Proper)
include proper

theorem tell (e : Event) (ls : List Listener) : (Act.tell again.perform e ls).Proper :=
  has_tell (S := .any) proper.perform (has_setScheduler (C := .proper) trivial)
    (fun _ _ => Proper.log _) e fun l _ => Scope.hears_any l

theorem deliver (es : List Event) : (Act.deliver again.perform es).Proper :=
  has_deliver (C := .proper) proper delivers es

theorem run (job : Job) : (job.run again.call again.dispatch again.perform).Proper :=
  has_run (C := .proper) proper (Scope.admits_any job)

theorem flush : (Act.flush again.call again.dispatch again.perform).Proper :=
  has_flush (C := .proper) proper trivial fun _ => trivial

theorem cycles (count : Nat) :
    (Act.cycles again.call again.dispatch again.perform count).Proper :=
  has_cycles (C := .proper) proper delivers count

theorem dispatchIfIdle :
    (Act.dispatchIfIdle again.call again.dispatch again.perform).Proper :=
  has_dispatchIfIdle (C := .proper) proper delivers

end Act.Proper

end ReactiveQuery
