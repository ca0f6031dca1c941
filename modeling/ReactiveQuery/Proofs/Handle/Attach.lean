import ReactiveQuery.Proofs.Handle.Commands
import ReactiveQuery.Proofs.Live.Rounds

/-! Registering.  Whoever attaches a live query or subscribes makes listeners, but no handles; and
who does neither leaves all listeners and registrations, but for those of live queries whose results
are let go of. -/

namespace ReactiveQuery

variable {K : Command → Prop} {P : Nat → Prop} {n : Nat}

/-- Any way to go on. -/
def Manner.any (K : Command → Prop) : Manner where
  commands := K
  Goes _ _ := True
  refl _ := trivial
  trans _ _ := trivial
  step _ _ _ := trivial
  sweep _ := trivial

/-- No listeners are made, and registrations are undone of live queries only. -/
structure World.Thins (w v : World) : Prop where
  listeners : v.bus.listeners = w.bus.listeners
  on : ∀ t, (v.bus.registry.on t).Sublist (w.bus.registry.on t)
  scripts : ∀ t, ∀ n ∈ w.bus.registry.on t, w.bus.place? n = none → n ∈ v.bus.registry.on t

namespace World.Thins

variable {u v w : World}

theorem of_registry (registry : v.bus.registry = w.bus.registry)
    (listeners : v.bus.listeners = w.bus.listeners) : w.Thins v :=
  ⟨listeners, fun t => by rw [registry], fun t n here _ => by rwa [registry]⟩

theorem trans (first : u.Thins v) (second : v.Thins w) : u.Thins w where
  listeners := second.listeners.trans first.listeners
  on t := (second.on t).trans (first.on t)
  scripts t n here none := second.scripts t n (first.scripts t n here none)
    (by rwa [place?_congr first.listeners])

theorem sweep (enrolled : w.Enrolled) : w.Thins w.sweep where
  listeners := by rw [same_sweep]
  on t := by
    rw [enrolled.on_sweep]
    exact List.filter_sublist
  scripts t n here none := by
    rw [enrolled.on_sweep]
    exact List.mem_filter.mpr ⟨here, by simp [none]⟩

end World.Thins

/-- A way to go on in which order is kept and nobody registers or undoes anything, except that the
registrations of live queries go with their results. -/
def Manner.still (K : Command → Prop) : Manner where
  commands := K
  Goes w v := w.Enrolled → (v.Enrolled ∧ w.Later v) ∧ w.Thins v
  refl w enrolled := ⟨⟨enrolled, .refl w⟩, .of_registry rfl rfl⟩
  trans first second enrolled := by
    obtain ⟨⟨between, later⟩, thins⟩ := first enrolled
    obtain ⟨⟨after, later'⟩, thins'⟩ := second between
    exact ⟨⟨after, later.trans later'⟩, thins.trans thins'⟩
  step leads registry listeners enrolled := ⟨leads enrolled, .of_registry registry listeners⟩
  sweep w enrolled := ⟨World.leads_sweep w enrolled, .sweep enrolled⟩

namespace Act.Discreet

variable {α : Type} {Q : Nat → α → Prop}

/-- Listeners and registrations may change in any way that keeps to what is known. -/
theorem onBusAny {change : Bus → α × Bus} (step : ∀ b : Bus, b.Within K P n →
    (change b).2.Within K P n ∧ Q n (change b).1) :
    Discreet (.any K) P n (Act.onBus change) Q := by
  rintro w rfl knows
  obtain ⟨after, given⟩ := step w.bus knows.bus
  rw [on_onBus]
  refine ⟨⟨Nat.le_refl _, knows.withBus after, trivial⟩, fun a same => ?_⟩
  rw [← Except.ok.inj same]
  exact given

theorem addListener {l : Listener} (hears : (Scope.clean K).Hears l) (known : Known P n l.places) :
    Discreet (.any K) P n (Act.addListener l) fun _ _ => True :=
  onBusAny fun b knows => ⟨⟨fun l' member => by
    rcases Array.mem_push.mp member with old | rfl
    · exact knows.listeners l' old
    · exact ⟨hears, known⟩, knows.events, knows.jobs⟩, trivial⟩

theorem subscribe (s : Subscription) : Discreet (.any K) P n (Act.subscribe s) fun _ _ => True :=
  onBusAny fun _ knows => ⟨⟨knows.listeners, knows.events, knows.jobs⟩, trivial⟩

theorem subscribeAll (listener : Dependency → Nat) (ds : List Dependency) :
    Discreet (.any K) P n (Act.subscribeAll listener ds) fun _ _ => True := by
  induction ds generalizing n with
  | nil => exact ret trivial
  | cons d ds ih =>
    exact (subscribe _).seq fun _ _ _ => ite (ih.seq fun _ _ _ => ret trivial) ih

theorem retain (r : Ref) {retained : Retained}
    (known : Known P n (Value.placesOfItems retained.values)) :
    Discreet (.any K) P n (r.retain retained) fun _ _ => True := by
  rintro w rfl knows
  have size : (w.heap.setRetained r retained).cells.size = w.heap.cells.size := by
    unfold Heap.setRetained
    split
    · exact Heap.size_put _ _
    · rfl
  have after := knows.withHeap (Nat.le_of_eq size.symm) (knows.heap.setRetained r known)
  exact ⟨⟨Nat.le_of_eq size.symm, after.withBus
    ⟨after.bus.listeners, after.bus.events, after.bus.jobs⟩, trivial⟩, fun _ _ => trivial⟩

/-- Attaching a live query lets listeners lead to its source, its arguments and its literals; the
result may stay unknown. -/
theorem attach (result : Ref) {source : Ref} {d : Definition} {params : List Value}
    (known : Known P n d.places) (ctx : Known P n (Context.mk source params).places) :
    Discreet (.any K) P n (Act.attach result source d params) fun _ _ => True := by
  obtain ⟨here, arguments⟩ := Known.cons_iff.mp ctx
  have job : Known P n (Job.refresh result source d params).places :=
    Known.cons_iff.mpr ⟨here, Known.append_iff.mpr ⟨arguments, known⟩⟩
  have values : Known P n (Value.placesOfItems (Job.refresh result source d params).values) := ctx
  have listens : ∀ (m : Nat) (route : Route), n ≤ m → Discreet (.any K) P m
      (Act.addListener (.invalidate result.id route (.refresh result source d params)))
        fun _ _ => True := fun m route more => addListener trivial (job.later more)
  refine (ask (Q := fun _ _ => True) fun _ _ _ _ _ => trivial).seq fun m _ more => ?_
  refine (listens m _ more).seq fun m' _ more' => ?_
  refine (listens m' _ (Nat.le_trans more more')).seq fun k _ further => ?_
  have all := Nat.le_trans more (Nat.le_trans more' further)
  refine (listens k _ all).seq fun k' _ further' => (subscribeAll _ _).seq fun k'' _ last => ?_
  exact retain result (values.later (Nat.le_trans all (Nat.le_trans further' last)))

/-- A live query is given to whoever asks for it, and to nobody else. -/
theorem live {again : Reentry} (discreet : again.Discreet (.any K)) {source : Ref} (text : String)
    {params : List Value} (ctx : Known P n (Context.mk source params).places) :
    Discreet (.any K) P n (Act.live again.call again.dispatch source text params)
      fun m r => r.loc < m ∧ P r.loc := by
  refine (definition text).bind fun m d more known => (newCollection .nil).bind
    fun k result further here => ?_
  have ctx' := ctx.later (Nat.le_trans more further)
  have body := (attach (K := K) result (known.later further) ctx').seq fun i _ last =>
    batch (discreet.dispatch P) (fun j most =>
      refresh (discreet.call P) (discreet.dispatch P) result
        (known.later (Nat.le_trans further (Nat.le_trans last most)))
        (ctx'.later (Nat.le_trans last most))) fun _ _ _ _ => id
  exact (body.holding _).seq fun _ _ last =>
    ret (here.imp_left (Nat.lt_of_lt_of_le · last))

theorem listenerNamed (name : String) {actions : List Command} (allowed : ∀ c ∈ actions, K c) :
    Discreet (.any K) P n (Act.listenerNamed name actions) fun _ _ => True := by
  have keeps : ∀ m l, Discreet (.any K) P m (Act.changeDesk fun d =>
      { d with listeners := FieldMap.insert name l d.listeners }) fun _ _ => True :=
    fun _ _ _ _ knows => ⟨⟨Nat.le_refl _, ⟨knows.heap, knows.bus, knows.names, knows.weak,
      knows.cache⟩, trivial⟩, fun _ _ => trivial⟩
  refine world fun w _ _ => ?_
  split
  · exact ret trivial
  · exact (addListener (l := .script name none actions) allowed .nil).seq fun _ l _ =>
      (keeps _ l).seq fun _ _ _ => ret trivial

end Act.Discreet

/-- A callback that keeps to what is allowed may be registered. -/
theorem Command.discreet_subscribe (again : Reentry) (listener : String) (target : Target)
    (key : Option EventKey) {actions : List Command} (allowed : ∀ c ∈ actions, K c) :
    Act.Discreet (.any K) P n ((Command.subscribe listener target key actions).perform again)
      fun _ _ => True := by
  rw [Command.perform]
  exact (Act.Discreet.listenerNamed listener allowed).seq fun _ _ _ =>
    (Act.Discreet.targetId? target).seq fun _ _ _ => (Act.Discreet.subscribe _).seq fun _ _ _ =>
      Act.Discreet.ret trivial

end ReactiveQuery
