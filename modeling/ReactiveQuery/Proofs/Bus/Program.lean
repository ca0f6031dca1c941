import ReactiveQuery.Proofs.Bus.Commands

/-! Programs: what callbacks, jobs and extension functions do to a bus.  A program is made of
activities that leave the waiting events alone, of publications and of batches; between them it may
compute whatever it likes. -/

namespace ReactiveQuery

namespace World

/-- Letting go of what nothing holds undoes registrations. -/
theorem bus_foldl_release (locs : List Nat) (w : World) :
    ∃ r, (locs.foldl release w).bus = { w.bus with registry := r } := by
  induction locs generalizing w with
  | nil => exact ⟨_, rfl⟩
  | cons loc locs ih => exact ih (w.release loc)

theorem bus_sweepWithin (rounds : Nat) (w : World) :
    ∃ r, (sweepWithin rounds w).bus = { w.bus with registry := r } := by
  induction rounds generalizing w with
  | zero => exact ⟨_, rfl⟩
  | succ rounds ih =>
    unfold sweepWithin
    split
    · exact ⟨_, rfl⟩
    · obtain ⟨r, same⟩ := bus_foldl_release w.unheld w
      obtain ⟨r', same'⟩ := ih (w.unheld.foldl release w)
      exact ⟨r', by rw [same', same]⟩

theorem bus_sweep (w : World) : ∃ r, w.sweep.bus = { w.bus with registry := r } :=
  bus_sweepWithin _ w

end World

namespace Scope

variable (S : Scope)

/-- A bus in which nothing has been queued or dispatched in between. -/
structure Keeps (b c : Bus) : Prop where
  queue : c.queue = b.queue
  dispatching : c.dispatching = b.dispatching
  scheduler : S.scheduler ∨ c.scheduler = b.scheduler
  listeners : ∀ l ∈ c.listeners, l ∈ b.listeners ∨ S.Hears l

namespace Keeps

variable {S} {b c d : Bus}

@[refl]
theorem refl (b : Bus) : S.Keeps b b := ⟨rfl, rfl, .inr rfl, fun _ => .inl⟩

theorem of_registry {r : Registry} : S.Keeps b { b with registry := r } :=
  ⟨rfl, rfl, .inr rfl, fun _ => .inl⟩

theorem trans (first : S.Keeps b c) (second : S.Keeps c d) : S.Keeps b d where
  queue := second.queue.trans first.queue
  dispatching := second.dispatching.trans first.dispatching
  scheduler := first.scheduler.elim .inl fun same => second.scheduler.imp_right (·.trans same)
  listeners l member := (second.listeners l member).elim (first.listeners l) .inr

end Keeps

/-- An activity that neither queues nor dispatches. -/
def Own {α : Type} (act : Act α) : Prop := ∀ w, S.Keeps w.bus (act.on w).2.bus

end Scope

/-- Programs with a scope and with ways to dispatch. -/
inductive Program (S : Scope) (D : Act Unit → Prop) : Type → Type 1 where
  | own {α : Type} (act : Act α) (own : S.Own act) : Program S D α
  | bind {α β : Type} (p : Program S D α) (f : α → Program S D β) : Program S D β
  | attempt {α : Type} (p : Program S D α) : Program S D (Except Error α)
  | holding {α : Type} (values : List Value) (p : Program S D α) : Program S D α
  | publish (dispatch : Act Unit) (may : D dispatch) (events : List Event) : Program S D Unit
  | batch {α : Type} (dispatch : Act Unit) (may : D dispatch) (body : Program S D α) :
    Program S D α

namespace Program

variable {S : Scope} {D : Act Unit → Prop}

/-- What a program does. -/
def act {α : Type} : Program S D α → Act α
  | .own act _ => act
  | .bind p f => p.act >>= fun a => (f a).act
  | .attempt p => Act.attempt p.act
  | .holding values p => Act.holding values p.act
  | .publish dispatch _ events => Act.publishAll dispatch events
  | .batch dispatch _ body => Act.batch dispatch body.act

end Program

/-- An activity is what some program does. -/
def Act.Made (S : Scope) (D : Act Unit → Prop) {α : Type} (act : Act α) : Prop :=
  ∃ p : Program S D α, p.act = act

namespace Scope.Own

variable {S : Scope} {α β : Type}

/-- Whatever leaves the bus as it is. -/
theorem of_bus {act : Act α} (same : ∀ w, (act.on w).2.bus = w.bus) : S.Own act :=
  fun w => by rw [same]

theorem onBus {change : Bus → α × Bus} (keeps : ∀ b, S.Keeps b (change b).2) :
    S.Own (Act.onBus change) := fun w => keeps w.bus

theorem settle : S.Own Act.settle := fun w => by
  obtain ⟨r, same⟩ := World.bus_sweep w
  rw [Act.settle, Act.on_modify, same]
  exact .of_registry

theorem bind {x : Act α} {f : α → Act β} (first : S.Own x) (rest : ∀ a, S.Own (f a)) :
    S.Own (x >>= f) := fun w => by
  have keeps := first w
  rw [Act.on_bind]
  rcases outcome : x.on w with ⟨_ | a, u⟩ <;> rw [outcome] at keeps
  · exact keeps
  · exact keeps.trans (rest a u)

theorem holding {values : List Value} {x : Act α} (own : S.Own x) :
    S.Own (Act.holding values x) := fun w => by
  rw [Act.on_holding]
  exact own { w with held := values ++ w.held }

theorem attempt {x : Act α} (own : S.Own x) : S.Own (Act.attempt x) := fun w => by
  have keeps := own w
  rw [Act.on_attempt]
  rcases outcome : x.on w with ⟨(_ | _) | _, _⟩ <;> rw [outcome] at keeps <;> exact keeps

end Scope.Own

/-- What neither queues nor dispatches, as a trait. -/
def Trait.own (S : Scope) : Trait where
  Has := S.Own
  still same := .of_bus fun w => (same w).bus
  bind := .bind
  holding _ := .holding
  attempt := .attempt
  settle := .settle

namespace Act.Made

variable {S : Scope} {D : Act Unit → Prop} {α β : Type}

theorem own {act : Act α} (own : S.Own act) : Made S D act := ⟨.own act own, rfl⟩

theorem of_bus {act : Act α} (same : ∀ w, (act.on w).2.bus = w.bus) : Made S D act :=
  own (.of_bus same)

theorem log (entry : LogEntry) : Made S D (Act.log entry) := of_bus fun _ => rfl

theorem bind {x : Act α} {f : α → Act β} (first : Made S D x) (rest : ∀ a, Made S D (f a)) :
    Made S D (x >>= f) := by
  obtain ⟨p, rfl⟩ := first
  obtain ⟨g, same⟩ := Classical.axiomOfChoice rest
  exact ⟨.bind p g, congrArg _ (funext same)⟩

theorem attempt {x : Act α} (made : Made S D x) : Made S D (Act.attempt x) := by
  obtain ⟨p, rfl⟩ := made
  exact ⟨.attempt p, rfl⟩

theorem holding {values : List Value} {x : Act α} (made : Made S D x) :
    Made S D (Act.holding values x) := by
  obtain ⟨p, rfl⟩ := made
  exact ⟨.holding values p, rfl⟩

theorem publishAll {dispatch : Act Unit} (may : D dispatch) (events : List Event) :
    Made S D (Act.publishAll dispatch events) := ⟨.publish dispatch may events, rfl⟩

theorem batch {dispatch : Act Unit} {body : Act α} (may : D dispatch) (made : Made S D body) :
    Made S D (Act.batch dispatch body) := by
  obtain ⟨p, rfl⟩ := made
  exact ⟨.batch dispatch may p, rfl⟩

theorem fault (e : Fault) : Made S D (throw e : Act α) := of_bus fun _ => rfl

/-- More ways to dispatch make more programs. -/
theorem mono {D' : Act Unit → Prop} (more : ∀ d, D d → D' d) {act : Act α}
    (made : Made S D act) : Made S D' act := by
  obtain ⟨p, rfl⟩ := made
  induction p with
  | own act own => exact .own own
  | bind p f first rest => exact .bind first rest
  | attempt p ih => exact .attempt ih
  | holding values p ih => exact .holding ih
  | publish dispatch may es => exact .publishAll (more _ may) es
  | batch dispatch may body ih => exact .batch (more _ may) ih

end Act.Made

/-- Extension functions that are programs. -/
def Caller.Made (S : Scope) (D : Act Unit → Prop) (call : Caller) : Prop :=
  ∀ e ctx args, Act.Made S D (call e ctx args)

/-- What an engine starts again inside itself, as programs. -/
structure Reentry.Made (S : Scope) (D : Act Unit → Prop) (again : Reentry) : Prop where
  call : again.call.Made S D
  dispatch : D again.dispatch
  perform : ∀ c, S.commands c → Act.Made S D (again.perform c)

theorem Reentry.Made.mono {S : Scope} {D D' : Act Unit → Prop} (more : ∀ d, D d → D' d)
    {again : Reentry} (made : again.Made S D) : again.Made S D' where
  call e ctx args := (made.call e ctx args).mono more
  dispatch := more _ made.dispatch
  perform c may := (made.perform c may).mono more

section
variable (S : Scope) (D : Act Unit → Prop)

def Trait.made : Trait where
  Has := Act.Made S D
  still same := .of_bus fun w => (same w).bus
  bind := .bind
  holding _ := .holding
  attempt := .attempt
  settle := .own .settle

end

namespace Scope.Own

variable {S : Scope}

theorem nextId : S.Own Act.nextId := onBus fun _ => ⟨rfl, rfl, .inr rfl, fun _ => .inl⟩

theorem addListener {l : Listener} (hears : S.Hears l) : S.Own (Act.addListener l) := by
  refine onBus fun b => ⟨rfl, rfl, .inr rfl, fun k member => ?_⟩
  rcases Array.mem_push.mp member with old | rfl
  · exact .inl old
  · exact .inr hears

theorem subscribe (s : Subscription) : S.Own (Act.subscribe s) := onBus fun _ => .of_registry

theorem unsubscribe (s : Subscription) : S.Own (Act.unsubscribe s) := onBus fun _ => .of_registry

theorem subscribeAll (listener : Dependency → Nat) (ds : List Dependency) :
    S.Own (Act.subscribeAll listener ds) := by
  have none : ∀ ss : List Subscription, S.Own (pure ss : Act _) := fun _ => of_bus fun _ => rfl
  induction ds with
  | nil => exact none []
  | cons d ds ih =>
    refine bind (subscribe _) fun new => ?_
    split
    · exact bind ih fun _ => none _
    · exact ih

theorem retain (r : Ref) (retained : Retained) : S.Own (r.retain retained) :=
  fun _ => .of_registry

theorem attach (result source : Ref) (d : Definition) (params : List Value) :
    S.Own (Act.attach result source d params) :=
  bind (Trait.Has.ask (T := .own S) _) fun _ => bind (addListener trivial) fun _ =>
    bind (addListener trivial) fun _ => bind (addListener trivial) fun _ =>
      bind (subscribeAll _ _) fun _ => retain _ _

theorem newCollection (items : List Value) : S.Own (Act.newCollection items) :=
  bind nextId fun _ => of_bus fun _ => rfl

theorem changeDesk (change : Desk → Desk) : S.Own (Act.changeDesk change) := of_bus fun _ => rfl

theorem listenerNamed (name : String) {actions : List Command}
    (allowed : ∀ c ∈ actions, S.commands c) : S.Own (Act.listenerNamed name actions) := by
  have given : ∀ l : Nat, S.Own (pure l : Act Nat) := fun _ => of_bus fun _ => rfl
  refine bind (Trait.Has.world (T := .own S)) fun w => ?_
  split
  · exact given _
  · exact bind (addListener allowed) fun _ => bind (changeDesk _) fun _ => given _

theorem listen (handle collection : String) (key : EventKey) {actions : List Command}
    (allowed : ∀ c ∈ actions, S.commands c) : S.Own (Act.listen handle collection key actions) := by
  have replies : ∀ reply : Reply, S.Own (pure reply : Act Reply) := fun _ => of_bus fun _ => rfl
  refine bind (Act.has_named (T := .own S) collection) fun v => ?_
  split
  · exact bind (addListener allowed) fun _ => bind (subscribe _) fun _ =>
      bind (changeDesk _) fun _ => replies _
  · exact replies _

theorem unlisten (again : Reentry) (handle : String) :
    S.Own ((Command.unlisten handle).perform again) := by
  rw [Command.perform]
  refine bind (Trait.Has.world (T := .own S)) fun w => ?_
  split
  · exact bind (unsubscribe _) fun _ => of_bus fun _ => rfl
  · exact of_bus fun _ => rfl

theorem register (again : Reentry) (listener : String) (target : Target) (key : Option EventKey)
    {actions : List Command} (allowed : ∀ c ∈ actions, S.commands c) :
    S.Own ((Command.subscribe listener target key actions).perform again) := by
  rw [Command.perform]
  exact bind (listenerNamed listener allowed) fun _ =>
    bind (Act.has_targetId? (T := .own S) target) fun _ =>
      bind (subscribe _) fun _ => of_bus fun _ => rfl

theorem deregister (again : Reentry) (listener : String) (target : Target)
    (key : Option EventKey) : S.Own ((Command.unsubscribe listener target key).perform again) := by
  rw [Command.perform]
  exact bind (listenerNamed listener nofun) fun _ =>
    bind (Act.has_targetId? (T := .own S) target) fun _ =>
      bind (unsubscribe _) fun _ => of_bus fun _ => rfl

theorem reschedule {α : Type} (may : S.scheduler) (change : Bus → α × Scheduler Job) :
    S.Own (Act.onBus fun b => ((change b).1, { b with scheduler := (change b).2 })) :=
  onBus fun _ => ⟨rfl, rfl, .inl may, fun _ => .inl⟩

end Scope.Own

/-- Programs with a scope and with ways to dispatch, as a conduct. -/
def Conduct.made (S : Scope) (D : Act Unit → Prop) : Conduct where
  toTrait := .made S D
  inert same := .of_bus fun w => (same w).bus
  scope := S
  dispatches := D
  nextId := .own .nextId
  setField _ _ _ := .of_bus fun _ => rfl
  setItems _ _ := .of_bus fun _ => rfl
  keep r _ := .own (.retain r _)
  attach source d params _ first :=
    .bind (.own (.newCollection [])) fun r =>
      .bind (.holding (.bind (.own (.attach r source d params)) fun _ => first r)) fun _ =>
        .of_bus fun _ => rfl
  tells _ := True
  tells_field _ _ _ _ := trivial
  tells_change _ _ _ _ _ := trivial
  tells_publish _ _ := trivial
  tells_publishAll _ _ := trivial
  publishAll may events _ := .publishAll may events
  batch may made := .batch may made
  reschedule may change := .own (.reschedule may change)
  listen allowed handle collection key := .own (.listen handle collection key allowed)
  unlisten again handle := .own (.unlisten again handle)
  subscribe allowed again listener target key := .own (.register again listener target key allowed)
  unsubscribe again listener target key := .own (.deregister again listener target key)

/-- Programs that start again what programs are. -/
theorem Reentry.Made.allows {S : Scope} {D : Act Unit → Prop} {again : Reentry}
    (made : again.Made S D) : (Conduct.made S D).Allows again :=
  ⟨made.call, made.dispatch, made.perform⟩

end ReactiveQuery
