import ReactiveQuery.Proofs.Activity
import ReactiveQuery.Proofs.Heap
import ReactiveQuery.Session.Start

/-! Traits of activities.  What is made of activities of a trait is of that trait, so to know it of a
command it is enough to know it of the few activities that touch the bus or write a cell. -/

namespace ReactiveQuery

/-- Does the entry tell that a listener was called? -/
def LogEntry.isHeard : LogEntry → Bool
  | .heard .. => true
  | _ => false

/-- The calls of listeners, the last one first. -/
def World.heard (w : World) : List LogEntry := w.log.filter LogEntry.isHeard

/-- A world in which cells may have been added, and nothing written, queued or registered. -/
structure World.Inert (w v : World) : Prop where
  heap : w.heap.Extends v.heap
  bus : v.bus = w.bus
  handles : v.desk.handles = w.desk.handles
  listeners : v.desk.listeners = w.desk.listeners

/-- An inert step in which no listener was called. -/
structure World.Hushed (w v : World) : Prop extends w.Inert v where
  heard : v.heard = w.heard

/-- A step in which cells may have been added, patterns read and calls counted, and nothing else has
changed but the log. -/
structure World.Still (w v : World) : Prop where
  heap : w.heap.Extends v.heap
  bus : v.bus = w.bus
  desk : v.desk = w.desk
  held : v.held = w.held
  queries : v.queries = w.queries
  extensions : v.extensions = w.extensions
  cache : v.cache = w.cache
  heard : v.heard = w.heard

theorem World.Still.refl (w : World) : w.Still w := ⟨.refl _, rfl, rfl, rfl, rfl, rfl, rfl, rfl⟩

theorem World.Still.hushed {w v : World} (still : w.Still v) : w.Hushed v :=
  ⟨⟨still.heap, still.bus, by rw [still.desk], by rw [still.desk]⟩, still.heard⟩

/-- A trait of activities: every still one has it, a sweep has it, and so has a sequence of those
that have it. -/
structure Trait where
  Has {α : Type} : Act α → Prop
  still {α : Type} {act : Act α} : (∀ w : World, w.Still (act.on w).2) → Has act
  bind {α β : Type} {x : Act α} {f : α → Act β} : Has x → (∀ a, Has (f a)) → Has (x >>= f)
  holding {α : Type} {x : Act α} (values : List Value) : Has x → Has (Act.holding values x)
  attempt {α : Type} {x : Act α} : Has x → Has (Act.attempt x)
  settle : Has Act.settle

namespace Trait.Has

variable {T : Trait} {α β : Type}

theorem bind {x : Act α} {f : α → Act β} (first : T.Has x) (rest : ∀ a, T.Has (f a)) :
    T.Has (x >>= f) := T.bind first rest

theorem holding {values : List Value} {x : Act α} (has : T.Has x) :
    T.Has (Act.holding values x) := T.holding values has

theorem attempt {x : Act α} (has : T.Has x) : T.Has (Act.attempt x) := T.attempt has

theorem settle : T.Has Act.settle := T.settle

theorem ret (a : α) : T.Has (pure a : Act α) := T.still .refl

theorem fault (e : Fault) : T.Has (throw e : Act α) := T.still .refl

theorem raise (e : Error) : T.Has (Act.raise e : Act α) := T.still .refl

theorem world : T.Has (get : Act World) := T.still .refl

theorem modify {f : World → World} (still : ∀ w : World, w.Still (f w)) :
    T.Has (modify f : Act Unit) := T.still still

theorem modifyGet {f : World → α × World} (still : ∀ w : World, w.Still (f w).2) :
    T.Has (modifyGet f : Act α) := T.still still

theorem onHeap {change : Heap → α × Heap} (grows : ∀ h : Heap, h.Extends (change h).2) :
    T.Has (Act.onHeap change) := T.still fun w => ⟨grows w.heap, rfl, rfl, rfl, rfl, rfl, rfl, rfl⟩

theorem log (entry : LogEntry) (silent : entry.isHeard = false) :
    T.Has (Act.log entry) :=
  T.still fun _ =>
    ⟨.refl _, rfl, rfl, rfl, rfl, rfl, rfl, List.filter_cons_of_neg (by simp [silent])⟩

theorem compile (c : CompileScope → Compile α) : T.Has (Act.compile c) :=
  T.still fun _ => ⟨.refl _, rfl, rfl, rfl, rfl, rfl, rfl, rfl⟩

theorem ofOption (o : Option α) : T.Has (Act.ofOption o) := by
  cases o with
  | none => exact fault _
  | some a => exact ret a

theorem ofExcept (r : Except Error α) : T.Has (Act.ofExcept r) := by
  cases r with
  | error e => exact raise e
  | ok a => exact ret a

theorem ask (question : Heap → Option α) : T.Has (Act.ask question) :=
  bind world fun _ => ofOption _

theorem ite {c : Prop} [Decidable c] {x y : Act α} (yes : T.Has x) (no : T.Has y) :
    T.Has (if c then x else y) := by
  split
  · exact yes
  · exact no

theorem mapM {f : α → Act β} (each : ∀ a, T.Has (f a)) (as : List α) : T.Has (as.mapM f) := by
  induction as with
  | nil => exact ret []
  | cons a as ih =>
    rw [List.mapM_cons]
    exact bind (each a) fun _ => bind ih fun _ => ret _

theorem forM {f : α → Act Unit} (each : ∀ a, T.Has (f a)) (as : List α) : T.Has (as.forM f) := by
  induction as with
  | nil => exact ret ()
  | cons a as ih => exact bind (each a) fun _ => ih

end Trait.Has

/-- What a program may do besides publishing: the commands that callbacks and jobs may hold, and
whether it may touch the scheduler. -/
structure Scope where
  commands : Command → Prop
  scheduler : Prop

/-- All commands are allowed, and so are changes of the scheduler. -/
def Scope.any : Scope := ⟨fun _ => True, True⟩

namespace Scope

variable (S : Scope)

/-- A job whose commands are allowed. -/
def Admits : Job → Prop
  | .script _ commands => ∀ c ∈ commands, S.commands c
  | .refresh .. => True

/-- A listener whose commands are allowed. -/
def Hears : Listener → Prop
  | .script _ _ actions => ∀ c ∈ actions, S.commands c
  | .invalidate _ _ job => S.Admits job

/-- A scope with every command also has those that it is made of and those that it leaves to
callbacks and jobs.  Who may touch the scheduler may leave it any command. -/
structure Closed (S : Scope) : Prop where
  bind : ∀ {name c}, S.commands (.bind name c) → S.commands c
  batch : ∀ {cs}, S.commands (.batch cs) → ∀ c ∈ cs, S.commands c
  listen : ∀ {handle r key actions}, S.commands (.listen handle r key actions) →
    ∀ c ∈ actions, S.commands c
  subscribe : ∀ {l target key actions}, S.commands (.subscribe l target key actions) →
    ∀ c ∈ actions, S.commands c
  mark : ∀ {id name job}, S.commands (.mark id name job) → S.scheduler
  flush : S.commands .flush → S.scheduler
  clear : S.commands .clear → S.scheduler
  all : S.scheduler → ∀ c, S.commands c

theorem closed_any : any.Closed := by
  constructor <;> intros <;> trivial

theorem admits_any (job : Job) : any.Admits job := by
  cases job with
  | script => exact fun _ _ => trivial
  | refresh => trivial

theorem hears_any (l : Listener) : any.Hears l := by
  cases l with
  | script => exact fun _ _ => trivial
  | invalidate id route job => exact admits_any job

end Scope

/-- A trait of all that an engine does by itself, within a scope and with some ways to dispatch. -/
structure Conduct extends Trait where
  inert {α : Type} {act : Act α} : (∀ w : World, w.Hushed (act.on w).2) → Has act
  scope : Scope
  dispatches : Act Unit → Prop
  nextId : Has Act.nextId
  setField (r : Ref) (key : String) (v : Value) : Has (Act.changeHeap (·.setField r key v))
  setItems (r : Ref) (items : List Value) : Has (Act.changeHeap (·.setItems r items))
  keep (r : Ref) (values : List Value) : Has (r.retain { values })
  /-- A query is attached to a new collection that nobody else knows. -/
  attach (source : Ref) (d : Definition) (params : List Value) {first : Ref → Act Unit} :
    (∀ r, Has (first r)) → Has (do
      let result ← Act.newCollection []
      Act.holding (.collection result :: .collection source :: params) do
        Act.attach result source d params
        first result
      return result)
  /-- The events that may be published: those that report changes, and any where commands make
  them up. -/
  tells : Event → Prop
  tells_field : ∀ id key new old, tells ⟨id, .field key, new, old⟩
  tells_change : ∀ id old new, ∀ e ∈ changeEvents id old new, tells e
  tells_publish : ∀ {draft}, scope.commands (.publish draft) → ∀ e, tells e
  tells_publishAll : ∀ {drafts}, scope.commands (.publishAll drafts) → ∀ e, tells e
  publishAll {dispatch : Act Unit} : dispatches dispatch →
    ∀ events, (∀ e ∈ events, tells e) → Has (Act.publishAll dispatch events)
  batch {α : Type} {dispatch : Act Unit} {body : Act α} : dispatches dispatch → Has body →
    Has (Act.batch dispatch body)
  reschedule {α : Type} : scope.scheduler → ∀ change : Bus → α × Scheduler Job,
    Has (Act.onBus fun b => ((change b).1, { b with scheduler := (change b).2 }))
  listen {actions : List Command} : (∀ c ∈ actions, scope.commands c) →
    ∀ handle collection key, Has (Act.listen handle collection key actions)
  unlisten (again : Reentry) (handle : String) : Has ((Command.unlisten handle).perform again)
  subscribe {actions : List Command} : (∀ c ∈ actions, scope.commands c) →
    ∀ again listener target key,
      Has ((Command.subscribe listener target key actions).perform again)
  unsubscribe (again : Reentry) (listener : String) (target : Target) (key : Option EventKey) :
    Has ((Command.unsubscribe listener target key).perform again)

/-- What an engine starts again inside itself, of some conduct. -/
structure Conduct.Allows (C : Conduct) (again : Reentry) : Prop where
  call : ∀ e ctx args, C.Has (again.call e ctx args)
  dispatch : C.dispatches again.dispatch
  perform : ∀ c, C.scope.commands c → C.Has (again.perform c)

end ReactiveQuery
