import ReactiveQuery.Proofs.Bus.Engine
import ReactiveQuery.Proofs.Live.Release

/-! Handles.  Nobody makes up a handle: the places that an activity knows when it ends were known
before, or came about meanwhile.  So a place that is kept from everybody stays hidden, whatever is
run. -/

namespace ReactiveQuery

/-- Places below a bound that may be known. -/
def Known (P : Nat → Prop) (n : Nat) (ls : List Nat) : Prop := ∀ l ∈ ls, l < n ∧ P l

namespace Known

variable {P : Nat → Prop} {m n l : Nat} {ks ls : List Nat}

theorem later (known : Known P n ls) (more : n ≤ m) : Known P m ls := fun l member =>
  ⟨Nat.lt_of_lt_of_le (known l member).1 more, (known l member).2⟩

theorem of_subset (known : Known P n ls) (fewer : ks ⊆ ls) : Known P n ks :=
  fun l member => known l (fewer member)

@[simp] theorem nil : Known P n [] := fun _ => (absurd · List.not_mem_nil)

@[simp] theorem cons_iff : Known P n (l :: ls) ↔ (l < n ∧ P l) ∧ Known P n ls :=
  List.forall_mem_cons

@[simp] theorem append_iff : Known P n (ks ++ ls) ↔ Known P n ks ∧ Known P n ls :=
  List.forall_mem_append

theorem flatMap_iff {α : Type} {as : List α} {f : α → List Nat} :
    Known P n (as.flatMap f) ↔ ∀ a ∈ as, Known P n (f a) := by
  simp only [Known, List.mem_flatMap, forall_exists_index, and_imp]
  exact ⟨fun all a member l held => all l a member held,
    fun all l a member held => all a member l held⟩

theorem items_iff {vs : List Value} :
    Known P n (Value.placesOfItems vs) ↔ ∀ v ∈ vs, Known P n v.places := by
  rw [← flatMap_iff]
  simp only [Known, Value.mem_placesOfItems, List.mem_flatMap]

theorem fields_iff {fields : FieldMap Value} :
    Known P n (Value.placesOfFields fields) ↔ ∀ e ∈ fields, Known P n e.2.places := by
  rw [← flatMap_iff]
  simp only [Known, Value.mem_placesOfFields, List.mem_flatMap]

end Known

def Event.places (e : Event) : List Nat := e.new.places ++ e.old.places

def Context.places (ctx : Context) : List Nat := ctx.source.loc :: Value.placesOfItems ctx.params

/-- What a job leads to, other than the result that it refreshes. -/
def Job.places : Job → List Nat
  | .script .. => []
  | .refresh _ source d params => source.loc :: (Value.placesOfItems params ++ d.places)

def Listener.places : Listener → List Nat
  | .script .. => []
  | .invalidate _ _ job => job.places

def Reply.places : Reply → List Nat
  | .value v => v.places
  | _ => []

/-- A heap whose cells hold known places only, and whose next places may be known. -/
structure Heap.Within (P : Nat → Prop) (h : Heap) : Prop where
  new : ∀ l, h.cells.size ≤ l → P l
  cells : ∀ l cell, h.cell? l = some cell → Known P h.cells.size cell.places

/-- A bus whose listeners, events and jobs hold known places only and keep to some commands. -/
structure Bus.Within (K : Command → Prop) (P : Nat → Prop) (n : Nat) (b : Bus) : Prop where
  listeners : ∀ l ∈ b.listeners, (Scope.clean K).Hears l ∧ Known P n l.places
  events : ∀ e ∈ b.queue.events, Known P n e.places
  jobs : ∀ e ∈ b.scheduler.marked ++ b.scheduler.running,
    (Scope.clean K).Admits e.2 ∧ Known P n e.2.places

/-- A world in which known places only can be come to.  What activities under way hold on to is
left aside. -/
structure World.Within (K : Command → Prop) (P : Nat → Prop) (w : World) : Prop where
  heap : w.heap.Within P
  bus : w.bus.Within K P w.heap.cells.size
  names : ∀ e ∈ w.desk.names, Known P w.heap.cells.size e.2.places
  weak : ∀ e ∈ w.desk.weak, Known P w.heap.cells.size [e.2.loc]
  cache : ∀ e ∈ w.cache.entries, Known P w.heap.cells.size e.2.places

section
variable {K : Command → Prop} {P : Nat → Prop} {m n : Nat}

theorem Bus.Within.later {b : Bus} (knows : b.Within K P n) (more : n ≤ m) : b.Within K P m where
  listeners l member := ⟨(knows.listeners l member).1, (knows.listeners l member).2.later more⟩
  events e member := (knows.events e member).later more
  jobs e member := ⟨(knows.jobs e member).1, (knows.jobs e member).2.later more⟩

namespace Heap.Within

variable {h : Heap}

theorem items (knows : h.Within P) (r : Ref) :
    Known P h.cells.size (Value.placesOfItems (h.items r)) := Known.items_iff.mpr fun v member => by
  obtain ⟨c, here, member⟩ := exists_of_mem_items member
  refine (knows.cells _ _ here).of_subset fun l held => Cell.mem_places.mpr (.inl ?_)
  exact ⟨v, member, held⟩

theorem fields (knows : h.Within P) (r : Ref) :
    Known P h.cells.size (Value.placesOfFields (h.fields r)) :=
  Known.fields_iff.mpr fun e member => by
    obtain ⟨c, here, member⟩ := exists_of_mem_fields member
    refine (knows.cells _ _ here).of_subset fun l held => Cell.mem_places.mpr (.inl ?_)
    exact ⟨e.2, List.mem_map.mpr ⟨e, member, rfl⟩, held⟩

theorem freshTag (knows : h.Within P) : h.freshTag.2.Within P := ⟨knows.new, knows.cells⟩

theorem allocate (knows : h.Within P) (id : Nat) {cell : Cell}
    (known : Known P h.cells.size cell.places) : (h.allocate id cell).2.Within P := by
  have size : (h.allocate id cell).2.cells.size = h.cells.size + 1 := Array.size_push _
  refine ⟨fun l outside => knows.new l (by omega), fun l cell' here => ?_⟩
  rw [cell?_allocate] at here
  rw [size]
  split at here
  · rw [← Option.some.inj here]
    exact known.later (Nat.le_succ _)
  · exact (knows.cells l cell' here).later (Nat.le_succ _)

theorem put (knows : h.Within P) (loc : Nat) {cell : Cell}
    (known : Known P h.cells.size cell.places) : (h.put loc (some cell)).Within P := by
  refine ⟨fun l outside => knows.new l (by rwa [size_put] at outside), fun l cell' here => ?_⟩
  rw [cell?_put] at here
  rw [size_put]
  split at here
  · rwa [← Option.some.inj here]
  · exact knows.cells l cell' here

/-- A place that has just come about is known. -/
theorem new_place (knows : h.Within P) : h.cells.size < h.cells.size + 1 ∧ P h.cells.size :=
  ⟨Nat.lt_succ_self _, knows.new _ (Nat.le_refl _)⟩

end Heap.Within

namespace World.Within

variable {v w : World}

/-- Only what names, the heap, the bus and the cached queries hold is asked for. -/
theorem of_same (knows : w.Within K P) (heap : v.heap = w.heap) (bus : v.bus = w.bus)
    (desk : v.desk = w.desk) (cache : v.cache.entries = w.cache.entries) : v.Within K P where
  heap := heap ▸ knows.heap
  bus := by rw [heap, bus]; exact knows.bus
  names := by rw [heap, desk]; exact knows.names
  weak := by rw [heap, desk]; exact knows.weak
  cache := by rw [heap, cache]; exact knows.cache

theorem withHeap (knows : w.Within K P) {h : Heap} (more : w.heap.cells.size ≤ h.cells.size)
    (heap : h.Within P) : World.Within K P { w with heap := h } where
  heap := heap
  bus := knows.bus.later more
  names e member := (knows.names e member).later more
  weak e member := (knows.weak e member).later more
  cache e member := (knows.cache e member).later more

theorem withBus (knows : w.Within K P) {b : Bus} (bus : b.Within K P w.heap.cells.size) :
    World.Within K P { w with bus := b } :=
  ⟨knows.heap, bus, knows.names, knows.weak, knows.cache⟩

theorem sweep (knows : w.Within K P) : w.sweep.Within K P := by
  have size := size_sweep w
  have heap : w.sweep.heap.Within P :=
    ⟨fun l outside => knows.heap.new l (size ▸ outside), fun l cell here => by
      rw [size]
      exact knows.heap.cells l cell (cell?_of_sweep here)⟩
  have swept := (knows.withHeap (Nat.le_of_eq size.symm) heap).withBus
    (b := { w.bus with registry := w.sweep.bus.registry })
    (by rw [size]; exact ⟨knows.bus.listeners, knows.bus.events, knows.bus.jobs⟩)
  rw [same_sweep] at swept ⊢
  exact swept

end World.Within

end

/-- How worlds may follow one another, and what callbacks and jobs may be told to do. -/
structure Manner where
  commands : Command → Prop
  Goes : World → World → Prop
  refl (w : World) : Goes w w
  trans {u v w : World} : Goes u v → Goes v w → Goes u w
  step {w v : World} : w.Leads v → v.bus.registry = w.bus.registry →
    v.bus.listeners = w.bus.listeners → Goes w v
  sweep (w : World) : Goes w w.sweep

variable {M : Manner} {P : Nat → Prop}

/-- A world that has gone on to another, in which more places exist and no others are known. -/
structure World.Proceeds (M : Manner) (P : Nat → Prop) (w v : World) : Prop where
  size : w.heap.cells.size ≤ v.heap.cells.size
  knows : v.Within M.commands P
  goes : M.Goes w v

theorem World.Proceeds.trans {u v w : World} (first : u.Proceeds M P v)
    (second : v.Proceeds M P w) : u.Proceeds M P w :=
  ⟨Nat.le_trans first.size second.size, second.knows, M.trans first.goes second.goes⟩

/-- From worlds of a size that know some places only, an activity proceeds, and what it gives is
told of the size that it comes to. -/
def Act.Discreet {α : Type} (M : Manner) (P : Nat → Prop) (n : Nat) (x : Act α)
    (Q : Nat → α → Prop) : Prop :=
  ∀ w : World, w.heap.cells.size = n → w.Within M.commands P →
    w.Proceeds M P (x.on w).2 ∧ ∀ a, (x.on w).1 = .ok a → Q (x.on w).2.heap.cells.size a

namespace Act.Discreet

variable {n : Nat} {α β : Type} {Q : Nat → α → Prop} {R : Nat → β → Prop} {x : Act α}

theorem ret {a : α} (given : Q n a) : Discreet M P n (pure a) Q := fun w size knows =>
  ⟨⟨Nat.le_refl _, knows, M.refl w⟩, fun a' same => by
    rw [← Except.ok.inj same]
    exact size ▸ given⟩

theorem fault (e : Fault) : Discreet M P n (throw e : Act α) Q := fun w _ knows =>
  ⟨⟨Nat.le_refl _, knows, M.refl w⟩, nofun⟩

theorem raise (e : Error) : Discreet M P n (Act.raise e : Act α) Q := fault (.raised e)

theorem bind {f : α → Act β} (first : Discreet M P n x Q)
    (rest : ∀ m a, n ≤ m → Q m a → Discreet M P m (f a) R) : Discreet M P n (x >>= f) R := by
  intro w size knows
  obtain ⟨goes, gives⟩ := first w size knows
  rw [on_bind]
  rcases outcome : x.on w with ⟨_ | a, u⟩ <;> rw [outcome] at goes gives
  · exact ⟨goes, nofun⟩
  · obtain ⟨goes', gives'⟩ := rest _ a (size ▸ goes.size) (gives a rfl) u rfl goes.knows
    exact ⟨goes.trans goes', gives'⟩

theorem mono {Q' : Nat → α → Prop} (discreet : Discreet M P n x Q)
    (weaker : ∀ m a, n ≤ m → Q m a → Q' m a) : Discreet M P n x Q' := fun w size knows =>
  have ⟨goes, gives⟩ := discreet w size knows
  ⟨goes, fun a same => weaker _ a (size ▸ goes.size) (gives a same)⟩

/-- Where something follows, it may be told of what is known already. -/
theorem seq {f : α → Act β} (first : Discreet M P n x Q)
    (rest : ∀ m a, n ≤ m → Discreet M P m (f a) R) : Discreet M P n (x >>= f) R :=
  first.bind fun m a more _ => rest m a more

theorem ite {c : Prop} [Decidable c] {y : Act α} (yes : Discreet M P n x Q)
    (no : Discreet M P n y Q) : Discreet M P n (if c then x else y) Q := by
  split
  · exact yes
  · exact no

theorem holding (values : List Value) (discreet : Discreet M P n x Q) :
    Discreet M P n (Act.holding values x) Q := by
  intro w size knows
  have enter : w.Inert { w with held := values ++ w.held } := ⟨.refl _, rfl, rfl, rfl⟩
  obtain ⟨goes, gives⟩ := discreet { w with held := values ++ w.held } size
    (knows.of_same rfl rfl rfl rfl)
  rw [on_holding]
  refine ⟨⟨goes.size, goes.knows.of_same rfl rfl rfl rfl, ?_⟩, gives⟩
  exact M.trans (M.step enter.leads rfl rfl) (M.trans goes.goes
    (M.step (World.Inert.leads ⟨.refl _, rfl, rfl, rfl⟩) rfl rfl))

theorem attempt (discreet : Discreet M P n x Q) :
    Discreet M P n (Act.attempt x) fun m r => ∀ a, r = .ok a → Q m a := by
  intro w size knows
  obtain ⟨goes, gives⟩ := discreet w size knows
  rw [on_attempt]
  rcases outcome : x.on w with ⟨(_ | _) | a, u⟩ <;> rw [outcome] at goes gives
  · refine ⟨goes, fun r same a ok => ?_⟩
    rw [← Except.ok.inj same] at ok
    cases ok
  · exact ⟨goes, nofun⟩
  · refine ⟨goes, fun r same b ok => gives b ?_⟩
    rw [← Except.ok.inj same, Except.ok.injEq] at ok
    rw [ok]

/-- What is read in the world is known there. -/
theorem world {f : World → Act β}
    (rest : ∀ w : World, w.heap.cells.size = n → w.Within M.commands P →
      Discreet M P n (f w) R) : Discreet M P n (get >>= f) R := by
  intro w size knows
  rw [on_bind_ok (on_get w)]
  exact rest w size knows w size knows

theorem ofOption {o : Option α} (given : ∀ a, o = some a → Q n a) :
    Discreet M P n (Act.ofOption o) Q := by
  cases o with
  | none => exact fault .endless
  | some a => exact ret (given a rfl)

theorem ofExcept {r : Except Error α} (given : ∀ a, r = .ok a → Q n a) :
    Discreet M P n (Act.ofExcept r) Q := by
  cases r with
  | error e => exact raise e
  | ok a => exact ret (given a rfl)

theorem ask {question : Heap → Option α}
    (step : ∀ h : Heap, h.cells.size = n → h.Within P → ∀ a, question h = some a → Q n a) :
    Discreet M P n (Act.ask question) Q :=
  world fun w size knows => ofOption (step w.heap size knows.heap)

theorem mapM {f : α → Act β} {as : List α} (stays : ∀ m k b, m ≤ k → R m b → R k b)
    (each : ∀ a ∈ as, ∀ m, n ≤ m → Discreet M P m (f a) R) :
    Discreet M P n (as.mapM f) fun m bs => ∀ b ∈ bs, R m b := by
  induction as generalizing n with
  | nil => exact ret fun _ => (absurd · List.not_mem_nil)
  | cons a as ih =>
    rw [List.mapM_cons]
    obtain ⟨first, others⟩ := List.forall_mem_cons.mp each
    refine (first n (Nat.le_refl n)).bind fun m b more given => ?_
    refine (ih fun a member k further => others a member k (Nat.le_trans more further)).bind
      fun k bs further rest => ret ?_
    exact List.forall_mem_cons.mpr ⟨stays m k b further given, rest⟩

theorem forM {f : α → Act Unit} {as : List α}
    (each : ∀ a ∈ as, ∀ m, n ≤ m → Discreet M P m (f a) fun _ _ => True) :
    Discreet M P n (as.forM f) fun _ _ => True := by
  induction as generalizing n with
  | nil => exact ret trivial
  | cons a as ih =>
    obtain ⟨first, others⟩ := List.forall_mem_cons.mp each
    exact (first n (Nat.le_refl n)).seq fun m _ more =>
      ih fun a member k further => others a member k (Nat.le_trans more further)

/-- An activity that adds cells at most, and lets the bus be. -/
theorem of_inert (inert : ∀ w : World, w.Inert (x.on w).2)
    (step : ∀ w : World, w.heap.cells.size = n → w.Within M.commands P →
      (x.on w).2.Within M.commands P ∧ ∀ a, (x.on w).1 = .ok a → Q (x.on w).2.heap.cells.size a) :
    Discreet M P n x Q := fun w size knows =>
  have ⟨after, gives⟩ := step w size knows
  ⟨⟨(inert w).heap.size, after, M.step (inert w).leads (by rw [(inert w).bus])
    (by rw [(inert w).bus])⟩, gives⟩

/-- Something is changed that holds no handles. -/
theorem touch {f : World → World} (heap : ∀ w, (f w).heap = w.heap) (bus : ∀ w, (f w).bus = w.bus)
    (desk : ∀ w, (f w).desk = w.desk)
    (cache : ∀ w, (f w).cache.entries = w.cache.entries) :
    Discreet M P n (modify f : Act Unit) fun _ _ => True :=
  of_inert (fun w => by
    rw [on_modify]
    exact ⟨by rw [heap w], bus w, by rw [desk w], by rw [desk w]⟩) fun w _ knows =>
      ⟨knows.of_same (heap w) (bus w) (desk w) (cache w), fun _ _ => trivial⟩

theorem log (entry : LogEntry) : Discreet M P n (Act.log entry) fun _ _ => True :=
  touch (fun _ => rfl) (fun _ => rfl) (fun _ => rfl) fun _ => rfl

/-- Compiling reads patterns at most. -/
theorem compile {c : CompileScope → Compile α}
    (given : ∀ scope p q a, (c scope).run.run p = (.ok a, q) → Q n a) :
    Discreet M P n (Act.compile c) Q :=
  of_inert (fun _ => ⟨.refl _, rfl, rfl, rfl⟩) fun w size knows =>
    ⟨knows.of_same rfl rfl rfl rfl, fun a same => by
      rw [on_compile] at same ⊢
      exact size ▸ given _ _ _ a (Prod.ext same rfl)⟩

theorem onHeap {change : Heap → α × Heap} (grows : ∀ h : Heap, h.Extends (change h).2)
    (step : ∀ h : Heap, h.cells.size = n → h.Within P →
      (change h).2.Within P ∧ Q (change h).2.cells.size (change h).1) :
    Discreet M P n (Act.onHeap change) Q := by
  refine of_inert (fun w => ⟨grows w.heap, rfl, rfl, rfl⟩) fun w size knows => ?_
  obtain ⟨after, given⟩ := step w.heap size knows.heap
  rw [on_onHeap]
  refine ⟨knows.withHeap (grows w.heap).size after, fun a same => ?_⟩
  rw [← Except.ok.inj same]
  exact given

theorem freshTag : Discreet M P n (Act.onHeap Heap.freshTag) fun _ _ => True :=
  onHeap .freshTag fun _ _ knows => ⟨knows.freshTag, trivial⟩

theorem freshArray {items : List Value} (known : Known P n (Value.placesOfItems items)) :
    Discreet M P n (Act.freshArray items) fun m v => Known P m v.places :=
  freshTag.seq fun _ _ more => ret (known.later more)

theorem freshObject {fields : FieldMap Value} (known : Known P n (Value.placesOfFields fields)) :
    Discreet M P n (Act.freshObject fields) fun m v => Known P m v.places :=
  freshTag.seq fun _ _ more => ret (known.later more)

theorem settle : Discreet M P n Act.settle fun _ _ => True := fun w _ knows =>
  ⟨⟨Nat.le_of_eq (World.size_sweep w).symm, knows.sweep, M.sweep w⟩, fun _ _ => trivial⟩

/-- The bus goes on with its listeners and registrations. -/
theorem onBus {change : Bus → α × Bus}
    (registry : ∀ b, (change b).2.registry = b.registry)
    (listeners : ∀ b, (change b).2.listeners = b.listeners)
    (nextId : ∀ b, b.nextId ≤ (change b).2.nextId)
    (step : ∀ b : Bus, b.Within M.commands P n →
      (change b).2.Within M.commands P n ∧ Q n (change b).1) :
    Discreet M P n (Act.onBus change) Q := by
  rintro w rfl knows
  rw [on_onBus]
  obtain ⟨after, given⟩ := step w.bus knows.bus
  refine ⟨⟨Nat.le_refl _, knows.withBus after, ?_⟩, fun a same => ?_⟩
  · exact M.step (World.leads_of_bus (registry _) (listeners _) (nextId _)) (registry _)
      (listeners _)
  · rw [← Except.ok.inj same]
    exact given

theorem changeBus {change : Bus → Bus} (registry : ∀ b, (change b).registry = b.registry)
    (listeners : ∀ b, (change b).listeners = b.listeners)
    (nextId : ∀ b, b.nextId ≤ (change b).nextId)
    (step : ∀ b : Bus, b.Within M.commands P n → (change b).Within M.commands P n) :
    Discreet M P n (Act.changeBus change) fun _ _ => True :=
  show Discreet M P n (Act.onBus fun b => ((), change b)) fun _ _ => True from
    onBus registry listeners nextId fun b knows => ⟨step b knows, trivial⟩

theorem nextId : Discreet M P n Act.nextId fun _ _ => True :=
  onBus (fun _ => rfl) (fun _ => rfl) (fun _ => Nat.le_succ _) fun _ knows =>
    ⟨⟨knows.listeners, knows.events, knows.jobs⟩, trivial⟩

theorem flag (dispatching : Bool) :
    Discreet M P n (Act.changeBus fun b => { b with dispatching }) fun _ _ => True :=
  changeBus (fun _ => rfl) (fun _ => rfl) (fun _ => Nat.le_refl _) fun _ knows =>
    ⟨knows.listeners, knows.events, knows.jobs⟩

end Act.Discreet

end ReactiveQuery
