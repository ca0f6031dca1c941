import ReactiveQuery.Proofs.Frame.Dispatch

/-! The frame of an operation.  Whatever a caller makes of writes, changes of items, batches and
queries, and however it ends: besides what the caller wrote, only the items of live results differ
afterwards. -/

namespace ReactiveQuery

/-- Programs that mutate nothing.  They may look at everything, make new records and collections,
and run queries that call no function. -/
inductive Act.Looks (w : World) (again : Reentry) : {α : Type} → Act α → Prop
  | still {α : Type} {act : Act α} (still : ∀ u : World, u.Still (act.on u).2) : Looks w again act
  | settle : Looks w again Act.settle
  | nextId : Looks w again Act.nextId
  | definition (text : String) : Looks w again (Act.definition text)
  | query (source : Ref) {text : String} (params : List Value) (free : w.CallFree text) :
    Looks w again (Act.query again.call source text params)
  | bind {α β : Type} {x : Act α} {f : α → Act β} (first : Looks w again x)
    (rest : ∀ a, Looks w again (f a)) : Looks w again (x >>= f)
  | holding {α : Type} {x : Act α} (values : List Value) (inner : Looks w again x) :
    Looks w again (Act.holding values x)
  | attempt {α : Type} {x : Act α} (inner : Looks w again x) : Looks w again (Act.attempt x)

/-- Programs that write at some slots `S` only, and that make live queries, which call no function,
only if `L`. -/
inductive Act.Uses (S : Slot → Prop) (L : Prop) (w : World) (again : Reentry) :
    {α : Type} → Act α → Prop
  | looks {α : Type} {act : Act α} (looks : act.Looks w again) : Uses S L w again act
  | write {r : Ref} {key : String} (may : S (.field r.loc key)) (value : Value) :
    Uses S L w again (r.setField again.dispatch key value)
  | change {r : Ref} (may : S (.items r.loc)) (f : ItemChange) :
    Uses S L w again (r.change again.dispatch f)
  | batch {α : Type} {body : Act α} (inner : Uses S L w again body) :
    Uses S L w again (Act.batch again.dispatch body)
  | live (may : L) (source : Ref) {text : String} (params : List Value) (free : w.CallFree text) :
    Uses S L w again (Act.live again.call again.dispatch source text params)
  | bind {α β : Type} {x : Act α} {f : α → Act β} (first : Uses S L w again x)
    (rest : ∀ a, Uses S L w again (f a)) : Uses S L w again (x >>= f)
  | holding {α : Type} {x : Act α} (values : List Value) (inner : Uses S L w again x) :
    Uses S L w again (Act.holding values x)
  | attempt {α : Type} {x : Act α} (inner : Uses S L w again x) : Uses S L w again (Act.attempt x)

def Trait.looks (w : World) (again : Reentry) : Trait where
  Has := Act.Looks w again
  still := .still
  bind := .bind
  holding := .holding
  attempt := .attempt
  settle := .settle

def Trait.uses (S : Slot → Prop) (L : Prop) (w : World) (again : Reentry) : Trait where
  Has := Act.Uses S L w again
  still still := .looks (.still still)
  bind := .bind
  holding := .holding
  attempt := .attempt
  settle := .looks .settle

variable {S : Slot → Prop} {L : Prop} {w : World} {again : Reentry}

namespace Command

/-- Commands that only look, and run queries of some texts. -/
def isQuiet (free : String → Bool) : Command → Bool
  | .value _ | .upgrade _ | .definition _ | .hasExtension _ | .stats | .config | .hasListeners ..
  | .bus | .nextId | .dirty _ | .fail _ => true
  | .onRecord _ (.write ..) => false
  | .onRecord .. => true
  | .onCollection _ (.attr _) | .onCollection _ (.item _) | .onCollection _ .length
  | .onCollection _ (.containsObject _) => true
  | .query _ text _ => free text
  | _ => false

/-- A quiet command mutates nothing. -/
theorem looks_of_isQuiet {free : String → Bool} (calls : ∀ text, free text = true → w.CallFree text)
    {c : Command} (quiet : c.isQuiet free = true) :
    (Trait.looks w again).Has (c.perform again) := by
  cases c with
  | value t =>
    rw [perform]
    exact .bind (Act.has_read t) fun _ => .ret _
  | upgrade name =>
    rw [perform]
    refine .bind .world fun u => ?_
    split
    · exact .ret _
    · exact .bind (Act.has_isAlive _) fun _ => .ret _
  | onRecord name command =>
    rw [perform]
    refine .bind (Act.has_named name) fun v => ?_
    split
    · refine .holding ?_
      cases command with
      | write => cases quiet
      | snapshot =>
        exact .bind .world fun _ =>
          .bind (.bind (.onHeap .freshTag) fun _ => .ret _) fun _ => .ret _
      | _ => exact .bind .world fun _ => .ret _
    · exact .ret _
  | onCollection name command =>
    rw [perform]
    refine .bind (Act.has_named name) fun v => ?_
    split
    · refine .holding ?_
      cases command with
      | attr | item | length => exact .bind .world fun _ => .ret _
      | containsObject target =>
        refine .bind (Act.has_targetId? target) fun id => ?_
        split
        · exact .bind .world fun _ => .ret _
        · exact .ret _
      | _ => cases quiet
    · exact .ret _
  | query source text params =>
    rw [perform]
    refine .bind (Act.has_named source) fun v => ?_
    split
    · exact .bind (Act.has_readAll params) fun _ =>
        .bind (.holding (.query _ _ (calls text quiet))) fun _ => .ret _
    · exact .ret _
  | definition text =>
    rw [perform]
    exact .bind (.definition text) fun _ => .bind (.mapM Act.has_pathText _) fun _ => .ret _
  | hasExtension | config | dirty =>
    rw [perform]
    exact .bind .world fun _ => .ret _
  | stats =>
    rw [perform]
    exact .bind (.bind .settle fun _ => .bind .world fun _ => .ret _) fun _ => .ret _
  | hasListeners target key =>
    rw [perform]
    exact .bind .settle fun _ => .bind (Act.has_targetId? target) fun _ =>
      .bind .world fun _ => .ret _
  | bus =>
    rw [perform]
    exact .bind .settle fun _ => .bind .world fun _ => .ret _
  | nextId =>
    rw [perform]
    exact .bind .nextId fun _ => .ret _
  | fail error =>
    rw [perform]
    exact .raise error
  | _ => cases quiet

end Command

namespace Act.Uses

variable {r : Ref} (may : S (.items r.loc))

include may in
theorem sortItems (ascending : Bool) :
    (Trait.uses S L w again).Has (r.sortItems again.dispatch ascending) :=
  .bind (.ask _) fun _ => .bind (.change may _) fun _ => .ret ()

/-- Writing a field on all members that declare it. -/
theorem setAttr (key : String) (value : Value) {items : List Value}
    (may : ∀ r : Ref, .record r ∈ items → S (.field r.loc key)) :
    (Trait.uses S L w again).Has (Ref.setAttr again.dispatch key value items) := by
  induction items with
  | nil => exact .ret ()
  | cons item rest ih =>
    have others := ih fun r member => may r (List.mem_cons_of_mem _ member)
    cases item with
    | record r =>
      rw [Ref.setAttr]
      refine .bind .world fun u => ?_
      split
      · exact .bind (.holding (.write (may r List.mem_cons_self) value)) fun _ => others
      · exact others
    | _ => exact others

/-- A live query may be asked for over a collection, or over values that make up a new one. -/
theorem dynamic (may : L) (o : Origin) {text : String} (params : List Value)
    (free : w.CallFree text) : (Trait.uses S L w again).Has (Act.dynamic again o text params) := by
  have takes : (Trait.uses S L w again).Has o.take := by
    cases o with
    | collection r => exact .ret r
    | values items =>
      exact .bind (.looks .nextId) fun _ => .onHeap fun h => .allocate h _ rfl
  exact .bind takes fun source => .holding (.live may source params free)

end Act.Uses

namespace Act.Framed

theorem query (enrolled : w.Enrolled) (call : Caller) (source : Ref) {text : String}
    (params : List Value) (free : w.CallFree text) :
    (Trait.framed S L enrolled).Has (Act.query call source text params) := fun u calm => by
  have defines := definition enrolled text u calm
  rcases outcome : (Act.definition text).on u with ⟨_ | d, x⟩ <;> rw [outcome] at defines
  · rw [Act.query, on_bind_error outcome]
    exact defines
  · have calls := (calm.callFree text free).of_definition outcome
    have rest : (Trait.framed S L enrolled).Has (do
        let items := (← get).heap.items source
        let rows ← Act.holding items (d.execute call ⟨source, params⟩ items)
        Act.newCollection rows) :=
      .bind .world fun _ =>
        .bind (.holding (d.has_execute _ (calls ▸ Trait.Calls.nil) _)) fun rows =>
          newCollection enrolled rows
    obtain ⟨after, held⟩ := rest x defines.1
    rw [Act.query, on_bind_ok outcome]
    exact ⟨after, held.trans defines.2⟩

theorem of_looks (enrolled : w.Enrolled) {α : Type} {act : Act α} (looks : act.Looks w again) :
    (Trait.framed S L enrolled).Has act := by
  induction looks with
  | still still => exact Trait.still _ still
  | settle => exact .settle
  | nextId => exact nextId enrolled
  | definition text => exact definition enrolled text
  | query source params free => exact query enrolled _ source params free
  | bind _ _ first rest => exact .bind first rest
  | holding _ _ inner => exact .holding inner
  | attempt _ inner => exact .attempt inner

/-- What is held meanwhile is let go of. -/
theorem at_holding (enrolled : w.Enrolled) {α β : Type} {values : List Value} {x : Act α} (b : β)
    {u : World} (inner : w.Calm S L (x.on { u with held := values ++ u.held }).2)
    (held : w.held <:+ u.held) :
    w.Calm S L ((do let _ ← Act.holding values x; return b : Act β).on u).2 ∧
      ((do let _ ← Act.holding values x; return b : Act β).on u).2.held = u.held := by
  rw [on_bind, on_holding]
  rcases outcome : x.on { u with held := values ++ u.held } with ⟨_ | _, v⟩ <;>
    rw [outcome] at inner <;> exact ⟨inner.hold enrolled held, rfl⟩

section
variable {K : Command → Prop} (guarded : w.Guarded S K)
  (framed : (Trait.framed S L guarded.enrolled).Has again.dispatch)
include framed

/-- A live query that calls nothing writes its own result, which has come about with it. -/
theorem live (may : L) (source : Ref) {text : String} (params : List Value)
    (free : w.CallFree text) : (Trait.framed S L guarded.enrolled).Has
      (Act.live again.call again.dispatch source text params) := fun u calm => by
  have enrolled := guarded.enrolled
  have defines := definition enrolled text u calm
  rcases outcome : (Act.definition text).on u with ⟨_ | d, x⟩ <;> rw [outcome] at defines
  · rw [Act.live, on_bind_error outcome]
    exact defines
  · have calls := (calm.callFree text free).of_definition outcome
    have high : w.heap.cells.size ≤ x.heap.cells.size := defines.1.toRemains.size
    have made : (Act.newCollection []).on x = (.ok x.nextRef, x.withCell (.collection x.empty)) :=
      rfl
    have creates := newCollection enrolled [] x defines.1
    rw [made] at creates
    have ready : w.Calm S L (x.ready source params) :=
      creates.1.hold enrolled (creates.1.held.trans (List.suffix_append _ _))
    have runs : w.Calm S L ((do
        Act.attach x.nextRef source d params
        Act.batch again.dispatch
          (Act.refresh again.call again.dispatch x.nextRef source d params) : Act Unit).on
        (x.ready source params)).2 := by
      rcases Act.attach_ready defines.1.enrolled source d params with
        endless | ⟨q, result, rfl, rfl, rfl, derived, attaches⟩
      · rw [on_bind_error endless]
        exact ready
      · have bare := World.bare_ready defines.1.enrolled q.source q.params
        rw [← result] at bare
        have new : w.heap.cells.size ≤ q.result.loc := result ▸ high
        have attached := ready.of_scheduler
          (ready.toRemains.attached bare derived may new calls) rfl
        have refreshes := batch enrolled framed (refresh enrolled framed
          (guarded.new (.items x.nextRef.loc) high) calls again.call q.source q.params)
        rw [on_bind_ok attaches]
        exact (refreshes _ attached).1
    rw [Act.live, on_bind_ok outcome, on_bind_ok made]
    obtain ⟨after, held⟩ := at_holding enrolled x.nextRef runs creates.1.held
    exact ⟨after, held.trans (creates.2.trans defines.2)⟩

theorem of_uses {α : Type} {act : Act α} (uses : act.Uses S L w again) :
    (Trait.framed S L guarded.enrolled).Has act := by
  induction uses with
  | looks looks => exact of_looks _ looks
  | write may value => exact write _ framed may value
  | change may f => exact change _ framed may f
  | batch _ inner => exact batch _ framed inner
  | live may source params free => exact live guarded framed may source params free
  | bind _ _ first rest => exact .bind first rest
  | holding _ _ inner => exact .holding inner
  | attempt _ inner => exact .attempt inner

end

end Act.Framed

namespace World

/-- What may differ after an operation: the slots that its caller may write, the items of live
results, and what there was not before. -/
inductive Writable (C : Slot → Prop) (w : World) : Slot → Prop
  | caller {s : Slot} (may : C s) : Writable C w s
  | live {q : LiveQuery} (live : w.Live q) : Writable C w (.items q.result.loc)
  | new {s : Slot} (new : w.heap.cells.size ≤ s.loc) : Writable C w s

/-- Of those that are registered, live queries call no function and callbacks mutate nothing. -/
structure Passive {K : Command → Prop} (E : Engine (Scope.clean K)) (w : World) : Prop where
  live : ∀ q, w.Live q → q.definition.functions = []
  callbacks : ∀ t, ∀ n ∈ w.bus.registry.on t, ∀ name members actions,
    w.bus.listeners[n]? = some (.script name members actions) →
      ∀ c ∈ actions, ∀ depth, (E.perform (E.within depth) c).Looks w (E.within depth)

/-- The first world's state is the second one's but for what may be written at the slots `C`, the
items of live results, and, if `L`, the live queries that have been made. -/
structure Confined (C : Slot → Prop) (L : Prop) (w v : World) : Prop where
  /-- Whatever is still alive is as it was, slot by slot. -/
  cells : ∀ l < w.heap.cells.size, ∀ cell', v.heap.cell? l = some cell' →
    ∃ cell, w.heap.cell? l = some cell ∧ cell.Frames (w.Writable C) l cell'
  /-- What can be got at without what may be written is still alive. -/
  kept : ∀ l, w.Kept (w.Writable C) l → w.heap.isAlive l = true → v.heap.isAlive l = true
  desk : v.desk = w.desk
  held : v.held = w.held
  queries : v.queries = w.queries
  extensions : v.extensions = w.extensions
  rested : v.bus.Rested
  listeners : ∀ (n : Nat) l, w.bus.listeners[n]? = some l → v.bus.listeners[n]? = some l
  /-- Unless a live result is let go of, all registrations are what they were and in their order,
  and those behind them belong to live results that there were not. -/
  registrations : (∀ q, w.Live q → v.Live q) → ∀ t, ∃ new,
    v.bus.registry.on t = w.bus.registry.on t ++ new ∧
      ∀ n ∈ new, L ∧ ∃ loc, v.bus.place? n = some loc ∧ w.heap.cells.size ≤ loc

variable {C : Slot → Prop} {v : World} {K : Command → Prop} {E : Engine (Scope.clean K)}

theorem Passive.guarded (passive : w.Passive E) (enrolled : w.Enrolled) :
    w.Guarded (w.Writable C) fun c =>
      ∀ depth, (E.perform (E.within depth) c).Looks w (E.within depth) where
  enrolled := enrolled
  new _ := .new
  docile t n on l listens := by
    cases l with
    | script name members actions =>
      exact .script (passive.callbacks t n on name members actions listens)
    | invalidate id route job =>
      obtain ⟨q, rfl, rfl⟩ := enrolled.ranked.live n id route job listens
      have retained := (enrolled.registered t n _ (Bus.place?_of_listeners listens)).mp on
      have live : w.Live q := ⟨⟨n, route, listens⟩, List.ne_nil_of_mem retained⟩
      exact .invalidate ⟨q, rfl, passive.live q live, .live live⟩

/-- Unless a live result is let go of, registrations stay. -/
theorem Remains.registrations (remains : w.Remains S L v) (enrolled : w.Enrolled)
    (keeps : ∀ q, w.Live q → v.Live q) (t : Topic) : ∃ new,
      v.bus.registry.on t = w.bus.registry.on t ++ new ∧
        ∀ n ∈ new, L ∧ ∃ loc, v.bus.place? n = some loc ∧ w.heap.cells.size ≤ loc := by
  obtain ⟨old, new, both, sublist, high⟩ := remains.on t
  have stays : w.bus.registry.on t ⊆ old := fun n here => by
    have known := enrolled.known t n here
    have there : n ∈ v.bus.registry.on t := by
      cases place : w.bus.place? n with
      | none => exact remains.scripts t n here place
      | some loc =>
        obtain ⟨q, route, listens, rfl⟩ := enrolled.ranked.exists_of_place? place
        have retained := (enrolled.registered t n _ place).mp here
        have live : w.Live q := ⟨⟨n, route, listens⟩, List.ne_nil_of_mem retained⟩
        refine (remains.enrolled.registered t n _ (remains.later.place? place)).mpr ?_
        rcases remains.later.subscriptions n _ place with same | gone
        · rwa [same]
        · exact absurd gone (keeps q live).2
    rw [both] at there
    exact (List.mem_append.mp there).resolve_right fun fresh =>
      absurd known (Nat.not_lt.mpr (high n fresh))
  have same : old = w.bus.registry.on t :=
    sublist.eq_of_length_le ((enrolled.tidy.once t).subperm stays).length_le
  refine ⟨new, same ▸ both, fun n member => ?_⟩
  have inside := remains.enrolled.known t n (both ▸ List.mem_append_right _ member)
  have listens := Array.getElem?_eq_getElem inside
  obtain ⟨may, q, route, is, loc, -⟩ := remains.made n _ listens (high n member)
  exact ⟨may, q.result.loc, Bus.place?_of_listeners (listens.trans (congrArg some is)), loc⟩

end World

namespace Act

variable {K : Command → Prop} {E : Engine (Scope.clean K)} {depth : Nat} {α : Type} {act : Act α}

theorem Looks.made (looks : act.Looks w (E.within depth)) :
    act.Made (Scope.clean K) E.Dispatches := by
  have made := (E.made_dispatches depth).allows
  induction looks with
  | still still => exact .of_bus fun u => (still u).bus
  | settle => exact .own .settle
  | nextId => exact .own .nextId
  | definition text => exact has_definition (C := .made _ _) text
  | query source params free => exact has_query (C := .made _ _) made.call _ _ _
  | bind _ _ first rest => exact .bind first rest
  | holding _ _ inner => exact .holding inner
  | attempt _ inner => exact .attempt inner

theorem Uses.made (uses : act.Uses S L w (E.within depth)) :
    act.Made (Scope.clean K) E.Dispatches := by
  have made := (E.made_dispatches depth).allows
  induction uses with
  | looks looks => exact looks.made
  | write may value => exact has_setField (C := .made _ _) made.dispatch _ _ _
  | change may f => exact has_change (C := .made _ _) made.dispatch _ f
  | batch _ inner => exact .batch made.dispatch inner
  | live may source params free => exact has_live (C := .made _ _) made.dispatch made.call _ _ _
  | bind _ _ first rest => exact .bind first rest
  | holding _ _ inner => exact .holding inner
  | attempt _ inner => exact .attempt inner

end Act

namespace Engine

variable {C : Slot → Prop} {K : Command → Prop} {E : Engine (Scope.clean K)}

/-- However deep activities may start one another, a dispatch keeps within the footprint. -/
theorem framed_within (passive : w.Passive E) (enrolled : w.Enrolled) (depth : Nat) :
    (Trait.framed (w.Writable C) L enrolled).Has (E.within depth).dispatch := by
  have guarded := passive.guarded (C := C) enrolled
  induction depth with
  | zero => exact .fault _
  | succ depth ih =>
    refine Act.Framed.dispatchIfIdle guarded (fun c keeps => ?_) ih
    cases depth with
    | zero => exact .fault _
    | succ depth => exact .of_looks enrolled (keeps depth)

/-- An operation changes its slots and the items of live results, and nothing else. -/
theorem Runs.confined {v : World} (runs : E.Runs w) (passive : w.Passive E) {depth : Nat} {α : Type}
    {act : Act α} (uses : act.Uses (w.Writable C) L w (E.within depth)) (leaves : act.Leaves w v) :
    w.Confined C L v := by
  have enrolled := runs.enrolled
  obtain ⟨-, -, quiet⟩ := runs.visits.orderly
  have begun : w.Calm (w.Writable C) L w :=
    ⟨.refl enrolled, by rw [quiet.scheduler]; nofun⟩
  have framed := Act.Framed.of_uses (passive.guarded (C := C) enrolled)
    (framed_within passive enrolled depth) uses w begun
  obtain ⟨r, outcome, -⟩ := id leaves
  rw [outcome] at framed
  obtain ⟨calm, held⟩ := framed
  obtain ⟨orderly, idle, quiet'⟩ := (runs.visits.step uses.made leaves).orderly
  have remains := calm.toRemains
  exact ⟨remains.cells, remains.kept, remains.desk, held, remains.queries, remains.extensions,
    orderly.rested idle quiet', remains.later.listeners,
    remains.registrations enrolled⟩

end Engine

namespace Bystander

/-- With one cycle for each dispatch, so that two results in a row are too many. -/
def setup : Setup where
  maxNotifyCycles := 1
  queries := [
    ("small", { filter := some (.tagged "lte"
      [.path .here [.key (.text "n")], .literal (.number (.ofInt 9))]) }),
    ("rows", {})]

def start : World := (World.start setup).toOption.getD {}

def engine : Engine (Scope.clean Command.Clean) := .standard Command.closed_clean

/-- A record in a collection, what a query has taken from it, a live query over it, one over its
result, and a callback that looks. -/
def shown : World := start.play
  [.bind "r" (.newRecord [("n", .number .zero)] none),
    .bind "s" (.newCollection [.named "r"] none), .bind "taken" (.query "s" "small" []),
    .bind "a" (.live "s" "small" []), .bind "b" (.live "a" "rows" []),
    .subscribe "L" .all none [.onCollection "taken" .length, .query "s" "rows" []]]

/-- Two writes in a batch, whose dispatch fails, and a live query. -/
def operation : Act Ref := do
  let _ ← Act.attempt (Act.batch (engine.within 8).dispatch do
    Ref.setField (engine.within 8).dispatch ⟨0, 1⟩ "n" (.number (.ofInt 10))
    Ref.change (engine.within 8).dispatch ⟨1, 2⟩ (.push .null))
  Act.dynamic (engine.within 8) (.collection ⟨1, 2⟩) "rows" []

def after : World := (operation.on shown).2

/-- The slots that the operation writes. -/
def Written (s : Slot) : Prop := s = .field 0 "n" ∨ s = .items 1

/-- Callbacks look and run the query "rows", and live queries call nothing. -/
def passes : Listener → Bool
  | .script _ _ actions => actions.all (·.isQuiet (· == "rows"))
  | .invalidate _ _ (.refresh _ _ d _) => d.functions.isEmpty
  | .invalidate .. => false

theorem started : World.start setup = .ok start := rfl

theorem runs_shown : engine.Runs shown :=
  (Engine.Runs.start started).play
    (Command.allClean_iff.mp
      ⟨trivial, trivial, trivial, trivial, trivial, ⟨trivial, trivial, trivial⟩, trivial⟩)

theorem callFree_shown : shown.CallFree "rows" where
  kept d member := by
    have none : shown.cache.entries.all fun e => e.2.functions.isEmpty := by decide +kernel
    exact List.isEmpty_iff.mp (List.all_eq_true.mp none _ member)
  read u queries query paths reads := by
    have plain : (shown.queries.lookup "rows").all fun d =>
      d.filter.isNone && d.select.isNone && d.order.isEmpty := by decide +kernel
    unfold World.reading at reads
    rw [queries] at reads
    rcases known : shown.queries.lookup "rows" with _ | ⟨filter, select, order, _, failure⟩ <;>
      rw [known] at reads plain
    · cases reads
    · simp only [Option.all_some, Bool.and_eq_true, Option.isNone_iff_eq_none,
        List.isEmpty_iff] at plain
      obtain ⟨⟨rfl, rfl⟩, rfl⟩ := plain
      cases failure <;> cases reads
      rfl

theorem passive_shown : shown.Passive engine := by
  have passing : shown.bus.listeners.all passes = true := by decide +kernel
  have all := Array.all_eq_true_iff_forall_mem.mp passing
  constructor
  · rintro q ⟨⟨n, route, listens⟩, -⟩
    exact List.isEmpty_iff.mp (all _ (Array.mem_of_getElem? listens))
  · intro t n _ name members actions listens c member depth
    have quiet := List.all_eq_true.mp (all _ (Array.mem_of_getElem? listens)) c member
    refine Command.looks_of_isQuiet (fun text same => ?_) quiet
    obtain rfl := eq_of_beq same
    exact callFree_shown

theorem uses_operation : operation.Uses (shown.Writable Written) True shown (engine.within 8) :=
  .bind (.attempt (.batch (.bind (.write (.caller (.inl rfl)) _) fun _ =>
      .change (.caller (.inr rfl)) _))) fun _ =>
    .dynamic trivial _ _ callFree_shown

/-- The batch fails, the live query is made, and everything else is as it was: the record's other
slots, what a query has taken, and every registration. -/
theorem confined_after :
    (operation.on shown).1.toOption = some ⟨8, 9⟩ ∧ shown.Confined Written True after := by
  have ends : (operation.on shown).1.toOption = some ⟨8, 9⟩ := by decide +kernel
  exact ⟨ends, runs_shown.confined passive_shown uses_operation (Act.gives_of_toOption ends).leaves⟩

end Bystander

end ReactiveQuery
