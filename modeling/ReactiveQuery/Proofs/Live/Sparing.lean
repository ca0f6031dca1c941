import ReactiveQuery.Proofs.Live.Cascade

/-! Sparing activities.  They write no cell and queue no event, whatever they read, make or fail
with; so a refresh whose extension functions are sparing writes its result or nothing at all. -/

namespace ReactiveQuery

/-- Cells come and go, and only those at some places are written. -/
structure Heap.Writes (P : Nat → Prop) (h k : Heap) : Prop where
  size : h.cells.size ≤ k.cells.size
  cells : ∀ l, l < h.cells.size → ¬P l → ∀ cell, k.cell? l = some cell → h.cell? l = some cell

namespace Heap

variable {P Q : Nat → Prop} {h k m : Heap}

namespace Writes

theorem refl (h : Heap) : h.Writes P h := ⟨Nat.le_refl _, fun _ _ _ _ => id⟩

theorem trans (first : h.Writes P k) (second : k.Writes P m) : h.Writes P m where
  size := Nat.le_trans first.size second.size
  cells l inside other cell here := first.cells l inside other cell
    (second.cells l (Nat.lt_of_lt_of_le inside first.size) other cell here)

theorem mono (writes : h.Writes P k) (wider : ∀ l, P l → Q l) : h.Writes Q k where
  size := writes.size
  cells l inside other := writes.cells l inside fun at_ => other (wider l at_)

end Writes

theorem Extends.writes (grows : h.Extends k) : h.Writes P k where
  size := grows.size
  cells l inside _ cell here := by rwa [grows.old l inside] at here

theorem writes_setItems (h : Heap) (r : Ref) (items : List Value) :
    h.Writes (· = r.loc) (h.setItems r items) where
  size := Nat.le_of_eq (size_setItems h r items).symm
  cells l _ other cell here := by rwa [cell?_setItems_of_ne (Ne.symm other)] at here

/-- Items that are written to a collection are its items as long as it lives. -/
theorem Writes.items_of_setItems {r : Ref} {c : CollectionCell} {items : List Value} {cell : Cell}
    (writes : (h.setItems r items).Writes P k) (spared : ¬P r.loc)
    (here : h.collection? r = some c) (lives : k.cell? r.loc = some cell) : k.items r = items := by
  have inside := lt_size_of_cell? (collection?_eq_some.mp here)
  have before := writes.cells r.loc (by rwa [size_setItems]) spared cell lives
  rw [← items_setItems items here]
  exact items_eq_of_cell? (lives.trans before.symm)

end Heap

namespace World

/-- Nothing is written or queued. -/
structure Spares (w v : World) : Prop where
  heap : w.heap.Writes (fun _ => False) v.heap
  bus : v.bus = { w.bus with registry := v.bus.registry, nextId := v.bus.nextId }

variable {u v w : World}

theorem Spares.trans (first : u.Spares v) (second : v.Spares w) : u.Spares w :=
  ⟨first.heap.trans second.heap, by rw [second.bus, first.bus]⟩

theorem Inert.spares (inert : w.Inert v) : w.Spares v :=
  ⟨inert.heap.writes, by rw [inert.bus]⟩

theorem spares_sweep (w : World) : w.Spares w.sweep := by
  refine ⟨⟨Nat.le_of_eq (size_sweep w).symm, fun _ _ _ _ => cell?_of_sweep⟩, ?_⟩
  rw [same_sweep]

end World

/-- An activity that writes and queues nothing. -/
def Act.Spares {α : Type} (act : Act α) : Prop := ∀ w : World, w.Spares (act.on w).2

def Trait.sparing : Trait where
  Has := Act.Spares
  still still w := (still w).hushed.spares
  bind {_ _ x _} first rest w := by
    have spares := first w
    rw [Act.on_bind]
    rcases outcome : x.on w with ⟨_ | a, u⟩ <;> rw [outcome] at spares
    · exact spares
    · exact spares.trans (rest a u)
  holding values spares w := by
    obtain ⟨heap, bus⟩ := spares { w with held := values ++ w.held }
    exact ⟨heap, bus⟩
  attempt {_ x} spares w := by
    have inner := spares w
    rw [Act.on_attempt]
    rcases outcome : x.on w with ⟨(_ | _) | _, _⟩ <;> rw [outcome] at inner <;> exact inner
  settle := World.spares_sweep

namespace Act

variable {α : Type} {v w : World}

/-- Queueing writes nothing. -/
theorem writes_enqueueAll (P : Nat → Prop) (es : List Event) (w : World) :
    w.heap.Writes P ((enqueueAll es).on w).2.heap := by
  induction es generalizing w with
  | nil => exact .refl _
  | cons e es ih =>
    let values := (e :: es).flatMap Event.values
    have queues : (holding values (enqueue e)).on w =
        (.ok (), ((holding values (enqueue e)).on w).2) := rfl
    rw [enqueueAll, on_bind_ok queues]
    exact ((World.spares_sweep { w with held := values ++ w.held }).heap.mono fun _ =>
      False.elim).trans (ih ((holding values (enqueue e)).on w).2)

section
variable {dispatch : Act Unit} (silent : dispatch.Silent) (busy : w.bus.dispatching = true)
include silent busy

/-- Reports to an open bus write nothing. -/
theorem writes_report (P : Nat → Prop) (sink : Sink) (es : List Event) :
    w.heap.Writes P ((report dispatch sink es).on w).2.heap := by
  have logs : ∀ T : Trait, T.Has (es.forM fun e => Act.log (.reported e)) := fun T =>
    .forM (fun _ => .log _ rfl) es
  cases sink with
  | silent => exact .refl _
  | bus =>
    have writes := writes_enqueueAll P es w
    have stirs : w.Stirs (fun _ => True) ((enqueueAll es).on w).2 :=
      Stirs.enqueueAll (fun _ _ => trivial) w busy
    rw [report, publishAll, on_bind]
    rcases outcome : (enqueueAll es).on w with ⟨_ | _, u⟩ <;> rw [outcome] at writes stirs
    · exact writes
    · rcases silent u stirs.dispatching with same | same <;> (dsimp only; rw [same]; exact writes)
  | log => exact (logs .sparing w).heap.mono fun _ => False.elim
  | refusing => cases es <;> exact .refl _

/-- New rows are written to their collection and nowhere else. -/
theorem writes_change (P : Nat → Prop) (r : Ref) (rows : List Value) :
    (w.heap.setItems r rows).Writes P ((r.change dispatch (.replaceAll rows)).on w).2.heap := by
  rw [Ref.change, on_bind_ok (on_get w)]
  cases found : w.heap.collection? r with
  | none =>
    rw [Heap.setItems, found]
    exact .refl _
  | some c =>
    dsimp only
    rw [ItemChange.replaceAll, on_bind_ok (on_ofExcept ..), on_bind_ok (on_changeHeap ..)]
    have reports := writes_report silent (w := { w with
      heap := w.heap.setItems r rows
      held := c.items ++ w.held }) busy P c.sink (changeEvents r.id c.items.length rows.length)
    rw [on_bind, on_holding]
    split <;>
    · next outcome =>
      obtain ⟨-, same⟩ := Prod.mk.inj outcome
      rw [← same] at *
      exact reports

end

theorem fails_holding {values : List Value} {x : Act α} {fault : Fault}
    (fails : (holding values x).on w = (.error fault, v)) :
    ∃ u, x.on { w with held := values ++ w.held } = (.error fault, u) ∧
      v = { u with held := w.held } := by
  obtain ⟨result, left⟩ := Prod.mk.inj fails
  exact ⟨_, Prod.ext_iff.mpr ⟨result, rfl⟩, left.symm⟩

end Act

/-- Where the rows of a live query are computed anew, its source's items are held. -/
def World.computing (w : World) (q : LiveQuery) : World :=
  { w with held := w.heap.items q.source ++ w.held }

theorem World.inert_computing (w : World) (q : LiveQuery) : w.Inert (w.computing q) :=
  ⟨.refl _, rfl, rfl, rfl⟩

namespace Act

variable {call : Caller} {dispatch : Act Unit} {q : LiveQuery} {v w : World}

section
variable (silent : dispatch.Silent)
  (sparing : Trait.sparing.Calls call q.definition.functions) (busy : w.bus.dispatching = true)
include silent sparing busy

/-- A refresh whose extension functions are sparing writes its result alone. -/
theorem writes_refresh : w.heap.Writes (· = q.result.loc)
    ((refresh call dispatch q.result q.source q.definition q.params).on w).2.heap := by
  have spares := q.definition.has_execute (T := .sparing) q.context sparing
    (w.heap.items q.source) (w.computing q)
  have run : ((refresh call dispatch q.result q.source q.definition q.params).on w).2.heap =
      ((do
        let rows ← q.definition.execute call q.context (w.heap.items q.source)
        let _ ← q.result.change dispatch (.replaceAll rows) : Act Unit).on (w.computing q)).2.heap :=
    rfl
  rw [run, on_bind]
  rcases outcome : (q.definition.execute call q.context (w.heap.items q.source)).on
    (w.computing q) with ⟨_ | rows, y⟩ <;> rw [outcome] at spares
  · exact spares.heap.mono fun _ => False.elim
  · have open_ : y.bus.dispatching = true := by
      rw [spares.bus]
      exact busy
    have changes := ((spares.heap.mono fun _ => False.elim).trans
      (y.heap.writes_setItems q.result rows)).trans (writes_change silent open_ _ q.result rows)
    dsimp only
    rw [on_bind]
    split <;>
    · next ended =>
      rw [ended] at changes
      exact changes

variable (proper : ∀ e ctx args, (call e ctx args).Proper) (enrolled : w.Enrolled)
  (lists : w.bus.Lists q)
include proper enrolled lists

/-- It fails with what the evaluation fails with, and then has done nothing. -/
theorem spares_of_refresh {e : Error} (fails : (refresh call dispatch q.result q.source q.definition
    q.params).on w = (.error (.raised e), v)) : w.Spares v ∧
      ((q.definition.execute call q.context (w.heap.items q.source)).on (w.computing q)).1 =
        .error (.raised e) := by
  rw [refresh, on_bind_ok (on_get w)] at fails
  obtain ⟨u, inner, rfl⟩ := fails_holding fails
  have spares := q.definition.has_execute (T := .sparing) q.context sparing
    (w.heap.items q.source) (w.computing q)
  have leads := q.definition.has_execute (T := .proper) q.context (fun e _ => proper e)
    (w.heap.items q.source) (w.computing q)
  rcases raised_bind (w := w.computing q) inner with raised | ⟨rows, y, executed, rest⟩
  · rw [← LiveQuery.context] at raised
    rw [raised] at spares ⊢
    exact ⟨⟨spares.heap, spares.bus⟩, rfl⟩
  · obtain ⟨enrolled', held⟩ := (w.inert_computing q).leads enrolled
    have executes := executed.on
    rw [← LiveQuery.context] at executes
    rw [executes] at spares leads
    obtain ⟨after, later⟩ := leads enrolled'
    have open_ : y.bus.dispatching = true := by
      rw [spares.bus]
      exact busy
    rcases raised_bind rest with raised | ⟨_, _, -, returned⟩
    · exact absurd raised (ne_raised_of_change silent open_
        (after.sinks q (later.lists (held.lists lists))) rows)
    · cases returned

/-- One that succeeds has put the rows into the result that the evaluation gives. -/
theorem items_of_refresh (gives : (refresh call dispatch q.result q.source q.definition
    q.params).Gives w () v) : ∃ rows,
      ((q.definition.execute call q.context (w.heap.items q.source)).on (w.computing q)).1 =
        .ok rows ∧
      ∀ cell, v.heap.cell? q.result.loc = some cell → v.heap.items q.result = rows := by
  rw [refresh, Gives, on_bind_ok (on_get w)] at gives
  obtain ⟨u, inner, rfl⟩ := gives_holding.mp gives
  obtain ⟨rows, y, executed, rest⟩ := gives_bind.mp inner
  obtain ⟨out, x, changed, rest⟩ := gives_bind.mp rest
  obtain ⟨-, rfl⟩ := gives_pure.mp rest
  have spares := q.definition.has_execute (T := .sparing) q.context sparing
    (w.heap.items q.source) (w.computing q)
  have leads := q.definition.has_execute (T := .proper) q.context (fun e _ => proper e)
    (w.heap.items q.source) (w.computing q)
  have executes : (q.definition.execute call q.context (w.heap.items q.source)).on
    (w.computing q) = (.ok rows, y) := executed.on
  rw [executes] at spares leads
  obtain ⟨enrolled', held⟩ := (w.inert_computing q).leads enrolled
  obtain ⟨after, later⟩ := leads enrolled'
  have open_ : y.bus.dispatching = true := by
    rw [spares.bus]
    exact busy
  have writes := writes_change silent open_ (fun _ => False) q.result rows
  rw [changed.on] at writes
  refine ⟨rows, congrArg Prod.fst executes, fun cell here => ?_⟩
  cases found : y.heap.collection? q.result with
  | some c => exact writes.items_of_setItems id found here
  -- Nothing was written, but a result that is still listed is a collection wherever it lives.
  | none =>
    have listed := later.lists (held.lists lists)
    have inside := (after.ranked.below q listed).2
    have there := writes.cells _ (by rwa [Heap.size_setItems]) id cell here
    rw [Heap.setItems, found] at there
    obtain ⟨c, rfl, -⟩ := after.sinks q listed cell there
    rw [Heap.collection?_eq_some.mpr there] at found
    cases found

end

end Act

namespace JobTurn

/-- The world in which a live query is refreshed in its turn. -/
def refreshing (t : JobTurn) (q : LiveQuery) : World :=
  { t.begun.sweep with held := .collection q.result :: t.begun.sweep.held }

/-- What the evaluation of a query comes to in a turn. -/
def evaluates (again : Reentry) (t : JobTurn) (q : LiveQuery) : Except Fault (List Value) :=
  ((q.definition.execute again.call q.context ((t.refreshing q).heap.items q.source)).on
    ((t.refreshing q).computing q)).1

variable {again : Reentry} {t : JobTurn} {q : LiveQuery} {x : World}

theorem spares_refreshing (t : JobTurn) (q : LiveQuery) : t.world.Spares (t.refreshing q) :=
  ⟨(World.spares_sweep t.begun).heap, (World.spares_sweep t.begun).bus⟩

theorem leads_refreshing (t : JobTurn) (q : LiveQuery) : t.world.Leads (t.refreshing q) :=
  ((show t.world.Inert t.begun from ⟨.refl _, rfl, rfl, rfl⟩).leads.trans
    (World.leads_sweep _)).trans
      (show t.begun.sweep.Inert (t.refreshing q) from ⟨.refl _, rfl, rfl, rfl⟩).leads

section
variable (silent : again.dispatch.Silent)
  (sparing : Trait.sparing.Calls again.call q.definition.functions)
  (busy : t.world.bus.dispatching = true) (job : t.job = q.job)
include silent sparing busy job

/-- A turn writes no cell but that of its result. -/
theorem writes_act :
    t.world.heap.Writes (· = q.result.loc) ((t.act again).on t.world).2.heap := by
  have spares := t.spares_refreshing q
  have begins : t.world.heap.Writes (· = q.result.loc) (t.refreshing q).heap :=
    spares.heap.mono fun _ => False.elim
  have run : ((t.act again).on t.world).2.heap =
      ((t.job.run again.call again.dispatch again.perform).on t.begun).2.heap := rfl
  rw [run, job, LiveQuery.job, Job.on_run_refresh]
  split
  · exact begins.trans
      (Act.writes_refresh (w := t.refreshing q) silent sparing (by rw [spares.bus]; exact busy))
  · exact begins

variable (proper : again.Proper) (enrolled : t.world.Enrolled) (lists : t.world.bus.Lists q)
include proper enrolled lists

/-- It fails because the evaluation of its query does, and then nothing has been done. -/
theorem spares_of_raised {e : Error} (fails : (t.act again).on t.world = (.error (.raised e), x)) :
    t.world.Spares x ∧ t.evaluates again q = .error (.raised e) := by
  have spares := t.spares_refreshing q
  obtain ⟨ready, later⟩ := t.leads_refreshing q enrolled
  obtain ⟨u, ran, rfl⟩ := Act.fails_holding fails
  rw [job, LiveQuery.job, Job.on_run_refresh, ← LiveQuery.job, ← job] at ran
  split at ran
  · obtain ⟨z, refreshed, rfl⟩ := Act.fails_holding ran
    obtain ⟨nothing, raised⟩ := Act.spares_of_refresh (w := t.refreshing q) silent sparing
      (by rw [spares.bus]; exact busy) proper.call ready (later.lists lists) refreshed
    exact ⟨spares.trans ⟨nothing.heap, nothing.bus⟩, raised⟩
  · cases ran

/-- One that succeeds with its result alive has put the rows there. -/
theorem items_of_gives (alive : t.begun.sweep.heap.isAlive q.result.loc = true)
    (ran : (t.act again).Gives t.world () x) : ∃ rows, t.evaluates again q = .ok rows ∧
      ∀ cell, x.heap.cell? q.result.loc = some cell → x.heap.items q.result = rows := by
  have spares := t.spares_refreshing q
  obtain ⟨ready, later⟩ := t.leads_refreshing q enrolled
  obtain ⟨u, turned, rfl⟩ := Act.gives_holding.mp ran
  rw [Act.Gives, job, LiveQuery.job, Job.on_run_refresh, ← LiveQuery.job, ← job] at turned
  split at turned
  · obtain ⟨z, refreshed, rfl⟩ := Act.gives_holding.mp turned
    obtain ⟨rows, gives, items⟩ := Act.items_of_refresh (w := t.refreshing q) silent sparing
      (by rw [spares.bus]; exact busy) proper.call ready (later.lists lists) refreshed
    exact ⟨rows, gives, items⟩
  · next gone => exact absurd alive gone

end

end JobTurn

end ReactiveQuery
