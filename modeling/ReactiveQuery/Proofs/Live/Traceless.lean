import ReactiveQuery.Proofs.Handle.Attach
import ReactiveQuery.Proofs.Live.Reach

/-! Failing to make a live query.  However far it came, its result is known to nobody, and so it goes
with its registrations: the bus is as it was, and the query is never evaluated again. -/

namespace ReactiveQuery

variable {K : Command → Prop}

/-- What a live query is asked for over: a collection, or values that make up a new one. -/
inductive Origin where
  | collection (r : Ref)
  | values (items : List Value)

namespace Origin

def places : Origin → List Nat
  | .collection r => [r.loc]
  | .values items => Value.placesOfItems items

def take : Origin → Act Ref
  | .collection r => pure r
  | .values items => Act.newCollection items

open Act.Discreet in
theorem discreet_take {M : Manner} {P : Nat → Prop} {n : Nat} {o : Origin}
    (known : Known P n o.places) : Act.Discreet M P n o.take fun m r => r.loc < m ∧ P r.loc := by
  cases o with
  | collection r => exact ret (Known.cons_iff.mp known).1
  | values items => exact newCollection known

/-- Taking a source never fails. -/
theorem exists_take (o : Origin) (w : World) :
    ∃ r u, o.take.on w = (.ok r, u) ∧ u.held = w.held := by
  cases o <;> exact ⟨_, _, rfl, rfl⟩

end Origin

/-- Asks for a live query, holding on to the source and the arguments. -/
def Act.dynamic (again : Reentry) (o : Origin) (text : String) (params : List Value) : Act Ref := do
  let source ← o.take
  holding (.collection source :: params) (live again.call again.dispatch source text params)

theorem Known.job_values {P : Nat → Prop} {n : Nat} {job : Job} (known : Known P n job.places) :
    Known P n (Value.placesOfItems job.values) := by
  cases job with
  | script => exact .nil
  | refresh result source d params =>
    obtain ⟨here, rest⟩ := Known.cons_iff.mp known
    exact Known.cons_iff.mpr ⟨here, (Known.append_iff.mp rest).1⟩

theorem Known.listener_values {P : Nat → Prop} {n : Nat} {l : Listener}
    (known : Known P n l.places) : Known P n (Value.placesOfItems l.values) := by
  cases l with
  | script => exact .nil
  | invalidate id route job => exact Known.job_values known

/-- A place that comes about is other than all that were there. -/
theorem Known.hide {n : Nat} {ls : List Nat} (known : Known (fun _ => True) n ls) :
    Known (· ≠ n) (n + 1) ls := fun l member =>
  ⟨Nat.lt_succ_of_lt (known l member).1, Nat.ne_of_lt (known l member).1⟩

namespace World

variable {P : Nat → Prop} {u v w : World}

namespace Within

/-- Whatever is held from outside the heap, other than by listeners, is known. -/
theorem outerRoots (knows : w.Within K P)
    (held : Known P w.heap.cells.size (Value.placesOfItems w.held)) :
    Known P w.heap.cells.size w.outerRoots := by
  unfold World.outerRoots
  refine Known.append_iff.mpr ⟨Known.items_iff.mpr ?_, Known.flatMap_iff.mpr knows.cache⟩
  simp only [List.forall_mem_append]
  refine ⟨⟨⟨fun v member => ?_, Known.items_iff.mp held⟩, fun v member => ?_⟩, fun v member => ?_⟩
  · obtain ⟨e, inside, rfl⟩ := List.mem_map.mp member
    exact knows.names e inside
  · obtain ⟨e, inside, member⟩ := List.mem_flatMap.mp member
    exact Known.items_iff.mp (knows.bus.jobs e inside).2.job_values v member
  · obtain ⟨e, inside, member⟩ := List.mem_flatMap.mp member
    have known := Known.append_iff.mp (knows.bus.events e inside)
    simp only [Event.values, List.mem_cons, List.not_mem_nil, or_false] at member
    rcases member with rfl | rfl
    · exact known.1
    · exact known.2

/-- A place that is unknown is held by nothing. -/
theorem onlyHeld (knows : w.Within K P) (held : w.held = []) {loc : Nat} (unknown : ¬P loc) :
    w.OnlyHeld loc [] where
  roots member := unknown (knows.outerRoots (held ▸ .nil) loc member).2
  listeners n _ member := by
    cases listens : w.bus.listeners[n]? with
    | none => simp [listens, Value.placesOfItems] at member
    | some l =>
      rw [listens] at member
      have known := (knows.bus.listeners l (Array.mem_of_getElem? listens)).2
      exact absurd (known.listener_values loc member).2 unknown
  cells k _ member := by
    cases here : w.heap.cell? k with
    | none => simp [here] at member
    | some cell =>
      rw [here] at member
      exact absurd (knows.heap.cells k cell here loc member).2 unknown

/-- Nobody knows of a collection that has just been made. -/
theorem hide (knows : w.Within K fun _ => True) :
    (w.withCell (.collection w.empty)).Within K (· ≠ w.heap.cells.size) := by
  have size : (w.withCell (.collection w.empty)).heap.cells.size = w.heap.cells.size + 1 :=
    Array.size_push _
  refine ⟨⟨fun l outside => ?_, fun l cell here => ?_⟩, ⟨fun l member => ?_, fun e member => ?_,
    fun e member => ?_⟩, fun e member => ?_, fun e member => ?_, fun e member => ?_⟩ <;>
      rw [size] at *
  · omega
  · rw [withCell, Heap.cell?_allocate] at here
    split at here
    · cases here
      exact .nil
    · exact (knows.heap.cells l cell here).hide
  · exact ⟨(knows.bus.listeners l member).1, (knows.bus.listeners l member).2.hide⟩
  · exact (knows.bus.events e member).hide
  · exact ⟨(knows.bus.jobs e member).1, (knows.bus.jobs e member).2.hide⟩
  · exact (knows.names e member).hide
  · exact (knows.weak e member).hide
  · exact (knows.cache e member).hide

end Within

/-- Nothing is held any more, and what nobody refers to goes. -/
def released (w : World) : World := World.sweep { w with held := [] }

theorem leads_released (w : World) : w.Leads w.released :=
  have lets : w.Inert { w with held := [] } := ⟨.refl _, rfl, rfl, rfl⟩
  lets.leads.trans (leads_sweep _)

theorem Thins.released (enrolled : w.Enrolled) : w.Thins w.released :=
  have lets : w.Inert { w with held := [] } := ⟨.refl _, rfl, rfl, rfl⟩
  have thins : w.Thins { w with held := [] } := .of_registry rfl rfl
  thins.trans (.sweep (lets.leads enrolled).1)

/-- A place that nobody knows goes. -/
theorem Within.dead_of_released (knows : w.Within K P) (enrolled : w.Enrolled) {loc : Nat}
    (unknown : ¬P loc) : w.released.heap.cell? loc = none := by
  have lets : w.Inert { w with held := [] } := ⟨.refl _, rfl, rfl, rfl⟩
  have knows' := knows.of_same (v := { w with held := [] }) rfl rfl rfl rfl
  have chain : World.Chain { w with held := [] } [loc] := ⟨knows'.onlyHeld rfl unknown, trivial⟩
  exact (lets.leads enrolled).1.dead_of_chain chain _ List.mem_cons_self

/-- Registrations are as they were if none came, none of a script went, and no live query went. -/
theorem Enrolled.on_eq (enrolled : w.Enrolled) (after : v.Enrolled) (later : w.Later v)
    (on : ∀ t, (v.bus.registry.on t).Sublist (w.bus.registry.on t))
    (scripts : ∀ t, ∀ n ∈ w.bus.registry.on t, w.bus.place? n = none → n ∈ v.bus.registry.on t)
    (keeps : ∀ q, w.Live q → v.Live q) (t : Topic) :
    v.bus.registry.on t = w.bus.registry.on t := by
  have stays : w.bus.registry.on t ⊆ v.bus.registry.on t := fun n here => by
    cases place : w.bus.place? n with
    | none => exact scripts t n here place
    | some loc =>
      obtain ⟨q, route, listens, rfl⟩ := enrolled.ranked.exists_of_place? place
      have retained := (enrolled.registered t n _ place).mp here
      have live : w.Live q := ⟨⟨n, route, listens⟩, List.ne_nil_of_mem retained⟩
      refine (after.registered t n _ (later.place? place)).mpr ?_
      rcases later.subscriptions n _ place with same | gone
      · rwa [same]
      · exact absurd gone (keeps q live).2
  exact (on t).eq_of_length_le ((enrolled.tidy.once t).subperm stays).length_le

section
variable {q : LiveQuery} {c : CollectionCell} (enrolled : w.Enrolled) (bare : w.Bare q.result c)
  (thins : (w.attached q c).Thins v)
include enrolled bare thins

/-- With its result a live query loses all that it registered. -/
theorem Bare.sublist_on (after : v.Enrolled) (dead : v.heap.cell? q.result.loc = none) (t : Topic) :
    (v.bus.registry.on t).Sublist (w.bus.registry.on t) := by
  have enlists := bare.enlists enrolled
  let other (n : Nat) : Bool := v.bus.place? n != some q.result.loc
  have kept : (v.bus.registry.on t).filter other = v.bus.registry.on t :=
    List.filter_eq_self.mpr fun n here => bne_iff_ne.mpr fun place =>
      after.not_mem_on_of_dead dead place t here
  have on := (thins.on t).filter other
  rw [kept, enlists.on, List.filter_append] at on
  have none : (((w.attached q c).heap.subscriptions q.result.loc |>.filter
      (·.topic = t)).map (·.listener)).filter other = [] := by
    refine List.filter_eq_nil_iff.mpr fun n member => ?_
    obtain ⟨s, among, rfl⟩ := List.mem_map.mp member
    have place := bare.owned_attached enrolled (List.mem_of_mem_filter among)
    rw [← place?_congr thins.listeners] at place
    simp [other, place]
  rw [none, List.append_nil] at on
  exact on.trans List.filter_sublist

theorem Bare.scripts_stay (t : Topic) : ∀ n ∈ w.bus.registry.on t, w.bus.place? n = none →
    n ∈ v.bus.registry.on t := fun n here none => by
  refine thins.scripts t n (enrolled.mem_on_attached.mpr (.inl here)) ?_
  refine Option.eq_none_iff_forall_ne_some.mpr fun loc place => ?_
  rcases bare.place?_attached enrolled place with ⟨before, -⟩ | ⟨high, -⟩
  · rw [none] at before
    cases before
  · exact absurd (enrolled.known t n here) (Nat.not_lt.mpr high)

end

/-- Nothing is left of a live query that was asked for: the bus is at rest with the listeners that it
had, in their order, and whoever has been listed meanwhile is never heard of again. -/
structure Traceless (w v : World) : Prop where
  on : ∀ t, v.bus.registry.on t = w.bus.registry.on t
  rested : v.bus.Rested
  never : ∀ q, v.bus.Lists q → ¬w.bus.Lists q → ∀ x, v.Comes x → ¬x.Registers q.result.loc ∧
    ∀ again : Reentry, (q.job.run again.call again.dispatch again.perform).on x = (.ok (), x.sweep)

/-- Where nothing was attached, nothing was listed. -/
theorem Traceless.of_thins (thins : w.Thins v) (enrolled : w.Enrolled) (after : v.Enrolled)
    (later : w.Later v) (keeps : ∀ q, w.Live q → v.Live q) (rested : v.bus.Rested) :
    w.Traceless v where
  on := enrolled.on_eq after later thins.on thins.scripts keeps
  rested := rested
  never q lists unlisted := by
    obtain ⟨n, route, listens⟩ := lists
    rw [thins.listeners] at listens
    exact absurd ⟨n, route, listens⟩ unlisted

/-- A live query whose result is dead leaves nothing behind. -/
theorem Traceless.of_bare {q : LiveQuery} {c : CollectionCell} (enrolled : w.Enrolled)
    (first : w.Thins u) (between : u.Enrolled) (bare : u.Bare q.result c)
    (thins : (u.attached q c).Thins v) (after : v.Enrolled) (later : w.Later v)
    (dead : v.heap.cell? q.result.loc = none) (keeps : ∀ q, w.Live q → v.Live q)
    (rested : v.bus.Rested) : w.Traceless v where
  on := enrolled.on_eq after later
    (fun t => (bare.sublist_on between thins after dead t).trans (first.on t))
    (fun t n here none => bare.scripts_stay between thins t n (first.scripts t n here none)
      (by rwa [place?_congr first.listeners])) keeps
  rested := rested
  never r lists unlisted x comes := by
    have same : r.result = q.result := by
      obtain ⟨n, route, listens⟩ := lists
      rw [thins.listeners] at listens
      rcases lists_attached ⟨n, route, listens⟩ with ⟨n, route, listens⟩ | ⟨same, -⟩
      · rw [first.listeners] at listens
        exact absurd ⟨n, route, listens⟩ unlisted
      · exact same
    exact after.forgets lists (same ▸ dead) comes

end World

theorem Act.has_dynamic {C : Conduct} {again : Reentry} (may : C.dispatches again.dispatch)
    (calls : ∀ e ctx args, C.Has (again.call e ctx args)) (o : Origin) (text : String)
    (params : List Value) : C.Has (dynamic again o text params) := by
  have taken : C.Has o.take := by
    cases o with
    | collection r => exact .ret r
    | values items => exact has_newCollection items
  exact .bind taken fun _ => .holding (has_live may calls _ _ _)

/-- The world in which a live query is attached: its result has been made and is held. -/
def World.ready (w : World) (source : Ref) (params : List Value) : World :=
  { w.withCell (.collection w.empty) with
    held := .collection w.nextRef :: .collection source :: params ++ w.held }

theorem World.bare_ready {w : World} (enrolled : w.Enrolled) (source : Ref)
    (params : List Value) : (w.ready source params).Bare w.nextRef w.empty :=
  (bare_withCell enrolled).holding _

namespace Act

variable {again : Reentry} {v w : World} {source : Ref} {text : String} {params : List Value}
  {e : Error}

/-- Attaching to a new result never fails, if it ends. -/
theorem attach_ready (enrolled : w.Enrolled) (source : Ref) (d : Definition)
    (params : List Value) :
    (attach w.nextRef source d params).on (w.ready source params) =
        (.error .endless, w.ready source params) ∨
      ∃ q : LiveQuery, q.result = w.nextRef ∧ q.source = source ∧ q.definition = d ∧
        q.params = params ∧ q.Derived ∧ (attach w.nextRef source d params).on
          (w.ready source params) = (.ok (), (w.ready source params).attached q w.empty) := by
  cases follows : Dependency.all (w.ready source params).heap source d params with
  | none => exact .inl (on_bind_error (by rw [on_ask, follows]; rfl))
  | some ds =>
    have bare := World.bare_ready enrolled source params
    let q : LiveQuery := ⟨w.nextRef, source, "", params, d, ds⟩
    exact .inr ⟨q, rfl, rfl, rfl, rfl, ⟨_, follows⟩, on_attach (q := q) bare.here rfl follows⟩

/-- Making a live query fails before there is a result, or when the result has been attached and is
refreshed for the first time. -/
theorem raised_of_live
    (fails : (live again.call again.dispatch source text params).on w = (.error (.raised e), v)) :
    (definition text).on w = (.error (.raised e), v) ∨
      ∃ (d : Definition) (u x : World), (definition text).Gives w d u ∧
        (do attach u.nextRef source d params
            batch again.dispatch (refresh again.call again.dispatch u.nextRef source d params)).on
          (u.ready source params) = (.error (.raised e), x) ∧ v = { x with held := u.held } := by
  rcases raised_bind fails with first | ⟨d, u, gives, rest⟩
  · exact .inl first
  · have made : (newCollection []).on u = (.ok u.nextRef, u.withCell (.collection u.empty)) := rfl
    rw [on_bind_ok made] at rest
    rcases raised_bind rest with holds | ⟨_, _, -, returned⟩
    · rw [on_holding] at holds
      obtain ⟨outcome, rfl⟩ := Prod.mk.inj holds
      exact .inr ⟨d, u, _, gives, Prod.ext outcome rfl, rfl⟩
    · cases returned

end Act

namespace World

/-- What a query is refreshed from may be told of a world with one more cell. -/
theorem Within.ready {w : World} (knows : w.Within K fun _ => True) (source : Ref)
    (params : List Value) : (w.ready source params).Within K (· ≠ w.heap.cells.size) :=
  knows.hide.of_same rfl rfl rfl rfl

end World

namespace Engine

variable {E : Engine (Scope.clean K)} {v w : World}

/-- The worlds that come about when programs run one after the other, each until it ends, and none
of them refers to a place that there is not. -/
inductive Wends (E : Engine (Scope.clean K)) : World → Prop
  | start {setup : Setup} {w : World} (started : World.start setup = .ok w) : Wends E w
  | step {α : Type} {act : Act α} {w v : World} (wends : Wends E w)
    (made : act.Made (Scope.clean K) E.Dispatches) (proper : act.Proper)
    (discreet : act.Discreet (.any K) (fun _ => True) w.heap.cells.size fun _ _ => True)
    (leaves : act.Leaves w v) : Wends E v

theorem Wends.runs (wends : E.Wends w) : E.Runs w := by
  induction wends with
  | start started => exact .start started
  | step _ made proper _ leaves ih => exact ih.step made proper leaves

theorem within_start {setup : Setup} (started : World.start setup = .ok w) :
    w.Within K fun _ => True := by
  obtain ⟨known, serial, rfl⟩ := World.start_same started
  exact ⟨⟨fun _ _ => trivial, fun l cell here => by simp [Heap.cell?] at here⟩,
    ⟨by simp, fun _ => (absurd · List.not_mem_nil), fun _ => (absurd · List.not_mem_nil)⟩,
    fun _ => (absurd · List.not_mem_nil), fun _ => (absurd · List.not_mem_nil),
    fun _ => (absurd · List.not_mem_nil)⟩

/-- Whatever is held leads to a place that there is. -/
theorem Wends.within (wends : E.Wends w) : w.Within K fun _ => True := by
  induction wends with
  | start started => exact within_start started
  | @step _ _ w _ _ _ _ discreet leaves ih =>
    obtain ⟨r, outcome, -⟩ := leaves
    have goes := (discreet w rfl ih).1
    rw [outcome] at goes
    exact goes.knows

section
variable (still : E.Discreet (.still K)) {base x : World} (enrolled : base.Enrolled)
  (begun : base.Proceeds (.still K) (fun _ => True) w) {depth : Nat} {source : Ref} {text : String}
  {params : List Value} {e : Error}
  (ctx : Known (fun _ => True) w.heap.cells.size (Context.mk source params).places)
  (keeps : ∀ q, base.Live q → x.released.Live q) (rested : x.released.bus.Rested)
include still enrolled begun ctx keeps rested

/-- A first refresh that fails lets go of the result, which nobody has come to know. -/
theorem traceless_of_ready {d : Definition}
    (known : Known (fun _ => True) w.heap.cells.size d.places)
    (fails : (do
      Act.attach w.nextRef source d params
      Act.batch (E.within depth).dispatch (Act.refresh (E.within depth).call
        (E.within depth).dispatch w.nextRef source d params)).on (w.ready source params) =
          (.error (.raised e), x)) : base.Traceless x.released := by
  have again := still.within depth
  obtain ⟨⟨before, later⟩, thins⟩ := begun.goes enrolled
  have size : (w.ready source params).heap.cells.size = w.heap.cells.size + 1 := Array.size_push _
  -- The result has its place from here on, and all that is known are other places.
  have hidden := begun.knows.ready source params
  have held := known.hide
  have arguments := ctx.hide
  rcases Act.attach_ready before source d params with
    endless | ⟨q, result, rfl, rfl, rfl, derived, attaches⟩
  · rw [Act.on_bind_error endless] at fails
    cases fails
  · have inert : (w.withCell (.collection w.empty)).Inert (w.ready q.source q.params) :=
      ⟨.refl _, rfl, rfl, rfl⟩
    have readies : w.Leads (w.ready q.source q.params) :=
      (World.leads_withCell w rfl).trans inert.leads
    obtain ⟨between, later₁⟩ := readies before
    have bare := World.bare_ready before q.source q.params
    rw [← result] at bare attaches fails
    obtain ⟨attached, later₂⟩ := bare.leads_attached derived between
    obtain ⟨goes, -⟩ := Act.Discreet.attach (K := K) q.result held arguments
      (w.ready q.source q.params) size hidden
    rw [attaches] at goes
    rw [Act.on_bind_ok attaches] at fails
    have more := size ▸ goes.size
    obtain ⟨runs, -⟩ := Act.Discreet.batch (again.dispatch _) (fun m further =>
      Act.Discreet.refresh (again.call _) (again.dispatch _) q.result
        (held.later (Nat.le_trans more further)) (arguments.later (Nat.le_trans more further)))
      (fun _ _ _ _ => id) _ rfl goes.knows
    rw [fails] at runs
    obtain ⟨⟨after, later₃⟩, thins₃⟩ := runs.goes attached
    obtain ⟨after', later₄⟩ := x.leads_released after
    have unknown : ¬q.result.loc ≠ w.heap.cells.size := by simp [result, World.nextRef]
    have begins : base.Thins (w.ready q.source q.params) := thins.trans (.of_registry rfl rfl)
    exact .of_bare enrolled begins between bare (thins₃.trans (.released after)) after'
      (later.trans (later₁.trans (later₂.trans (later₃.trans later₄))))
      (runs.knows.dead_of_released after unknown) keeps rested

/-- However making a live query fails, nothing is left of it. -/
theorem traceless_of_live
    (fails : (Act.live (E.within depth).call (E.within depth).dispatch source text params).on w =
      (.error (.raised e), x)) : base.Traceless x.released := by
  have defines :=
    Act.Discreet.definition (M := .still K) (P := fun _ => True) text w rfl begun.knows
  rcases Act.raised_of_live fails with failed | ⟨d, u, x', gives, refreshes, rfl⟩
  · rw [failed] at defines
    obtain ⟨⟨before, later⟩, thins⟩ := (begun.trans defines.1).goes enrolled
    obtain ⟨after, later'⟩ := x.leads_released before
    exact .of_thins (thins.trans (.released before)) enrolled after (later.trans later') keeps
      rested
  · rw [gives.on] at defines
    obtain ⟨goes, given⟩ := defines
    exact traceless_of_ready (x := x') still enrolled (begun.trans goes) (ctx.later goes.size) keeps
      rested (given d rfl) refreshes

end

/-- Failing to make a live query leaves no trace.  Extension functions and callbacks may write
records and collections, as long as they make no handles up, register nothing and undo nothing,
and no live query is let go of that there was; then, whatever fails, from the text of the query to
the dispatch that follows the first refresh, the bus is at rest afterwards with the listeners that it
had, each topic's in their order, and the query is never evaluated again. -/
theorem Wends.traceless (still : E.Discreet (.still K)) (proper : E.Proper) (wends : E.Wends w)
    (outermost : w.held = []) (depth : Nat) {o : Origin} {text : String} {params : List Value}
    {e : Error} (origin : Known (fun _ => True) w.heap.cells.size o.places)
    (arguments : Known (fun _ => True) w.heap.cells.size (Value.placesOfItems params))
    (fails : (Act.dynamic (E.within depth) o text params).on w = (.error (.raised e), v))
    (keeps : ∀ q, w.Live q → v.sweep.Live q) : w.Traceless v.sweep := by
  have enrolled := wends.runs.enrolled
  have made := (E.made_dispatches depth).allows
  have within := proper.within depth
  have ends : E.Visits v := wends.runs.visits.step
    (Act.has_dynamic (C := .made _ _) made.dispatch made.call o text params)
    (Act.leaves_of_raised fails)
  have settles : Act.settle.Made (Scope.clean K) E.Dispatches := .own .settle
  have swept : E.Visits v.sweep := ends.step settles (Act.leaves_self nofun)
  obtain ⟨orderly, idle, quiet⟩ := swept.orderly
  have rested := orderly.rested idle quiet
  obtain ⟨source, u, takes, holds⟩ := o.exists_take w
  obtain ⟨begun, given⟩ := Origin.discreet_take (M := .still K) origin w rfl wends.within
  rw [takes] at begun given
  rw [Act.dynamic, Act.on_bind_ok takes, Act.on_holding] at fails
  have enter : u.Proceeds (.still K) (fun _ => True)
      { u with held := .collection source :: params ++ u.held } :=
    ⟨Nat.le_refl _, begun.knows.of_same rfl rfl rfl rfl,
      (Manner.still K).step (World.Inert.leads ⟨.refl _, rfl, rfl, rfl⟩) rfl rfl⟩
  rcases ran : (Act.live (E.within depth).call (E.within depth).dispatch source text params).on
    { u with held := .collection source :: params ++ u.held } with ⟨r, x⟩
  rw [ran, holds, outermost] at fails
  obtain ⟨rfl, rfl⟩ := Prod.mk.inj fails
  exact traceless_of_live still enrolled (begun.trans enter)
    (Known.cons_iff.mpr ⟨given source rfl, arguments.later begun.size⟩) keeps rested ran

section
variable {closed : (Scope.clean K).Closed} (modest : ∀ c, K c → c.Modest)
include modest

/-- A modest command from outside that ends leads from one such world to another. -/
theorem Wends.next (wends : (standard closed).Wends w) {c : Command} (may : K c) :
    (standard closed).Wends (w.next c) := by
  unfold World.next
  cases performs : w.perform c with
  | none => exact wends
  | some result =>
    have made := ((standard closed).made_dispatches 20000).perform c may
    have discreet := (discreet_standard (M := .any K) closed modest).within 20000
    rw [within_standard] at made discreet
    exact wends.step made ((Reentry.proper_within 20000).perform c trivial)
      ((discreet.perform _ _ c may).mono fun _ _ _ _ => trivial) (World.leaves_of_perform performs)

theorem Wends.play (wends : (standard closed).Wends w) {cs : List Command} (may : ∀ c ∈ cs, K c) :
    (standard closed).Wends (w.play cs) := by
  induction cs generalizing w with
  | nil => exact wends
  | cons c cs ih =>
    obtain ⟨first, others⟩ := List.forall_mem_cons.mp may
    exact ih (wends.next modest first) others

end

theorem Wends.name (wends : E.Wends w) (name : String) {x : Value}
    (known : Known (fun _ => True) w.heap.cells.size x.places) :
    E.Wends ((Act.bindName name x).on w).2 := by
  have has : ∀ C : Conduct, C.Has (Act.bindName name x) := fun _ =>
    Act.has_changeDesk (fun _ => rfl) fun _ => rfl
  exact wends.step (has (.made _ _)) (has .proper) (Act.Discreet.bindName name known)
    (Act.leaves_self nofun)

theorem Wends.live (wends : E.Wends w) (any : E.Discreet (.any K)) (proper : E.Proper)
    {depth : Nat} {source result : Ref} {text : String} {params : List Value}
    (ctx : Known (fun _ => True) w.heap.cells.size (Context.mk source params).places)
    (gives : (Act.live (E.within depth).call (E.within depth).dispatch source text params).Gives w
      result v) : E.Wends v := by
  have made := (E.made_dispatches depth).allows
  have within := proper.within depth
  exact wends.step (Act.has_live made.dispatch made.call source text params)
    (Act.has_live (C := .proper) within.dispatch within.call source text params)
    ((Act.Discreet.live (any.within depth) text ctx).mono fun _ _ _ _ => trivial) gives.leaves

theorem Wends.subscribe (wends : E.Wends w) (again : Reentry) (listener : String)
    (target : Target) (key : Option EventKey) {actions : List Command}
    (allowed : ∀ c ∈ actions, K c) {reply : Reply}
    (gives : ((Command.subscribe listener target key actions).perform again).Gives w reply v) :
    E.Wends v :=
  wends.step (.own (.register again listener target key allowed))
    (Act.Proper.subscribe again listener target key actions)
    (Command.discreet_subscribe again listener target key allowed) gives.leaves

end Engine

namespace Fruitless

/-- A query that changes what it reads, and one that does not. -/
def setup : Setup where
  maxNotifyCycles := 2
  queries := [
    ("grow", { filter := some (.tagged "and"
      [.call "bump" [.path .here [], .literal (.text "n")],
        .tagged "gte" [.path .here [.key (.text "n")], .literal (.number .zero)]]) }),
    ("seen", { filter := some (.tagged "gte"
      [.path .here [.key (.text "n")], .literal (.number .zero)]) })]
  extensions := [("bump", .bump)]

def engine : Engine (Scope.clean Command.Modest) := .standard Command.closed_modest

def start : World := (World.start setup).toOption.getD {}

/-- A record with a number, in a collection, and another collection. -/
def counter : World := start.play
  [.bind "r" (.newRecord [("n", .number .zero)] none),
    .bind "s" (.newCollection [.named "r"] none), .bind "t" (.newCollection [] none)]

def watch : Act Ref := Act.live (engine.within 8).call (engine.within 8).dispatch ⟨1, 2⟩ "seen" []

def named : World := ((Act.bindName "a" (.collection ⟨3, 4⟩)).on (watch.on counter).2).2

/-- A callback that counts the changes of numbers. -/
def listen : Act Reply :=
  (Command.subscribe "L" .all (some (.field "n")) [.onCollection "t" (.push .null)]).perform
    (engine.within 8)

def heard : World := (listen.on named).2

def grow : Act Ref := Act.dynamic (engine.within 8) (.collection ⟨1, 2⟩) "grow" []

/-- What is raised. -/
def error? : Except Fault Ref → Option Error
  | .error (.raised e) => some e
  | _ => none

theorem fails_of_error? {act : Act Ref} {w : World} {e : Error}
    (tells : error? (act.on w).1 = some e) :
    act.on w = (.error (.raised e), (act.on w).2) := by
  unfold error? at tells
  split at tells
  · next same => exact Prod.ext (same.trans (by rw [Option.some.inj tells])) rfl
  · cases tells

theorem course : ((watch.on counter).1.toOption = some ⟨3, 4⟩ ∧
      (watch.on counter).2.heap.cells.size = 4 ∧ counter.heap.cells.size = 3) ∧
    (listen.on named).1.toOption.isSome = true ∧ heard.held.isEmpty = true ∧
    heard.heap.cells.size = 4 ∧ error? (grow.on heard).1 = some (.cycleOverrun 2) ∧
    ∀ n < heard.bus.listeners.size, ∀ loc ∈ heard.bus.place? n,
      (grow.on heard).2.sweep.heap.subscriptions loc ≠ [] := by
  decide +kernel

theorem proper : engine.Proper := Engine.proper_standard Command.closed_modest

theorem discreet (M : Manner) (modest : ∀ c, M.commands c → c.Modest) : engine.Discreet M :=
  Engine.discreet_standard Command.closed_modest modest

theorem wends_heard : engine.Wends heard := by
  obtain ⟨⟨watches, size, size'⟩, listens, -⟩ := course
  have begun : engine.Wends start := .start (show World.start setup = .ok _ from rfl)
  have played : engine.Wends counter := begun.play (fun _ => id)
    (Command.allModest_iff.mp ⟨trivial, trivial, trivial, trivial⟩)
  have source : Known (fun _ => True) counter.heap.cells.size (Context.mk ⟨1, 2⟩ []).places := by
    rw [size']
    exact Known.cons_iff.mpr ⟨⟨by decide, trivial⟩, .nil⟩
  have watched : engine.Wends (watch.on counter).2 :=
    played.live (discreet _ fun _ => id) proper source (Act.gives_of_toOption watches)
  have result : Known (fun _ => True) (watch.on counter).2.heap.cells.size
      (Value.collection ⟨3, 4⟩).places := by
    rw [size]
    exact Known.cons_iff.mpr ⟨⟨by decide, trivial⟩, .nil⟩
  have bound : engine.Wends named := watched.name "a" result
  obtain ⟨reply, replies⟩ := Option.isSome_iff_exists.mp listens
  have allowed : ∀ c ∈ [Command.onCollection "t" (.push .null)], c.Modest :=
    List.forall_mem_singleton.mpr trivial
  exact bound.subscribe (engine.within 8) "L" .all _ allowed (Act.gives_of_toOption replies)

theorem later_grow : heard.Later (grow.on heard).2.sweep := by
  have within := proper.within 8
  have grows : grow.Proper := Act.has_dynamic (C := .proper) within.dispatch within.call _ _ _
  obtain ⟨after, later⟩ := grows heard wends_heard.runs.enrolled
  exact later.trans (World.leads_sweep _ after).2

/-- The query exceeds the cycles, with its result attached and the callback writing along.  The
callback and the other live query are heard as before. -/
theorem traceless_grow : ∃ v, grow.on heard = (.error (.raised (.cycleOverrun 2)), v) ∧
    heard.Traceless v.sweep := by
  obtain ⟨-, -, outermost, size, raises, stays⟩ := course
  have origin : Known (fun _ => True) heard.heap.cells.size (Origin.collection ⟨1, 2⟩).places := by
    rw [size]
    exact Known.cons_iff.mpr ⟨⟨by decide, trivial⟩, .nil⟩
  have keeps : ∀ q, heard.Live q → (grow.on heard).2.sweep.Live q := fun q live => by
    obtain ⟨⟨n, route, listens⟩, -⟩ := live
    have place := Bus.place?_of_listeners listens
    exact ⟨later_grow.lists ⟨n, route, listens⟩, stays n (Bus.lt_size_of_place? place) _ place⟩
  exact ⟨_, fails_of_error? raises, wends_heard.traceless (discreet _ fun _ => id) proper
    (List.isEmpty_iff.mp outermost) 8 origin .nil (fails_of_error? raises) keeps⟩

end Fruitless

end ReactiveQuery
