import ReactiveQuery.Proofs.Handle.Evaluation
import ReactiveQuery.Proofs.Session.Write

/-! Writes and dispatch.  What is written, told and run comes from what is known, so whatever a
dispatch sets going, places that were hidden before it are hidden after it. -/

namespace ReactiveQuery

variable {M : Manner} {P : Nat → Prop} {n : Nat}

theorem Queue.mem_events {q : Queue} {e : Event} : e ∈ q.events ↔ some e ∈ q.slots := by
  simp [events]

/-- A queue comes to hold what it held and what is queued. -/
theorem Known.enqueue {q : Queue} {e : Event} (waiting : ∀ x ∈ q.events, Known P n x.places)
    (known : Known P n e.places) : ∀ x ∈ (q.enqueue e).events, Known P n x.places := by
  unfold Queue.enqueue
  split
  · intro x member
    rcases Array.mem_push.mp (Queue.mem_events.mp member) with old | new
    · exact waiting x (Queue.mem_events.mpr old)
    · rwa [Option.some.inj new]
  · next i _ =>
    split
    · exact waiting
    · next old found =>
      have before : Known P n old.places :=
        have slot := Array.mem_of_getElem? (Option.join_eq_some_iff.mp found)
        waiting old (Queue.mem_events.mpr slot)
      split
      · intro x member
        rcases Array.mem_or_eq_of_mem_setIfInBounds (Queue.mem_events.mp member) with same | none
        · exact waiting x (Queue.mem_events.mpr same)
        · cases none
      · intro x member
        rcases Array.mem_or_eq_of_mem_setIfInBounds (Queue.mem_events.mp member) with same | new
        · exact waiting x (Queue.mem_events.mpr same)
        · rw [Option.some.inj new]
          exact Known.append_iff.mpr
            ⟨(Known.append_iff.mp known).1, (Known.append_iff.mp before).2⟩

namespace Heap.Within

variable {h : Heap}

theorem setField (knows : h.Within P) (r : Ref) (key : String) {v : Value}
    (known : Known P h.cells.size v.places) : (h.setField r key v).Within P := by
  unfold Heap.setField
  split
  · next c found =>
    refine knows.put r.loc (Known.fields_iff.mpr fun e member => ?_)
    have here := knows.cells _ _ (Heap.record?_eq_some.mp found)
    rcases FieldMap.mem_values_update (List.mem_map.mpr ⟨e, member, rfl⟩) with same | old
    · rwa [same]
    · obtain ⟨e', before, same⟩ := List.mem_map.mp old
      exact same ▸ Known.fields_iff.mp here e' before
  · exact knows

theorem setItems (knows : h.Within P) (r : Ref) {vs : List Value}
    (known : Known P h.cells.size (Value.placesOfItems vs)) : (h.setItems r vs).Within P := by
  unfold Heap.setItems
  split
  · next c found =>
    have here := knows.cells _ _ (Heap.collection?_eq_some.mp found)
    exact knows.put r.loc (Known.append_iff.mpr ⟨known, (Known.append_iff.mp here).2⟩)
  · exact knows

theorem setRetained (knows : h.Within P) (r : Ref) {retained : Retained}
    (known : Known P h.cells.size (Value.placesOfItems retained.values)) :
    (h.setRetained r retained).Within P := by
  unfold Heap.setRetained
  split
  · next c found =>
    have here := knows.cells _ _ (Heap.collection?_eq_some.mp found)
    exact knows.put r.loc (Known.append_iff.mpr ⟨(Known.append_iff.mp here).1, known⟩)
  · exact knows

end Heap.Within

/-- A change of items comes to known ones. -/
theorem ItemChange.Draws.known {f : ItemChange} {values items new out : List Value}
    (draws : f.Draws values) (given : Known P n (Value.placesOfItems values))
    (held : Known P n (Value.placesOfItems items)) (made : f items = .ok (new, out)) :
    Known P n (Value.placesOfItems new) ∧ Known P n (Value.placesOfItems out) := by
  obtain ⟨drawn, taken⟩ := draws items new out made
  rw [Known.items_iff] at given held
  refine ⟨Known.items_iff.mpr fun x member => ?_, Known.items_iff.mpr fun x member =>
    held x (taken x member)⟩
  rcases drawn x member with old | new | rfl
  · exact held x old
  · exact given x new
  · exact .nil

theorem changeEvents_known (id old new : Nat) :
    ∀ e ∈ changeEvents id old new, Known P n e.places := by
  intro e member
  unfold changeEvents at member
  split at member <;>
    simp only [List.mem_cons, List.not_mem_nil, or_false] at member
  · subst member
    exact .nil
  · rcases member with rfl | rfl <;> exact .nil

open Act.Discreet

namespace Act.Discreet

variable {α : Type} {Q : Nat → α → Prop}

/-- Cells are written, and what they retain stays. -/
theorem changeHeap {change : Heap → Heap} (proper : (Act.changeHeap change).Proper)
    (size : ∀ h, (change h).cells.size = h.cells.size)
    (step : ∀ h : Heap, h.cells.size = n → h.Within P → (change h).Within P) :
    Discreet M P n (Act.changeHeap change) fun _ _ => True := fun w at_ knows =>
  have more := Nat.le_of_eq (size w.heap).symm
  ⟨⟨more, knows.withHeap more (step w.heap at_ knows.heap), M.step (proper w) rfl rfl⟩,
    fun _ _ => trivial⟩

/-- An event is queued if somebody listens. -/
theorem arrive {e : Event} (known : Known P n e.places) :
    Discreet M P n (Act.changeBus fun b =>
      if e.new.strictEq e.old || !b.registry.hasListeners e.target e.key then b
      else { b with queue := b.queue.enqueue e }) fun _ _ => True := by
  refine changeBus (fun b => ?_) (fun b => ?_) (fun b => ?_) fun b knows => ?_ <;> split
  · rfl
  · rfl
  · rfl
  · rfl
  · exact Nat.le_refl _
  · exact Nat.le_refl _
  · exact knows
  · exact ⟨knows.listeners, Known.enqueue knows.events known, knows.jobs⟩

theorem enqueueAll {es : List Event} (known : ∀ e ∈ es, Known P n e.places) :
    Discreet M P n (Act.enqueueAll es) fun _ _ => True := by
  induction es generalizing n with
  | nil => exact ret trivial
  | cons e es ih =>
    obtain ⟨first, others⟩ := List.forall_mem_cons.mp known
    exact (settle.seq fun _ _ more => arrive (first.later more)).holding _ |>.seq
      fun _ _ more => ih fun e member => (others e member).later more

section
variable {dispatch : Act Unit} (dispatches : ∀ m, Discreet M P m dispatch fun _ _ => True)
include dispatches

theorem publishAll {es : List Event} (known : ∀ e ∈ es, Known P n e.places) :
    Discreet M P n (Act.publishAll dispatch es) fun _ _ => True :=
  (enqueueAll known).seq fun m _ _ => dispatches m

theorem report (sink : Sink) {es : List Event} (known : ∀ e ∈ es, Known P n e.places) :
    Discreet M P n (Act.report dispatch sink es) fun _ _ => True := by
  cases sink with
  | silent => exact ret trivial
  | bus => exact publishAll dispatches known
  | log => exact forM fun e _ m _ => log _
  | refusing =>
    cases es with
    | nil => exact ret trivial
    | cons e es => exact (log _).seq fun _ _ _ => raise _

/-- A batch is as discreet as what it holds. -/
theorem batch {body : Act α} (inner : ∀ m, n ≤ m → Discreet M P m body Q)
    (stays : ∀ m k a, m ≤ k → Q m a → Q k a) : Discreet M P n (Act.batch dispatch body) Q := by
  refine world fun w _ _ => ?_
  split
  · exact inner n (Nat.le_refl n)
  · exact (flag true).seq fun m _ more => (inner m more).attempt.bind fun k result _ given =>
      (flag false).seq fun _ _ further => (dispatches _).seq fun _ _ further' =>
        ofExcept fun a same => stays k _ a (Nat.le_trans further further') (given a same)

theorem setField (r : Ref) (key : String) {v : Value} (known : Known P n v.places) :
    Discreet M P n (r.setField dispatch key v) fun _ _ => True := by
  refine world fun w size knows => ?_
  split
  · next c found =>
    split
    · exact raise _
    · next old field =>
      have here := knows.heap.cells _ _ (Heap.record?_eq_some.mp found)
      have before : Known P n old.places :=
        size ▸ Known.fields_iff.mp here _ (FieldMap.mem_of_get? field)
      split
      · exact ret trivial
      · refine (changeHeap (.setField r key v) (fun h => h.size_setField r key v)
          fun h at_ knows => knows.setField r key (at_ ▸ known)).seq fun m _ more =>
            report dispatches c.sink (List.forall_mem_singleton.mpr ?_)
        exact Known.append_iff.mpr ⟨known.later more, before.later more⟩
  · exact ret trivial

/-- What a change of items takes out was known before. -/
theorem change (r : Ref) {f : ItemChange} {values : List Value} (draws : f.Draws values)
    (given : Known P n (Value.placesOfItems values)) :
    Discreet M P n (r.change dispatch f) fun m out => Known P m (Value.placesOfItems out) := by
  refine world fun w size knows => ?_
  split
  · next c found =>
    have held : Known P n (Value.placesOfItems c.items) := size ▸
      (Known.append_iff.mp (knows.heap.cells _ _ (Heap.collection?_eq_some.mp found))).1
    refine (ofExcept (Q := fun m x => Known P m (Value.placesOfItems x.1) ∧
      Known P m (Value.placesOfItems x.2)) fun x made => draws.known given held made).bind
        fun m x more known => ?_
    obtain ⟨items, out⟩ := x
    refine (changeHeap (.setItems r items) (fun h => h.size_setItems r items)
      fun h at_ knows => knows.setItems r (at_ ▸ known.1)).seq fun k _ further => ?_
    refine ((report dispatches c.sink (changeEvents_known _ _ _)).holding out).seq
      fun _ _ further' => ret ?_
    exact known.2.later (Nat.le_trans further further')
  · exact ret .nil

theorem sortItems (r : Ref) (ascending : Bool) :
    Discreet M P n (r.sortItems dispatch ascending) fun _ _ => True := by
  refine (ask (Q := fun m sorted => Known P m (Value.placesOfItems sorted))
    fun h size knows sorted found => ?_).bind fun m sorted _ known => ?_
  · refine Known.items_iff.mpr fun v member => size ▸ Known.items_iff.mp (knows.items r) v ?_
    exact (mergeSortBy_map _ id (fun _ _ _ _ _ => id) found).2 v member
  · exact (change dispatches r (ItemChange.draws_replaceAll sorted) known).seq
      fun _ _ _ => ret trivial

theorem setAttr (key : String) {v : Value} (known : Known P n v.places) (items : List Value) :
    Discreet M P n (Ref.setAttr dispatch key v items) fun _ _ => True := by
  induction items generalizing n with
  | nil => exact ret trivial
  | cons item rest ih =>
    have others : ∀ m, n ≤ m → Discreet M P m (Ref.setAttr dispatch key v rest) fun _ _ => True :=
      fun m more => ih (known.later more)
    cases item with
    | record r =>
      refine world fun w _ _ => ?_
      split
      · exact ((setField dispatches r key known).holding _).seq fun m _ more => others m more
      · exact others n (Nat.le_refl n)
    | _ => exact others n (Nat.le_refl n)

end

/-- The place of a new cell is known to whoever has made it. -/
theorem allocate (id : Nat) {cell : Cell} (known : Known P n cell.places)
    (bare : cell.subscriptions = []) :
    Discreet M P n (Act.onHeap (·.allocate id cell)) fun m r => r.loc < m ∧ P r.loc :=
  onHeap (fun h => .allocate h id bare) fun _ size knows =>
    ⟨knows.allocate id (size ▸ known),
      Nat.lt_of_lt_of_eq (Nat.lt_succ_self _) (Array.size_push _).symm, knows.new_place.2⟩

theorem newRecord {fields : FieldMap Value} (known : Known P n (Value.placesOfFields fields)) :
    Discreet M P n (Act.newRecord fields) fun m r => r.loc < m ∧ P r.loc :=
  nextId.seq fun _ id more => allocate id (known.later more) rfl

theorem newCollection {items : List Value} (known : Known P n (Value.placesOfItems items)) :
    Discreet M P n (Act.newCollection items) fun m r => r.loc < m ∧ P r.loc :=
  nextId.seq fun _ id more =>
    allocate id (Known.append_iff.mpr ⟨known.later more, .nil⟩) rfl

theorem isAlive (r : Ref) : Discreet M P n (Act.isAlive r) fun _ _ => True :=
  settle.seq fun _ _ _ => world fun _ _ _ => ret trivial

section
variable {call : Caller} (calls : call.Discreet M P)
include calls

theorem refresh {dispatch : Act Unit} (dispatches : ∀ m, Discreet M P m dispatch fun _ _ => True)
    (result : Ref) {source : Ref} {d : Definition} {params : List Value}
    (known : Known P n d.places) (ctx : Known P n (Context.mk source params).places) :
    Discreet M P n (Act.refresh call dispatch result source d params) fun _ _ => True := by
  refine world fun w size knows => holding _ ?_
  have held : Known P n (Value.placesOfItems (w.heap.items source)) :=
    size ▸ knows.heap.items source
  exact (Definition.discreet_execute calls known ctx held).bind fun m rows _ given =>
    (change dispatches result (ItemChange.draws_replaceAll rows) given).seq fun _ _ _ => ret trivial

theorem query {source : Ref} (text : String) {params : List Value}
    (ctx : Known P n (Context.mk source params).places) :
    Discreet M P n (Act.query call source text params) fun m r => r.loc < m ∧ P r.loc := by
  refine (definition text).bind fun m d more known => world fun w size knows => ?_
  have held : Known P m (Value.placesOfItems (w.heap.items source)) :=
    size ▸ knows.heap.items source
  exact ((Definition.discreet_execute calls known (ctx.later more) held).holding _).bind
    fun _ _ _ given => newCollection given

end

end Act.Discreet

/-- What may be started again makes up no handles, whichever are hidden. -/
structure Reentry.Discreet (M : Manner) (again : Reentry) : Prop where
  call : ∀ P, Caller.Discreet M P again.call
  dispatch : ∀ P n, Act.Discreet M P n again.dispatch fun _ _ => True
  perform : ∀ P n c, M.commands c → Act.Discreet M P n (again.perform c) fun m reply =>
    Known P m reply.places

namespace Act.Discreet

/-- Jobs come to wait that are known. -/
theorem reschedule {change : Bus → Scheduler Job} (jobs : ∀ b, b.Within M.commands P n →
    ∀ e ∈ (change b).marked ++ (change b).running,
      (Scope.clean M.commands).Admits e.2 ∧ Known P n e.2.places) :
    Discreet M P n (Act.changeBus fun b => { b with scheduler := change b }) fun _ _ => True :=
  changeBus (fun _ => rfl) (fun _ => rfl) (fun _ => Nat.le_refl _) fun b knows =>
    ⟨knows.listeners, knows.events, jobs b knows⟩

theorem mark (id : Nat) {job : Job} (admits : (Scope.clean M.commands).Admits job)
    (known : Known P n job.places) :
    Discreet M P n (Act.changeBus fun b => { b with scheduler := (b.scheduler.mark id job).2 })
      fun _ _ => True := by
  refine reschedule fun b knows e member => ?_
  unfold Scheduler.mark at member
  split at member
  · exact knows.jobs e member
  · simp only [List.mem_append, List.mem_singleton] at member
    rcases member with (old | rfl) | running
    · exact knows.jobs e (List.mem_append_left _ old)
    · exact ⟨admits, known⟩
    · exact knows.jobs e (List.mem_append_right _ running)

theorem takeEvents :
    Discreet M P n (Act.changeBus ({ · with queue := {} })) fun _ _ => True :=
  changeBus (fun _ => rfl) (fun _ => rfl) (fun _ => Nat.le_refl _) fun _ knows =>
    ⟨knows.listeners, fun _ => (absurd · List.not_mem_nil), knows.jobs⟩

theorem clear :
    Discreet M P n (Act.changeBus ({ · with queue := {}, scheduler := {} })) fun _ _ => True :=
  changeBus (fun _ => rfl) (fun _ => rfl) (fun _ => Nat.le_refl _) fun _ knows =>
    ⟨knows.listeners, fun _ => (absurd · List.not_mem_nil), fun _ => (absurd · List.not_mem_nil)⟩

end Act.Discreet

section
variable {perform : Command → Act Reply} (performs : ∀ n c, M.commands c →
  Act.Discreet M P n (perform c) fun m reply => Known P m reply.places)
include performs

namespace Act.Discreet

theorem performAll (name : String) {cs : List Command} (allowed : ∀ c ∈ cs, M.commands c) :
    Discreet M P n (Act.performAll perform name cs) fun _ _ => True := by
  induction cs generalizing n with
  | nil => exact ret trivial
  | cons c cs ih =>
    obtain ⟨first, others⟩ := List.forall_mem_cons.mp allowed
    refine (performs n c first).attempt.seq fun m result _ => ?_
    cases result with
    | ok reply => exact (log _).seq fun _ _ _ => ih others
    | error e => exact (log _).seq fun _ _ _ => ih others

theorem performJob (name : String) {cs : List Command} (allowed : ∀ c ∈ cs, M.commands c) :
    Discreet M P n (Act.performJob perform name cs) fun _ _ => True := by
  induction cs generalizing n with
  | nil => exact ret trivial
  | cons c cs ih =>
    obtain ⟨first, others⟩ := List.forall_mem_cons.mp allowed
    exact (performs n c first).seq fun _ reply _ => (log _).seq fun _ _ _ => ih others

theorem hear (e : Event) {l : Listener} (hears : (Scope.clean M.commands).Hears l)
    (known : Known P n l.places) :
    Discreet M P n (l.hear perform e) fun _ _ => True := by
  cases l with
  | script name members actions =>
    have concerns : ∀ (m : Nat) (concerned : Bool), Discreet M P m (do
        if concerned then
          Act.log (.heard name e)
          Act.performAll perform name actions) fun _ _ => True := fun m concerned => by
      split
      · exact (log _).seq fun _ _ _ => performAll performs name hears
      · exact ret trivial
    unfold Listener.hear
    cases members with
    | none => exact (ret (Q := fun _ _ => True) trivial).seq fun m _ _ => concerns m _
    | some r =>
      exact (isAlive r).seq fun _ _ _ => world fun _ _ _ =>
        (ret (Q := fun _ _ => True) trivial).seq fun m _ _ => concerns m _
  | invalidate id route job => exact ite (mark id hears known) (ret trivial)

/-- What is told comes from the bus. -/
theorem tell (e : Event) {ls : List Listener}
    (hear_ : ∀ l ∈ ls, (Scope.clean M.commands).Hears l ∧ Known P n l.places) :
    Discreet M P n (Act.tell perform e ls) fun _ _ => True := by
  induction ls generalizing n with
  | nil => exact ret trivial
  | cons l ls ih =>
    obtain ⟨first, others⟩ := List.forall_mem_cons.mp hear_
    exact ((hear performs e first.1 first.2).holding _).seq fun _ _ more =>
      ih fun l member => ⟨(others l member).1, (others l member).2.later more⟩

theorem deliver (es : List Event) :
    Discreet M P n (Act.deliver perform es) fun _ _ => True := by
  induction es generalizing n with
  | nil => exact ret trivial
  | cons e es ih =>
    refine settle.seq fun m _ _ => world fun w size knows =>
      (tell performs e fun l member => ?_).seq fun _ _ _ => ih
    obtain ⟨i, -, listens⟩ := List.mem_filterMap.mp member
    exact size ▸ knows.bus.listeners l (Array.mem_of_getElem? listens)

end Act.Discreet

end

section
variable {again : Reentry} (discreet : again.Discreet M)
include discreet

namespace Act.Discreet

theorem run {job : Job} (admits : (Scope.clean M.commands).Admits job)
    (known : Known P n job.places) :
    Discreet M P n (job.run again.call again.dispatch again.perform) fun _ _ => True := by
  cases job with
  | script name commands =>
    exact (log _).seq fun _ _ _ => performJob (discreet.perform P) name admits
  | refresh result source d params =>
    obtain ⟨here, rest⟩ := Known.cons_iff.mp known
    obtain ⟨arguments, places⟩ := Known.append_iff.mp rest
    refine (isAlive result).seq fun m _ more => ite (holding _ ?_) (ret trivial)
    exact refresh (discreet.call P) (discreet.dispatch P) result (places.later more)
      ((Known.cons_iff.mpr ⟨here, arguments⟩).later more)

theorem drain (count : Nat) : Discreet M P n
    (Act.drain again.call again.dispatch again.perform count) fun _ _ => True := by
  induction count generalizing n with
  | zero => exact world fun _ _ _ => ite (ret trivial) (fault _)
  | succ count ih =>
    refine world fun w size knows => ?_
    split
    · exact ret trivial
    · next job rest taken =>
      obtain ⟨id, running, marked⟩ := Scheduler.running_of_next?_eq_some taken
      have jobs := size ▸ knows.bus.jobs
      rw [running, ← marked] at jobs
      have first := jobs (id, job) (by simp)
      refine (reschedule fun _ _ e member => jobs e ?_).seq fun m _ more => ?_
      · exact (List.mem_append.mp member).elim (List.mem_append_left _) fun later =>
          List.mem_append_right _ (List.mem_cons_of_mem _ later)
      · refine ((run discreet first.1 (first.2.later more)).holding _).attempt.seq
          fun k result _ => ?_
        cases result with
        | ok _ => exact ih
        | error e =>
          exact (reschedule fun b knows e member => knows.jobs e (by
            simpa [Scheduler.abandon] using List.mem_append_left _ member)).seq
              fun _ _ _ => raise _

theorem flush : Discreet M P n
    (Act.flush again.call again.dispatch again.perform) fun _ _ => True :=
  (reschedule fun b knows e member => knows.jobs e (List.mem_append_left _ (by
    simpa [Scheduler.begin] using member))).seq fun _ _ _ => world fun _ _ _ => drain discreet _

theorem cycles (count : Nat) : Discreet M P n
    (Act.cycles again.call again.dispatch again.perform count) fun _ _ => True := by
  induction count generalizing n with
  | zero => exact world fun _ _ _ => ite (ret trivial) (raise _)
  | succ count ih =>
    refine world fun w _ _ => ite (ret trivial) ?_
    exact takeEvents.seq fun _ _ _ => ((deliver (discreet.perform P) _).holding _).seq
      fun _ _ _ => (flush discreet).seq fun _ _ _ => ih

theorem dispatchIfIdle : Discreet M P n
    (Act.dispatchIfIdle again.call again.dispatch again.perform) fun _ _ => True := by
  refine world fun w _ _ => ite (ret trivial) ?_
  refine (flag true).seq fun _ _ _ => (cycles discreet _).attempt.seq fun _ result _ =>
    (flag false).seq fun _ _ _ => ?_
  cases result with
  | ok _ => exact ret trivial
  | error e =>
    exact clear.seq fun _ _ _ => raise _

end Act.Discreet

end

namespace Engine

variable {S : Scope} {E : Engine S}

/-- Extension functions and callbacks make up no handles, given that what they start again does not
either. -/
structure Discreet (E : Engine S) (M : Manner) : Prop where
  call : ∀ {again : Reentry}, again.Discreet M → ∀ P, Caller.Discreet M P (E.call again)
  perform : ∀ {again : Reentry}, again.Discreet M → ∀ P n c, M.commands c →
    Act.Discreet M P n (E.perform again c) fun m reply => Known P m reply.places

theorem Discreet.within (discreet : E.Discreet M) (depth : Nat) :
    (E.within depth).Discreet M := by
  induction depth with
  | zero => exact ⟨fun _ _ _ _ _ _ _ => fault _, fun _ _ => fault _, fun _ _ _ _ => fault _⟩
  | succ depth ih =>
    exact ⟨discreet.call ih, fun _ _ => dispatchIfIdle ih, discreet.perform ih⟩

end Engine

end ReactiveQuery
