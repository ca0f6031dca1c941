import ReactiveQuery.Proofs.Live.Flush
import ReactiveQuery.Proofs.Live.Stirring

/-! Cascades.  Where live queries have no effect but on their results, and callbacks none at all, a
dispatch goes from results to the live queries over them, and it ends within their depth. -/

namespace ReactiveQuery

namespace LiveQuery

/-- A query without calls, whose paths have no computed key and no key `length`. -/
structure Tame (q : LiveQuery) : Prop where
  calls : q.definition.functions = []
  computed : ∀ p ∈ q.definition.paths, p.hasComputedKey = false
  length : ∀ p ∈ q.definition.paths, ∀ h keys, p.literalKeys h = some keys → "length" ∉ keys

/-- The number is that of the source or of a collection among the arguments. -/
def Over (q : LiveQuery) (id : Nat) : Prop := id = q.source.id ∨ id ∈ collectionIds q.params

end LiveQuery

theorem Event.of_mem_topics {t : Topic} {id : Nat} {key : EventKey}
    (member : t ∈ Event.topics id key) :
    (∀ i, t.target = some i → i = id) ∧ ∀ k, t.key = some k → k = key := by
  simp only [Event.topics, List.mem_cons, List.not_mem_nil, or_false] at member
  rcases member with rfl | rfl | rfl | rfl <;> simp [eq_comm]

/-- What a path without computed keys depends on: fields, and the content of an argument. -/
theorem Dependency.topic_of_mem_ofPath {h : Heap} {params : List Value} {p : Path}
    {ds : List Dependency} {d : Dependency} (computed : p.hasComputedKey = false)
    (length : ∀ keys, p.literalKeys h = some keys → "length" ∉ keys)
    (follows : ofPath h params p = some ds) (member : d ∈ ds) :
    (∃ target name, d.topic = ⟨target, some (.field name)⟩) ∨
      ∃ id ∈ collectionIds params, d.topic = ⟨some id, some .content⟩ := by
  simp only [ofPath, computed, Bool.false_eq_true, if_false, List.append_nil, Option.bind_eq_bind,
    Option.bind_eq_some_iff] at follows
  obtain ⟨keys, literal, listed⟩ := follows
  have fields : ∀ (wrap : Topic → Dependency) target, (∀ t, (wrap t).topic = t) →
      d ∈ keys.flatMap (ofKey wrap target) →
        ∃ target name, d.topic = ⟨target, some (.field name)⟩ := by
    intro wrap target wraps among
    obtain ⟨key, inside, here⟩ := List.mem_flatMap.mp among
    have other : (key == "length") = false := by
      rw [beq_eq_false_iff_ne]
      rintro rfl
      exact length keys literal inside
    simp only [ofKey, other, Bool.false_eq_true, if_false, List.mem_singleton] at here
    exact ⟨target, key, by rw [here, wraps]⟩
  cases root : p.root with
  | here =>
    simp only [root, pure, Option.some.injEq] at listed
    subst listed
    exact .inl (fields _ _ (fun _ => rfl) member)
  | arg i =>
    simp only [root, pure, Option.some.injEq] at listed
    subst listed
    rcases List.mem_append.mp member with content | field
    · split at content
      · next r param =>
        refine .inr ⟨r.id, LiveQuery.mem_collectionIds (List.mem_of_getElem? param), ?_⟩
        rw [List.mem_singleton.mp content]
        rfl
      · cases content
    · exact .inl (fields _ _ (fun _ => rfl) field)

/-- A tame query hears of fields, and of the content of what it is over. -/
theorem LiveQuery.Tame.hears {q : LiveQuery} (tame : q.Tame) (derived : q.Derived) {id : Nat}
    {key : EventKey} (hears : q.Hears (id, key)) :
    (∃ name, key = .field name) ∨ key = .content ∧ q.Over id := by
  obtain ⟨d, member, topic, -⟩ := hears
  obtain ⟨target, same⟩ := Event.of_mem_topics topic
  obtain ⟨h, all⟩ := derived
  simp only [Dependency.all, Option.bind_eq_bind, Option.bind_eq_some_iff, pure,
    Option.some.injEq] at all
  obtain ⟨lists, found, listed⟩ := all
  rw [← listed] at member
  rcases List.mem_cons.mp member with rfl | among
  · exact .inr ⟨(same _ rfl).symm, .inl (target _ rfl).symm⟩
  · obtain ⟨ds, inside, here⟩ := List.mem_flatten.mp among
    obtain ⟨p, path, follows⟩ := List.exists_mem_of_mapM_eq_some found ds inside
    rcases Dependency.topic_of_mem_ofPath (tame.computed p path) (tame.length p path h) follows here
      with ⟨_, name, field⟩ | ⟨id', param, content⟩
    · rw [field] at same
      exact .inl ⟨name, (same _ rfl).symm⟩
    · rw [content] at same target
      obtain rfl : id' = id := target _ rfl
      exact .inr ⟨(same _ rfl).symm, .inr param⟩

namespace World

/-- The depth of a live query is at least so much: 1, or 1 more than that of a live query whose
result is its source or one of its arguments. -/
def Deep (w : World) : Nat → LiveQuery → Prop
  | 0, _ => True
  | k + 1, q => w.Live q ∧ (k = 0 ∨ ∃ p, w.Deep k p ∧ q.Over p.result.id)

/-- The content or the length of a live result of some depth. -/
def Rings (u : World) (k : Nat) (pair : Nat × EventKey) : Prop :=
  (pair.2 = .content ∨ pair.2 = .length) ∧ ∃ p, u.Deep k p ∧ p.result.id = pair.1

/-- A world that a cascade has come to from another one, so that only results of some depth are
told of in the next round. -/
structure Wave (K : Command → Prop) (u : World) (k : Nat) (w : World) : Prop where
  busy : w.bus.Busy K
  clean : w.bus.scheduler = {}
  enrolled : w.Enrolled
  later : u.Later w
  lists : ∀ q, w.bus.Lists q → u.bus.Lists q
  waits : k = 0 ∨ ∀ p, w.bus.Waits p → u.Rings k p

end World

namespace JobTurn

/-- A turn of a tame query stirs its result. -/
theorem stirs {again : Reentry} {P : Nat × EventKey → Prop} {q : LiveQuery} {t : JobTurn}
    (silent : again.dispatch.Silent) (tame : q.Tame) (job : t.job = q.job)
    (content : P (q.result.id, .content))
    (length : P (q.result.id, .length)) : (t.act again).Stirs P := by
  rw [act, job, LiveQuery.job, Job.run]
  exact (Trait.stirring P).holding _ ((Trait.stirring P).bind
    (Act.has_isAlive (T := .stirring P) _) fun _ => Trait.Has.ite (T := .stirring P)
      ((Trait.stirring P).holding _ (Act.Stirs.refresh silent tame.calls content length _ _)) (.ret ()))

end JobTurn

namespace Act

theorem Mute.enqueueAll (es : List Event) : Mute (Act.enqueueAll es) := by
  induction es with
  | nil => exact of_ok fun _ => ⟨_, _, rfl⟩
  | cons e es ih => exact bind (holding (of_ok fun _ => ⟨_, _, rfl⟩)) fun _ => ih

variable {dispatch : Act Unit} (silent : dispatch.Silent) {v w : World} {e : Error}
include silent

/-- Reports to an open bus never fail. -/
theorem ne_raised_of_report (busy : w.bus.dispatching = true) (es : List Event) :
    (report dispatch .bus es).on w ≠ (.error (.raised e), v) := fun fails => by
  rw [report, publishAll] at fails
  rcases raised_bind fails with raised | ⟨_, u, queued, raised⟩
  · exact Mute.enqueueAll es w e v raised
  · have stirs : w.Stirs (fun _ => True) ((enqueueAll es).on w).2 :=
      Stirs.enqueueAll (fun _ _ => trivial) w busy
    rw [queued.on] at stirs
    rcases silent u stirs.dispatching with same | same <;> rw [same] at raised <;> cases raised

/-- New rows may always be put into a result. -/
theorem ne_raised_of_change {r : Ref} (busy : w.bus.dispatching = true)
    (reports : ∀ cell, w.heap.cell? r.loc = some cell → cell.Reports) (rows : List Value) :
    (r.change dispatch (.replaceAll rows)).on w ≠ (.error (.raised e), v) := fun fails => by
  rw [Ref.change, on_bind_ok (on_get w)] at fails
  split at fails
  · next cell found =>
    obtain ⟨_, same, sink⟩ := reports _ (Heap.collection?_eq_some.mp found)
    cases same
    rw [sink, ItemChange.replaceAll, on_bind_ok (on_ofExcept ..),
      on_bind_ok (on_changeHeap ..)] at fails
    rcases raised_bind fails with raised | ⟨_, _, -, returned⟩
    · obtain ⟨u, reported⟩ := exists_of_holding_error raised
      exact ne_raised_of_report silent (w := { w with
        heap := w.heap.setItems r rows
        held := cell.items ++ w.held }) busy _ reported
    · cases returned
  · cases fails

/-- A refresh without calls fails with what its evaluation fails with. -/
theorem raised_of_refresh {call : Caller} {q : LiveQuery} (calls : q.definition.functions = [])
    (busy : w.bus.dispatching = true) (enrolled : w.Enrolled) (lists : w.bus.Lists q)
    (fails : (refresh call dispatch q.result q.source q.definition q.params).on w =
      (.error (.raised e), v)) : ∃ x y : World,
    (q.definition.execute call q.context (x.heap.items q.source)).on x =
      (.error (.raised e), y) := by
  have evaluates : ∀ (T : Trait) items, T.Has (q.definition.execute call q.context items) :=
    fun T _ => q.definition.has_execute _ (calls ▸ Trait.Calls.nil) _
  let x : World := { w with held := w.heap.items q.source ++ w.held }
  have holds : w.Inert x := ⟨.refl _, rfl, rfl, rfl⟩
  rw [refresh, on_bind_ok (on_get w)] at fails
  obtain ⟨u, inner⟩ := exists_of_holding_error fails
  rcases raised_bind (w := x) inner with raised | ⟨rows, y, executed, rest⟩
  · exact ⟨x, _, raised⟩
  · obtain ⟨enrolled', held⟩ := holds.leads enrolled
    have leads := evaluates .proper (w.heap.items q.source) x enrolled'
    have stirs := evaluates (.stirring fun _ => False) (w.heap.items q.source) x busy
    have ends := executed.on
    rw [← LiveQuery.context] at ends
    rw [ends] at leads stirs
    rcases raised_bind rest with raised | ⟨_, _, -, returned⟩
    · exact absurd raised (ne_raised_of_change silent stirs.dispatching
        (leads.1.sinks q (leads.2.lists (held.lists lists))) rows)
    · cases returned

end Act

/-- A turn fails with what the evaluation of its query fails with. -/
theorem JobTurn.raised {again : Reentry} (silent : again.dispatch.Silent) {q : LiveQuery}
    {t : JobTurn} (tame : q.Tame) (job : t.job = q.job) (busy : t.world.bus.dispatching = true)
    (enrolled : t.world.Enrolled) (lists : t.world.bus.Lists q) {e : Error} {v : World}
    (fails : (t.act again).on t.world = (.error (.raised e), v)) : ∃ x y : World,
      (q.definition.execute again.call q.context (x.heap.items q.source)).on x =
        (.error (.raised e), y) := by
  let x : World := { t.world with held := q.job.values ++ t.world.held }
  have holds : t.world.Inert x := ⟨.refl _, rfl, rfl, rfl⟩
  obtain ⟨enrolled', held⟩ := (holds.leads.trans (World.leads_sweep x)) enrolled
  have swept : x.Stirs (fun _ => False) x.sweep := .sweep busy
  let y : World := { x.sweep with held := .collection q.result :: x.sweep.held }
  obtain ⟨enrolled'', held'⟩ := (show x.sweep.Inert y from ⟨.refl _, rfl, rfl, rfl⟩).leads enrolled'
  rw [act, job] at fails
  obtain ⟨z, ran⟩ := Act.exists_of_holding_error fails
  rw [LiveQuery.job, Job.on_run_refresh] at ran
  split at ran
  · obtain ⟨_, refreshed⟩ := Act.exists_of_holding_error ran
    exact Act.raised_of_refresh silent (w := y) tame.calls swept.dispatching enrolled''
      (held'.lists (held.lists lists)) refreshed
  · cases ran

namespace World.Wave

variable {K : Command → Prop} {again : Reentry} {u v : World} {k : Nat} {r : Round}
  (made : again.Made (Scope.clean K) (Act.Settling K)) (proper : again.Proper)
  (calm : ∀ c, K c → (again.perform c).Stirs fun _ => False)
  (tame : ∀ q, u.Live q → q.Tame) (wave : u.Wave K k r.opened) (told : r.Delivers again)
include wave told

theorem begun : r.Begun K again := ⟨wave.busy, wave.clean, wave.enrolled, told⟩

include made calm

theorem stirs_told : r.taken.Stirs (fun _ => False) r.told := by
  have busy : r.taken.bus.Busy K :=
    ⟨⟨Queue.indexed_empty, wave.busy.orderly.listeners, wave.busy.orderly.jobs⟩,
      wave.busy.dispatching⟩
  obtain ⟨x, delivered, same⟩ := told
  obtain ⟨dispatching, lists, waits⟩ := Act.keeps_of_deliver (T := .stirring fun _ => False)
    (I := r.taken.Stirs fun _ => False) (fun _ stirs x y gives before =>
      before.trans (Act.Stirs.gives stirs before.dispatching gives)) calm
    (fun _ _ busy => .of_bus busy rfl rfl rfl) (fun _ _ => .of_bus fun _ => rfl) made busy
    (.of_bus busy.dispatching rfl rfl rfl) delivered
  rw [same]
  exact ⟨dispatching, lists, waits⟩

include proper tame

/-- What is refreshed in a round is one deeper than what the round tells of. -/
theorem deep_of_mem_turns {t : JobTurn} (member : t ∈ r.turns again) :
    ∃ q, u.Deep (k + 1) q ∧ t.job = q.job := by
  have begun := wave.begun told
  have among := (begun.turns_isPrefix made).subset (List.mem_map_of_mem member)
  obtain ⟨q, m, same, derived, ⟨e, inside, hears⟩, live, before, later⟩ :=
    begun.exists_of_mem_accepted proper (Jobs.mem_of_mem_firsts among)
  have listed := (wave.stirs_told made calm told).lists q (later.lists live.1)
  have lives : u.Live q := live.before (wave.later.trans before) (wave.lists q listed)
  refine ⟨q, ⟨lives, wave.waits.imp_right fun rings => ?_⟩, (Prod.mk.inj same).2⟩
  obtain ⟨kind, p, deep, number⟩ := rings e.pair ⟨e, inside, rfl⟩
  rcases (tame q lives).hears derived hears with ⟨name, field⟩ | ⟨-, above⟩
  · rw [show e.pair.2 = e.key from rfl, field] at kind
    rcases kind with ⟨⟨⟩⟩ | ⟨⟨⟩⟩
  · exact ⟨p, deep, number ▸ above⟩

/-- Every turn stirs a result that is one deeper. -/
theorem stirs_of_mem_turns (silent : again.dispatch.Silent) :
    ∀ t ∈ r.turns again, ∀ x, (t.act again).Gives t.world () x →
      r.told.Stirs (u.Rings (k + 1)) t.world → r.told.Stirs (u.Rings (k + 1)) x := by
  intro t member x ran stirs
  obtain ⟨q, deep, job⟩ := wave.deep_of_mem_turns made proper calm tame told member
  have turn := JobTurn.stirs (P := u.Rings (k + 1)) silent (tame q deep.1) job
    ⟨.inl rfl, q, deep, rfl⟩ ⟨.inr rfl, q, deep, rfl⟩
  exact stirs.trans (turn.gives stirs.dispatching ran)

/-- The next round tells of what this one refreshes. -/
theorem next (silent : again.dispatch.Silent)
    (flushed : (Act.flush again.call again.dispatch again.perform).Gives r.told () v) :
    u.Wave K (k + 1) v := by
  have begun := wave.begun told
  have stirs := wave.stirs_told made calm told
  obtain ⟨busy, settled⟩ := Act.flush_busy made (begun.busy_told made).1 flushed nofun
  obtain ⟨first, second⟩ := begun.comes_told proper
  obtain ⟨enrolled, later⟩ := ((first.trans second).gives (Act.Proper.flush proper) flushed).leads
    wave.enrolled
  rw [Act.Gives, Act.on_flush] at flushed
  have flush := Act.keeps_of_drain (I := fun x => r.told.Stirs (u.Rings (k + 1)) x)
    (fun x s stirs => ⟨stirs.dispatching, stirs.lists, stirs.waits⟩)
    (wave.stirs_of_mem_turns made proper calm tame told silent)
    (w := r.flushing) (.of_bus stirs.dispatching rfl rfl rfl) flushed
  refine ⟨busy, settled rfl, enrolled, wave.later.trans later, fun q listed =>
    wave.lists q (stirs.lists q (flush.lists q listed)), .inr fun p waits => ?_⟩
  refine (flush.waits p waits).resolve_right fun before => ?_
  obtain ⟨e, member, -⟩ := (stirs.waits p before).resolve_left id
  cases member

/-- The flush of a round fails with what the evaluation of a live query fails with. -/
theorem raised_of_flush (silent : again.dispatch.Silent) {e : Error}
    (fails : (Act.flush again.call again.dispatch again.perform).on r.told =
      (.error (.raised e), v)) : ∃ q, u.Live q ∧ ∃ x y : World,
    (q.definition.execute again.call q.context (x.heap.items q.source)).on x =
      (.error (.raised e), y) := by
  have begun := wave.begun told
  have stirs := wave.stirs_told made calm told
  rw [Act.on_flush] at fails
  obtain ⟨t, member, x, raised⟩ := Act.exists_raised_of_drain fails
  obtain ⟨q, deep, job⟩ := wave.deep_of_mem_turns made proper calm tame told member
  obtain ⟨first, second⟩ := begun.comes_told proper
  obtain ⟨-, later⟩ := (first.trans second).leads wave.enrolled
  have flushing : r.told.Leads r.flushing := World.leads_of_bus rfl rfl (Nat.le_refl _)
  obtain ⟨enrolled, later'⟩ := (flushing.trans
    (Act.comes_of_mem_turns proper member).leads) (begun.enrolled_told proper)
  have turn := Act.keeps_of_mem_turns (I := fun x => r.told.Stirs (u.Rings (k + 1)) x)
    (fun x s stirs => ⟨stirs.dispatching, stirs.lists, stirs.waits⟩)
    (wave.stirs_of_mem_turns made proper calm tame told silent)
    (w := r.flushing) (.of_bus stirs.dispatching rfl rfl rfl) member
  exact ⟨q, deep.1, JobTurn.raised silent (tame q deep.1) job turn.dispatching enrolled
    (((wave.later.trans later).trans later').lists deep.1.1) raised⟩

end World.Wave

/-- The dispatch ends within so many cycles as live queries are deep, and one more. -/
structure World.Converges (u : World) (again : Reentry) (D : Nat) : Prop where
  length : (Act.rounds again u.bus.ceiling u.opened).length ≤ D + 1
  /-- Each cycle refreshes live queries that are one deeper. -/
  deep : ∀ k r, (Act.rounds again u.bus.ceiling u.opened)[k]? = some r →
    ∀ t ∈ r.turns again, ∃ q, u.Deep (k + 1) q ∧ t.job = q.job
  /-- With cycles enough it fails with what an evaluation fails with, if at all. -/
  fails : D < u.bus.ceiling → ∀ e v,
    (Act.dispatchIfIdle again.call again.dispatch again.perform).on u = (.error (.raised e), v) →
      ∃ q, u.Live q ∧ ∃ x y : World,
        (q.definition.execute again.call q.context (x.heap.items q.source)).on x =
          (.error (.raised e), y)

namespace World.Wave

variable {K : Command → Prop} {again : Reentry} {u v w : World} {k count D : Nat}

/-- While events wait, the cascade is not deeper than the live queries are. -/
theorem le_of_waiting (wave : u.Wave K k w) (deepest : ∀ k q, u.Deep k q → k ≤ D)
    (waiting : w.bus.queue.isEmpty = false) : k ≤ D := by
  rcases wave.waits with rfl | rings
  · exact Nat.zero_le D
  · have some : w.bus.queue.events ≠ [] := fun none => by
      rw [wave.busy.orderly.indexed.isEmpty_iff.mpr none] at waiting
      cases waiting
    obtain ⟨e, member⟩ := List.exists_mem_of_ne_nil _ some
    obtain ⟨-, p, deep, -⟩ := rings e.pair ⟨e, member, rfl⟩
    exact deepest k p deep

variable (made : again.Made (Scope.clean K) (Act.Settling K)) (proper : again.Proper)
  (silent : again.dispatch.Silent) (calm : ∀ c, K c → (again.perform c).Stirs fun _ => False)
  (tame : ∀ q, u.Live q → q.Tame)
include made proper silent calm tame

theorem length_rounds (wave : u.Wave K k w) (deepest : ∀ k q, u.Deep k q → k ≤ D)
    (within : k ≤ D + 1) : (Act.rounds again count w).length + k ≤ D + 1 := by
  induction count generalizing w k with
  | zero => simpa [Act.rounds] using within
  | succ count ih =>
    rcases Act.rounds_cases again count w with
      none | ⟨r, rfl, waiting, told, last | ⟨v, flushed, more⟩⟩
    · simpa [none] using within
    · have low := wave.le_of_waiting deepest waiting
      rw [last, List.length_singleton]
      omega
    · have low := wave.le_of_waiting deepest waiting
      have rest := ih (wave.next made proper calm tame told silent flushed) (by omega)
      rw [more, List.length_cons]
      omega

theorem deep_rounds (wave : u.Wave K k w) {i : Nat} {r : Round}
    (here : (Act.rounds again count w)[i]? = some r) {t : JobTurn} (member : t ∈ r.turns again) :
    ∃ q, u.Deep (k + i + 1) q ∧ t.job = q.job := by
  induction count generalizing w k i with
  | zero => simp [Act.rounds] at here
  | succ count ih =>
    rcases Act.rounds_cases again count w with none | ⟨s, rfl, -, told, last | ⟨v, flushed, more⟩⟩
    · simp [none] at here
    · cases i with
      | zero =>
        obtain rfl : s = r := by simpa [last] using here
        exact wave.deep_of_mem_turns made proper calm tame told member
      | succ i => simp [last] at here
    · cases i with
      | zero =>
        obtain rfl : s = r := by simpa [more] using here
        exact wave.deep_of_mem_turns made proper calm tame told member
      | succ i =>
        rw [more, List.getElem?_cons_succ] at here
        have rest := ih (wave.next made proper calm tame told silent flushed) here
        rwa [Nat.add_right_comm k 1 i, Nat.add_assoc k i 1] at rest

theorem raised_of_cycles (wave : u.Wave K k w) (deepest : ∀ k q, u.Deep k q → k ≤ D)
    (enough : D < count + k) {e : Error}
    (fails : (Act.cycles again.call again.dispatch again.perform count).on w =
      (.error (.raised e), v)) : ∃ q, u.Live q ∧ ∃ x y : World,
    (q.definition.execute again.call q.context (x.heap.items q.source)).on x =
      (.error (.raised e), y) := by
  induction count generalizing w k with
  | zero =>
    have low := wave.le_of_waiting deepest (Act.waits_of_cycles_error fails)
    omega
  | succ count ih =>
    obtain ⟨r, rfl, told, ⟨raised, -⟩ | ⟨x, flushed, raised, -⟩⟩ := Act.raised_cycles_cases fails
    · exact wave.raised_of_flush made proper calm tame told silent raised
    · exact ih (wave.next made proper calm tame told silent flushed) (by omega) raised

end World.Wave

namespace Engine

variable {K : Command → Prop} {E : Engine (Scope.clean K)} {u : World}

/-- Where callbacks are calm and live queries are tame, every dispatch converges. -/
theorem Begins.converges (begins : E.Begins u) (proper : E.Proper) {depth : Nat}
    (calm : ∀ c, K c → ((E.within depth).perform c).Stirs fun _ => False)
    (tame : ∀ q, u.Live q → q.Tame) {D : Nat} (deepest : ∀ k q, u.Deep k q → k ≤ D) :
    u.Converges (E.within depth) D := by
  obtain ⟨orderly, idle, clean⟩ := begins.orderly
  have opened : u.Comes u.opened := World.Comes.here.step (Act.Proper.flag true)
  obtain ⟨enrolled, later⟩ := opened.leads begins.enrolled
  have wave : u.Wave K 0 u.opened := ⟨⟨⟨orderly.indexed, orderly.listeners, orderly.jobs⟩, rfl⟩,
    clean, enrolled, later, fun _ => id, .inl rfl⟩
  have made := E.made_within depth
  have silent := E.silent_within depth
  refine ⟨wave.length_rounds made (proper.within depth) silent calm tame deepest (Nat.zero_le _),
    fun k r here t member => ?_, fun enough e v fails => ?_⟩
  · have deep := wave.deep_rounds made (proper.within depth) silent calm tame here member
    rwa [Nat.zero_add] at deep
  · obtain ⟨-, x, raised⟩ := (Act.dispatchIfIdle_raises_iff _ idle).mp ⟨v, fails⟩
    exact wave.raised_of_cycles made (proper.within depth) silent calm tame deepest enough raised

end Engine

namespace Chained

/-- The listeners are those of two queries that read one field. -/
def fits : Listener → Bool
  | .invalidate _ _ (.refresh result source d params) => d.functions.isEmpty &&
      d.paths.all (fun p => match p.components with
        | [.key (.text "n")] => true
        | _ => false) &&
      [(3, 2, []), (4, 3, [])].contains (result.id, source.id, collectionIds params)
  | _ => true

theorem fits_pushed : pushed.bus.listeners.all fits = true := by decide +kernel

theorem fits_of_live {q : LiveQuery} (live : pushed.Live q) : q.definition.functions = [] ∧
    (∀ p ∈ q.definition.paths, p.components = [.key (.text "n")]) ∧
      (q.result.id, q.source.id, collectionIds q.params) ∈ [(3, 2, []), (4, 3, [])] := by
  obtain ⟨n, route, listens⟩ := live.1
  have fit := Array.all_eq_true_iff_forall_mem.mp fits_pushed _ (Array.mem_of_getElem? listens)
  simp only [fits, LiveQuery.job, Bool.and_eq_true, List.isEmpty_iff, List.all_eq_true,
    List.contains_iff_mem] at fit
  obtain ⟨⟨calls, paths⟩, numbers⟩ := fit
  refine ⟨calls, fun p member => ?_, numbers⟩
  have path := paths p member
  split at path
  · assumption
  · cases path

theorem tame_of_live {q : LiveQuery} (live : pushed.Live q) : q.Tame := by
  obtain ⟨calls, paths, -⟩ := fits_of_live live
  refine ⟨calls, fun p member => ?_, fun p member h keys literal => ?_⟩
  · rw [Path.hasComputedKey, paths p member]
    rfl
  · rw [Path.literalKeys, paths p member] at literal
    obtain rfl : ["n"] = keys := Option.some.inj literal
    decide

theorem le_two_of_deep (k : Nat) (q : LiveQuery) (deep : pushed.Deep k q) : k ≤ 2 := by
  match k with
  | 0 | 1 | 2 => decide
  | k + 3 =>
    obtain ⟨live, more⟩ := deep
    obtain ⟨p, ⟨live', more'⟩, above⟩ := more.resolve_left nofun
    obtain ⟨p', ⟨live'', -⟩, above'⟩ := more'.resolve_left nofun
    have first := (fits_of_live live).2.2
    have second := (fits_of_live live').2.2
    have third := (fits_of_live live'').2.2
    unfold LiveQuery.Over at above above'
    grind

/-- Two cycles for two live queries of which one is over the other. -/
theorem converges_pushed : pushed.Converges (engine.within 8) 2 := by
  refine begins_pushed.converges proper ?_ (fun q => tame_of_live) le_two_of_deep
  rintro _ rfl
  exact Trait.Has.bind (T := .stirring _) .settle fun _ => .bind .world fun _ => .ret _

end Chained

end ReactiveQuery
