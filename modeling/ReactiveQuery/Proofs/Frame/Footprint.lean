import ReactiveQuery.Proofs.Engine.Cache
import ReactiveQuery.Proofs.Live.Traceless

/-! Footprints.  An activity that writes at some slots leaves every other one, keeps alive what can
be got at without them, and undoes only registrations of live queries that it lets go of. -/

namespace ReactiveQuery

/-- What can be written: a field of the record at a place, or the items of the collection there. -/
inductive Slot where
  | field (loc : Nat) (key : String)
  | items (loc : Nat)

def Slot.loc : Slot → Nat
  | .field loc _ | .items loc => loc

/-- The cell at a place, of which only some slots have been written. -/
inductive Cell.Frames (S : Slot → Prop) (loc : Nat) : Cell → Cell → Prop
  | record {c c' : RecordCell} (id : c'.id = c.id) (sink : c'.sink = c.sink)
    (keys : FieldMap.keys c'.fields = FieldMap.keys c.fields)
    (fields : ∀ key, ¬S (.field loc key) →
      FieldMap.get? key c'.fields = FieldMap.get? key c.fields) :
    Frames S loc (.record c) (.record c')
  | collection {c c' : CollectionCell} (id : c'.id = c.id) (sink : c'.sink = c.sink)
    (retained : c'.retained = c.retained) (items : ¬S (.items loc) → c'.items = c.items) :
    Frames S loc (.collection c) (.collection c')

namespace Cell.Frames

variable {S : Slot → Prop} {loc : Nat} {c d e : Cell}

theorem refl (c : Cell) : c.Frames S loc c := by
  cases c with
  | record => exact .record rfl rfl rfl fun _ _ => rfl
  | collection => exact .collection rfl rfl rfl fun _ => rfl

theorem trans (first : c.Frames S loc d) (second : d.Frames S loc e) : c.Frames S loc e := by
  cases first with
  | record id sink keys fields =>
    cases second with
    | record id' sink' keys' fields' =>
      exact .record (id'.trans id) (sink'.trans sink) (keys'.trans keys) fun key spared =>
        (fields' key spared).trans (fields key spared)
  | collection id sink retained items =>
    cases second with
    | collection id' sink' retained' items' =>
      exact .collection (id'.trans id) (sink'.trans sink) (retained'.trans retained) fun spared =>
        (items' spared).trans (items spared)

theorem setField (c : RecordCell) {key : String} (value : Value) (may : S (.field loc key)) :
    Frames S loc (.record c) (.record { c with fields := c.fields.update key value }) := by
  refine .record rfl rfl (FieldMap.keys_update ..) fun k spared => ?_
  rw [FieldMap.get?_update, if_neg fun same : key = k => spared (same ▸ may)]

theorem setItems (c : CollectionCell) (items : List Value) (may : S (.items loc)) :
    Frames S loc (.collection c) (.collection { c with items }) :=
  .collection rfl rfl rfl fun spared => absurd may spared

end Cell.Frames

/-- The cell at a place leads on through a slot that is not written, or through what it retains. -/
def Cell.LeadsTo (S : Slot → Prop) (loc l : Nat) : Cell → Prop
  | .record c => ∃ key v, ¬S (.field loc key) ∧ FieldMap.get? key c.fields = some v ∧ l ∈ v.places
  | .collection c => ¬S (.items loc) ∧ l ∈ Value.placesOfItems c.items ∨
      l ∈ Value.placesOfItems c.retained.values

namespace Cell.LeadsTo

variable {S : Slot → Prop} {loc l : Nat} {c d : Cell}

theorem mem_places (leads : c.LeadsTo S loc l) : l ∈ c.places := by
  cases c with
  | record c =>
    obtain ⟨key, v, -, reads, inside⟩ := leads
    exact Value.mem_placesOfFields.mpr ⟨_, FieldMap.mem_of_get? reads, inside⟩
  | collection c => exact List.mem_append.mpr (leads.imp_left And.right)

theorem frames (leads : c.LeadsTo S loc l) (frames : c.Frames S loc d) : d.LeadsTo S loc l := by
  cases frames with
  | record id sink keys fields =>
    obtain ⟨key, v, spared, reads, inside⟩ := leads
    exact ⟨key, v, spared, (fields key spared).trans reads, inside⟩
  | collection id sink retained items =>
    rcases leads with ⟨spared, inside⟩ | inside
    · exact .inl ⟨spared, items spared ▸ inside⟩
    · exact .inr (retained ▸ inside)

end Cell.LeadsTo

namespace World

/-- What a session can get at from its names and from what it holds on to, without reading a slot
that may be written. -/
inductive Kept (w : World) (S : Slot → Prop) : Nat → Prop
  | root {l : Nat} (held : l ∈ Value.placesOfItems (w.desk.names.values ++ w.held)) : Kept w S l
  | cell {k l : Nat} {c : Cell} (kept : Kept w S k) (here : w.heap.cell? k = some c)
    (leads : c.LeadsTo S k l) : Kept w S l

/-- A text whose query calls no function: neither as it is kept, nor as it is read. -/
structure CallFree (w : World) (text : String) : Prop where
  kept : ∀ d, (text, d) ∈ w.cache.entries → d.functions = []
  read : ∀ u : World, u.queries = w.queries → ∀ query paths,
    (u.reading text).1 = .ok (query, paths) → query.names = []

/-- How far a world has come from another by activities that write at some slots `S` and that may
make live queries only if `L`. -/
structure Remains (S : Slot → Prop) (L : Prop) (w v : World) : Prop where
  cells : ∀ l < w.heap.cells.size, ∀ cell', v.heap.cell? l = some cell' →
    ∃ cell, w.heap.cell? l = some cell ∧ cell.Frames S l cell'
  kept : ∀ l, w.Kept S l → w.heap.isAlive l = true → v.heap.isAlive l = true
  desk : v.desk = w.desk
  held : w.held <:+ v.held
  queries : v.queries = w.queries
  extensions : v.extensions = w.extensions
  callFree : ∀ text, w.CallFree text → v.CallFree text
  enrolled : v.Enrolled
  later : w.Later v
  /-- Whoever has come to listen belongs to a live query whose result has come about, too. -/
  made : ∀ (n : Nat) l, v.bus.listeners[n]? = some l → w.bus.listeners.size ≤ n →
    L ∧ ∃ (q : LiveQuery) (route : Route), l = .invalidate q.result.id route q.job ∧
      w.heap.cells.size ≤ q.result.loc ∧ q.definition.functions = []
  on : ∀ t, ∃ old new, v.bus.registry.on t = old ++ new ∧
    old.Sublist (w.bus.registry.on t) ∧ ∀ n ∈ new, w.bus.listeners.size ≤ n
  scripts : ∀ t, ∀ n ∈ w.bus.registry.on t, w.bus.place? n = none → n ∈ v.bus.registry.on t

variable {S : Slot → Prop} {L : Prop} {u v w : World}

theorem Remains.refl (enrolled : w.Enrolled) : w.Remains S L w where
  cells _ _ cell' here := ⟨cell', here, .refl cell'⟩
  kept _ _ := id
  desk := rfl
  held := List.suffix_refl _
  queries := rfl
  extensions := rfl
  callFree _ := id
  enrolled := enrolled
  later := .refl w
  made _ _ listens outside := by
    obtain ⟨inside, -⟩ := Array.getElem?_eq_some_iff.mp listens
    exact absurd inside (Nat.not_lt.mpr outside)
  on t := ⟨w.bus.registry.on t, [], by simp, .refl _, nofun⟩
  scripts _ _ here _ := here

theorem extends_reading (w : World) (text : String) : w.heap.Extends (w.reading text).2 := by
  unfold reading
  split
  · exact .refl _
  · next draft _ =>
    have grows := draft.extending_build [] { heap := w.heap }
    split <;>
    · next built =>
      rw [built] at grows
      exact grows

/-- What is read without a call compiles to what calls nothing. -/
theorem CallFree.of_compiles {text : String} {d : Definition} (free : w.CallFree text)
    (compiles : w.Compiles text d) : d.functions = [] := by
  obtain ⟨query, paths, reads, -, -, resolves⟩ := compiles.refers
  rw [free.read w rfl query paths reads] at resolves
  exact List.forall₂_nil_left_iff.mp resolves

/-- Looking a query up or compiling it changes caches and makes new containers. -/
theorem after_definition (u : World) (text : String) : ∃ heap parsers cache patterns,
    ((Act.definition text).on u).2 = { u with heap, parsers, cache, patterns } ∧
      u.heap.Extends heap ∧ ∀ text, u.CallFree text → CallFree { u with cache } text := by
  have grows := u.extends_reading text
  cases known : u.cache.entries.lookup text with
  | some d =>
    rw [Act.on_definition_of_known known]
    exact ⟨_, _, _, _, rfl, .refl _, fun _ free => ⟨free.kept, free.read⟩⟩
  | none =>
    rw [Act.on_definition_of_unknown known]
    cases read : (u.reading text).1 with
    | error e => exact ⟨_, _, _, _, rfl, grows, fun _ free => ⟨free.kept, free.read⟩⟩
    | ok parsed =>
      obtain ⟨query, paths⟩ := parsed
      dsimp only
      rcases compiled :
          (query.compile ⟨(u.reading text).2, u.extensions⟩ paths).run.run u.patterns with
        ⟨_ | d, patterns⟩
      · exact ⟨_, _, _, _, rfl, grows, fun _ free => ⟨free.kept, free.read⟩⟩
      · refine ⟨_, _, _, _, rfl, grows, fun text' free => ⟨fun d' member => ?_, free.read⟩⟩
        rcases List.mem_cons.mp member with same | old
        · cases same
          exact free.of_compiles ⟨query, paths, read, by rw [compiled]⟩
        · exact free.kept d' old

theorem CallFree.of_same {text : String} (free : w.CallFree text) (queries : v.queries = w.queries)
    (cache : v.cache.entries = w.cache.entries) : v.CallFree text :=
  ⟨by rw [cache]; exact free.kept, by rw [queries]; exact free.read⟩

namespace Remains

variable (remains : w.Remains S L u)
include remains

theorem size : w.heap.cells.size ≤ u.heap.cells.size := remains.later.size

/-- A number stands for what it stood for, or for the result of a live query that is new. -/
theorem place?_of_some {n loc : Nat} (place : u.bus.place? n = some loc) :
    w.bus.place? n = some loc ∨ w.bus.listeners.size ≤ n ∧ w.heap.cells.size ≤ loc := by
  rcases Nat.lt_or_ge n w.bus.listeners.size with inside | outside
  · refine .inl ?_
    have listens := Array.getElem?_eq_getElem inside
    rw [Bus.place?, remains.later.listeners n _ listens] at place
    rw [Bus.place?, listens]
    exact place
  · obtain ⟨id, route, result, source, d, params, rfl, listens⟩ := Bus.exists_of_place? place
    obtain ⟨-, q, route', same, high, -⟩ := remains.made n _ listens outside
    rw [Listener.invalidate.injEq, LiveQuery.job, Job.refresh.injEq] at same
    exact .inr ⟨outside, same.2.2.1 ▸ high⟩

section
variable (enrolled : w.Enrolled)
include enrolled

/-- One step further, in which no listener is made. -/
theorem go (leads : u.Leads v)
    (cells : ∀ l < u.heap.cells.size, ∀ cell', v.heap.cell? l = some cell' →
      ∃ cell, u.heap.cell? l = some cell ∧ cell.Frames S l cell')
    (kept : ∀ l, w.Kept S l → w.heap.isAlive l = true → v.heap.isAlive l = true)
    (desk : v.desk = u.desk) (held : w.held <:+ v.held) (queries : v.queries = u.queries)
    (extensions : v.extensions = u.extensions)
    (callFree : ∀ text, u.CallFree text → v.CallFree text)
    (listeners : v.bus.listeners = u.bus.listeners)
    (on : ∀ t, ∃ stays : Nat → Bool, v.bus.registry.on t = (u.bus.registry.on t).filter stays ∧
      ∀ n, u.bus.place? n = none → stays n = true) : w.Remains S L v := by
  obtain ⟨enrolled', later⟩ := leads remains.enrolled
  refine ⟨fun l inside cell' here => ?_, kept, desk.trans remains.desk, held,
    queries.trans remains.queries, extensions.trans remains.extensions,
    fun text free => callFree text (remains.callFree text free), enrolled',
    remains.later.trans later, by rw [listeners]; exact remains.made, fun t => ?_,
    fun t n here none => ?_⟩
  · obtain ⟨cell, there, second⟩ :=
      cells l (Nat.lt_of_lt_of_le inside remains.size) cell' here
    obtain ⟨cell₀, before, first⟩ := remains.cells l inside cell there
    exact ⟨cell₀, before, first.trans second⟩
  · obtain ⟨stays, same, -⟩ := on t
    obtain ⟨old, new, both, sublist, high⟩ := remains.on t
    exact ⟨old.filter stays, new.filter stays, by rw [same, both, List.filter_append],
      List.filter_sublist.trans sublist, fun n member => high n (List.mem_of_mem_filter member)⟩
  · obtain ⟨stays, same, scripts⟩ := on t
    rw [same]
    refine List.mem_filter.mpr ⟨remains.scripts t n here none, scripts n ?_⟩
    refine Option.eq_none_iff_forall_ne_some.mpr fun loc place => ?_
    rcases remains.place?_of_some place with before | ⟨outside, -⟩
    · rw [none] at before
      cases before
    · exact absurd (enrolled.known t n here) (Nat.not_lt.mpr outside)

/-- Cells come, and caches and what waits may change. -/
theorem grow (heap : u.heap.Extends v.heap) (registry : v.bus.registry = u.bus.registry)
    (listeners : v.bus.listeners = u.bus.listeners) (nextId : u.bus.nextId ≤ v.bus.nextId)
    (desk : v.desk = u.desk) (held : w.held <:+ v.held) (queries : v.queries = u.queries)
    (extensions : v.extensions = u.extensions)
    (callFree : ∀ text, u.CallFree text → v.CallFree text) : w.Remains S L v := by
  have leads : u.Leads v := leads_of_registry heap.sheds
    (fun l inside => by rw [Heap.subscriptions, heap.old l inside, Heap.subscriptions]) registry
    listeners nextId (by rw [desk])
  refine remains.go enrolled leads (fun l inside cell' here => ?_) (fun l reached living => ?_) desk
    held queries extensions callFree listeners
    fun t => ⟨fun _ => true, by simp [registry], fun _ _ => rfl⟩
  · rw [heap.old l inside] at here
    exact ⟨cell', here, .refl _⟩
  · obtain ⟨cell, here⟩ := Heap.cell?_of_isAlive (remains.kept l reached living)
    rw [Heap.isAlive, heap.old l (Heap.lt_size_of_cell? here), here]
    rfl

theorem still (still : u.Still v) : w.Remains S L v :=
  remains.grow enrolled still.heap (by rw [still.bus]) (by rw [still.bus]) (by rw [still.bus])
    still.desk (still.held ▸ remains.held) still.queries still.extensions
    fun _ free => free.of_same still.queries (by rw [still.cache])

theorem hold {held : List Value} (more : w.held <:+ held) : w.Remains S L { u with held } :=
  remains.grow enrolled (.refl _) rfl rfl (Nat.le_refl _) rfl more rfl rfl
    fun _ free => free.of_same rfl rfl

theorem withBus {bus : Bus} (registry : bus.registry = u.bus.registry)
    (listeners : bus.listeners = u.bus.listeners) (nextId : u.bus.nextId ≤ bus.nextId) :
    w.Remains S L { u with bus } :=
  remains.grow enrolled (.refl _) registry listeners nextId rfl remains.held rfl rfl
    fun _ free => free.of_same rfl rfl

/-- A cell is written at slots that may be written. -/
theorem put {loc : Nat} {cell cell' : Cell} (here : u.heap.cell? loc = some cell)
    (frames : cell.Frames S loc cell')
    (leads : u.Leads { u with heap := u.heap.put loc (some cell') }) :
    w.Remains S L { u with heap := u.heap.put loc (some cell') } := by
  refine remains.go enrolled leads (fun l _ found there => ?_) (fun l reached living => ?_) rfl
    remains.held rfl rfl (fun _ free => free.of_same rfl rfl) rfl
    fun t => ⟨fun _ => true, by simp, fun _ _ => rfl⟩
  · rw [Heap.cell?_put] at there
    split at there
    · next at_ =>
      obtain rfl := at_.1
      exact ⟨cell, here, Option.some.inj there ▸ frames⟩
    · exact ⟨found, there, .refl _⟩
  · rw [Heap.isAlive_put here]
    exact remains.kept l reached living

theorem setField {r : Ref} {key : String} (may : S (.field r.loc key)) (value : Value) :
    w.Remains S L { u with heap := u.heap.setField r key value } := by
  cases found : u.heap.record? r with
  | none =>
    rw [Heap.setField, found]
    exact remains
  | some c =>
    have leads := Act.Proper.setField r key value u
    have here := Heap.record?_eq_some.mp found
    rw [Act.on_changeHeap] at leads
    rw [Heap.setField_eq_put here] at leads ⊢
    exact remains.put enrolled here (.setField c value may) leads

theorem setItems {r : Ref} (may : S (.items r.loc)) (items : List Value) :
    w.Remains S L { u with heap := u.heap.setItems r items } := by
  cases found : u.heap.collection? r with
  | none =>
    rw [Heap.setItems, found]
    exact remains
  | some c =>
    have leads := Act.Proper.setItems r items u
    have here := Heap.collection?_eq_some.mp found
    rw [Act.on_changeHeap] at leads
    rw [Heap.setItems_eq_put here] at leads ⊢
    exact remains.put enrolled here (.setItems c items may) leads

/-- What can still be got at is held, so a sweep does not free it. -/
theorem sweep : w.Remains S L u.sweep := by
  refine remains.go enrolled (leads_sweep u)
    (fun l _ cell' here => ⟨cell', cell?_of_sweep here, .refl _⟩)
    (fun l reached living => ?_) (by rw [same_sweep]) (by rw [same_sweep]; exact remains.held)
    (by rw [same_sweep]) (by rw [same_sweep])
    (fun _ free => free.of_same (by rw [same_sweep]) (by rw [same_sweep])) (by rw [same_sweep])
    fun t => ⟨_, remains.enrolled.on_sweep t, fun n none => by simp [none]⟩
  have reach : ∀ l, w.Kept S l ∧ w.heap.isAlive l = true → u.heap.isAlive l = true →
      l ∈ Value.placesOfItems (u.desk.names.values ++ u.held) ∨ ∃ k cell,
        (w.Kept S k ∧ w.heap.isAlive k = true) ∧ u.heap.cell? k = some cell ∧ l ∈ cell.places := by
    rintro l ⟨reached, -⟩ -
    cases reached with
    | root held =>
      refine .inl ?_
      rw [remains.desk]
      obtain ⟨more, same⟩ := remains.held
      simp only [← same, Value.mem_placesOfItems_append] at held ⊢
      exact held.imp_right .inr
    | @cell k _ c before here leads =>
      obtain ⟨c', there⟩ := Heap.cell?_of_isAlive
        (remains.kept k before (Heap.isAlive_of_cell? here))
      obtain ⟨c₀, here₀, frames⟩ := remains.cells k (Heap.lt_size_of_cell? here) c' there
      obtain rfl := Option.some.inj (here.symm.trans here₀)
      exact .inr
        ⟨k, c', ⟨before, Heap.isAlive_of_cell? here⟩, there, (leads.frames frames).mem_places⟩
  exact isAlive_sweep reach ⟨reached, living⟩ (remains.kept l reached living)

theorem definition (text : String) : w.Remains S L ((Act.definition text).on u).2 := by
  obtain ⟨heap, parsers, cache, patterns, same, grows, free⟩ := u.after_definition text
  rw [same]
  exact remains.grow enrolled grows rfl rfl (Nat.le_refl _) rfl remains.held rfl rfl
    fun text kept => (free text kept).of_same rfl rfl

omit enrolled in
/-- A live query without calls is attached to a result that has come about. -/
theorem attached {q : LiveQuery} {c : CollectionCell} (bare : u.Bare q.result c)
    (derived : q.Derived) (may : L) (new : w.heap.cells.size ≤ q.result.loc)
    (calls : q.definition.functions = []) : w.Remains S L (u.attached q c) := by
  obtain ⟨enrolled', later⟩ := bare.leads_attached derived remains.enrolled
  refine ⟨fun l inside cell' here => ?_, fun l reached living => ?_, remains.desk, remains.held,
    remains.queries, remains.extensions,
    fun text free => (remains.callFree text free).of_same rfl rfl, enrolled',
    remains.later.trans later, fun n l listens outside => ?_, fun t => ?_, fun t n here none => ?_⟩
  · rw [World.attached, Heap.cell?_put_of_ne (by omega)] at here
    exact remains.cells l inside cell' here
  · rw [World.attached, Heap.isAlive_put bare.here]
    exact remains.kept l reached living
  · rcases q.getElem?_listeners_cases u.bus.listeners listens with old | ⟨route, rfl⟩
    · exact remains.made n l old outside
    · exact ⟨may, q, route, rfl, new, calls⟩
  · obtain ⟨old, fresh, both, sublist, high⟩ := remains.on t
    have enlists := bare.enlists remains.enrolled
    refine ⟨old, _, by rw [enlists.on, both, List.append_assoc], sublist, fun n member => ?_⟩
    rcases List.mem_append.mp member with before | added
    · exact high n before
    · obtain ⟨s, among, rfl⟩ := List.mem_map.mp added
      have listed := List.mem_of_mem_filter among
      rw [subscriptions_attached bare.here, if_pos rfl, remains.enrolled.mem_added] at listed
      obtain ⟨d, -, rfl⟩ := LiveQuery.mem_subscriptions.mp listed
      exact Nat.le_trans remains.later.listeners_size (d.le_listener _)
  · have enlists := bare.enlists remains.enrolled
    rw [enlists.on]
    exact List.mem_append_left _ (remains.scripts t n here none)

end

end Remains

/-- What a text without calls is looked up or compiled to calls nothing. -/
theorem CallFree.of_definition {text : String} {d : Definition} (free : w.CallFree text)
    (gives : (Act.definition text).Gives w d v) : d.functions = [] := by
  cases known : w.cache.entries.lookup text with
  | some d' =>
    rw [Act.Gives, Act.on_definition_of_known known] at gives
    cases gives
    obtain ⟨_, _, same, -⟩ := List.lookup_eq_some_iff.mp known
    exact free.kept _ (same ▸ List.mem_append_right _ List.mem_cons_self)
  | none =>
    have answered : (Act.attempt (Act.definition text)).Gives w (.ok d) v := by
      rw [Act.Gives, Act.on_attempt, gives.on]
    obtain ⟨compiles, -⟩ := Act.attempt_definition_of_unknown known answered
    exact free.of_compiles ((compiles d).mp rfl)

end World

end ReactiveQuery
