import ReactiveQuery.Proofs.Live.Batch
import ReactiveQuery.Proofs.Live.Grow
import ReactiveQuery.Proofs.Session.Read
import ReactiveQuery.Proofs.Sorting

/-! Commands that write fields and items.  They are followed in a mode, which says what holds before
and after each single write: inside a batch or outside. -/

namespace ReactiveQuery

namespace Ref

variable (dispatch : Act Unit) (T : World → Prop) (key : String) (value : Value)

/-- The write of one member, while the value and the members to come are held. -/
def setMember (item : Value) (rest : List Value) : Act Unit := do
  if let .record r := item then
    if FieldMap.contains key ((← get).heap.fields r) then
      Act.holding (value :: item :: rest) (r.setField dispatch key value)

theorem setAttr_cons (item : Value) (rest : List Value) :
    setAttr dispatch key value (item :: rest) =
      setMember dispatch key value item rest >>= fun _ => setAttr dispatch key value rest := by
  cases item with
  | record r =>
    rw [setAttr, setMember]
    simp only [bind_assoc]
    refine congrArg _ (funext fun w => ?_)
    split
    · rfl
    · exact (pure_bind _ _).symm
  | _ => exact (pure_bind _ _).symm

/-- Something holds whenever the write of a member begins. -/
def Steady : List Value → World → Prop
  | [], _ => True
  | item :: rest, w =>
    T w ∧ ∀ v, (setMember dispatch key value item rest).Gives w () v → Steady rest v

variable {dispatch : Act Unit} {key : String} {value : Value}

theorem gives_setMember {item : Value} {rest : List Value} {w v : World}
    (gives : (setMember dispatch key value item rest).Gives w () v) :
    v = w ∨ ∃ r, item = .record r ∧
      (Act.holding (value :: item :: rest) (r.setField dispatch key value)).Gives w () v := by
  unfold setMember at gives
  cases item with
  | record r =>
    simp only [Act.gives_bind, Act.gives_get] at gives
    obtain ⟨_, _, ⟨rfl, rfl⟩, gives⟩ := gives
    split at gives
    · exact .inr ⟨r, rfl, gives⟩
    · exact .inl (Act.gives_pure.mp gives).2.symm
  | _ => exact .inl (Act.gives_pure.mp gives).2.symm

end Ref

namespace World

variable {D : Prop} {M : Nat → Prop} {qs : List LiveQuery} {T : World → Prop}
  {I : List Value → World → Prop} {dispatch : Act Unit} {containers more : List Value}
  {u v w : World}

/-- A world that a command has passed to, where what a mode asks for holds again. -/
structure Turns (I : List Value → World → Prop) (containers : List Value) (w v : World) : Prop where
  passes : w.Passes v
  holds : ∃ more, containers <+: more ∧ I more v

namespace Turns

theorem refl (holds : I containers w) : Turns I containers w w :=
  ⟨.refl w, containers, List.prefix_refl _, holds⟩

theorem trans (first : Turns I containers u v)
    (second : ∀ more, containers <+: more → I more v → Turns I more v w) :
    Turns I containers u w := by
  obtain ⟨passes, more, grown, holds⟩ := first
  obtain ⟨passes', most, grown', holds'⟩ := second more grown holds
  exact ⟨passes.trans passes', most, grown.trans grown', holds'⟩

end Turns

/-- A collection that a caller may change: it is no result, and it is declared as far as `D` asks
for it. -/
structure Open (D : Prop) (M : Nat → Prop) (qs : List LiveQuery) (r : Ref) : Prop where
  number : r.id = r.loc + 1
  own : ∀ q ∈ qs, q.result.loc ≠ r.loc
  declared : D → M r.loc

/-- How single writes go on from each other.  `T` is what has to hold before one, `I` what holds
before and after.  As far as `D` asks for it, no negative zero is written. -/
structure Mode (D : Prop) (M : Nat → Prop) (qs : List LiveQuery) (dispatch : Act Unit)
    (T : World → Prop) (I : List Value → World → Prop) : Prop where
  sound : ∀ {containers w}, I containers w → w.Sound M qs
  queued : ∀ {containers w}, I containers w → w.Queued qs
  fits : ∀ {containers w}, I containers w → w.Fits containers qs
  calm : ∀ {containers w}, I containers w →
    w.bus.dispatching = true ∨ w.bus.queue.isEmpty = true
  holding : ∀ {containers w} values, I containers w → I containers { w with held := values }
  reading : ∀ {containers more w v}, I containers w → w.Reading qs containers more v → I more v
  ready_holding : ∀ {w} values, T w → T { w with held := values }
  ready_reading : ∀ {containers more w v}, T w → w.Reading qs containers more v → T v
  sets : ∀ {containers w r key value old u v}, I containers w → T w → r.id = r.loc + 1 →
    value.Fits containers w.heap.cells.size → (D → value.isNegativeZero = false) →
    u.Sound M qs → u.Queued qs → w.Sets qs r key value old u → dispatch.Gives u () v →
    Turns I containers w v
  writes : ∀ {containers w r items u v}, I containers w → T w → Open D M qs r →
    (∀ x ∈ items, x.Fits containers w.heap.cells.size) → u.Sound M qs → u.Queued qs →
    w.Writes qs r items u → dispatch.Gives u () v → Turns I containers w v

theorem Has.passes {x : Value} (has : w.Has containers x) (passes : w.Passes v)
    (grown : containers <+: more) (held : x ∈ w.held) : v.Has more x where
  fits := has.fits.later grown (Nat.le_of_eq passes.size.symm)
  alive l inside := passes.rooted l (Value.mem_placesOfItems.mpr
    ⟨x, List.mem_append_right _ held, inside⟩) (has.alive l inside)

/-- What an item leads to lives. -/
theorem Sound.has_item (sound : w.Sound M qs) (fits : w.Fits containers qs) {r : Ref} {x : Value}
    (item : x ∈ w.heap.items r) : w.Has containers x where
  fits := fits.heap.items r x item
  alive _ held := sound.alive_of_item item held

/-- The items of a collection that is no result may be written again. -/
theorem Sound.may_item (sound : w.Sound M qs) (fits : w.Fits containers qs) {r : Ref} {x : Value}
    (item : x ∈ w.heap.items r) (own : ∀ q ∈ qs, q.result.loc ≠ r.loc) : w.May M containers x where
  toHas := sound.has_item fits item
  apart l held may := by
    obtain ⟨c, here, inside⟩ := Heap.exists_of_mem_items item
    obtain ⟨q, member, same, -⟩ := sound.guarded _ _ here x inside l held may
    exact own q member same

namespace Mode

variable (mode : Mode D M qs dispatch T I) (settles : Settles dispatch)
include mode settles

theorem setField {r : Ref} {key : String} {value : Value} (holds : I containers w) (ready : T w)
    (number : r.id = r.loc + 1) (may : w.May M containers value)
    (signed : D → value.isNegativeZero = false)
    (gives : (r.setField dispatch key value).Gives w () v) : Turns I containers w v := by
  obtain ⟨u, sound, queued, dispatched, ⟨rfl, -⟩ | ⟨old, sets⟩⟩ :=
    Sound.setField settles (mode.sound holds) (mode.queued holds) (mode.calm holds)
      ⟨containers, mode.fits holds, may.fits⟩ may.alive may.apart gives
  · obtain ⟨-, rfl⟩ := dispatched.unique (settles.calm u (mode.calm holds))
    exact .refl holds
  · exact mode.sets holds ready number may.fits signed sound queued sets dispatched

theorem change {r : Ref} {f : ItemChange} {values out : List Value} (holds : I containers w)
    (ready : T w) (free : Open D M qs r) (draws : f.Draws values)
    (may : ∀ x ∈ values, w.May M containers x) (gives : (r.change dispatch f).Gives w out v) :
    Turns I containers w v ∧ ∀ x ∈ out, v.Has containers x := by
  have fits := mode.fits holds
  obtain ⟨u, x, sound, queued, dispatched, rfl, taken, wrote⟩ :=
    Sound.change settles (mode.sound holds) (mode.queued holds) (mode.calm holds) draws
      ⟨containers, fits, fun x member => (may x member).fits⟩ (fun x member => (may x member).alive)
      (fun x member => (may x member).apart) gives
  have inner : Turns I containers { w with held := out ++ w.held } x := by
    rcases wrote with rfl | ⟨items, writes, drawn⟩
    · have still := settles.calm _ (mode.calm (mode.holding (out ++ w.held) holds))
      obtain ⟨-, rfl⟩ := dispatched.unique still
      exact .refl (mode.holding _ holds)
    · refine mode.writes (mode.holding _ holds) (mode.ready_holding _ ready) free
        (fun y member => ?_) sound queued writes dispatched
      rcases drawn y member with before | given | rfl
      · exact fits.heap.items r y before
      · exact (may y given).fits
      · trivial
  obtain ⟨passes, more, grown, after⟩ := inner
  refine ⟨⟨passes.holding, more, grown, mode.holding _ after⟩, fun y member => ?_⟩
  have has := (mode.sound holds).has_item fits (taken y member)
  have before : Has { w with held := out ++ w.held } containers y := ⟨has.fits, has.alive⟩
  have lives := before.passes passes (List.prefix_refl _) (List.mem_append_left _ member)
  exact ⟨lives.fits, lives.alive⟩

/-- Writing a field of every member that declares it is one write after the other. -/
theorem setAttr {key : String} {value : Value} {items : List Value} (holds : I containers w)
    (steady : Ref.Steady dispatch T key value items w) (may : w.May M containers value)
    (signed : D → value.isNegativeZero = false) (has : ∀ x ∈ items, w.Has containers x)
    (gives : (Ref.setAttr dispatch key value items).Gives w () v) : Turns I containers w v := by
  induction items generalizing containers w with
  | nil =>
    obtain ⟨-, rfl⟩ := Act.gives_pure.mp gives
    exact .refl holds
  | cons item rest ih =>
    rw [Ref.setAttr_cons, Act.gives_bind] at gives
    obtain ⟨_, u, first, others⟩ := gives
    have ⟨ready, next⟩ := steady
    have later := next u first
    rcases Ref.gives_setMember first with rfl | ⟨r, rfl, wrote⟩
    · exact ih holds later may (fun x member => has x (List.mem_cons_of_mem _ member)) others
    · obtain ⟨x, set, rfl⟩ := Act.gives_holding.mp wrote
      have held : ∀ y, w.Has containers y →
          Has { w with held := value :: .record r :: rest ++ w.held } containers y :=
        fun y has => ⟨has.fits, has.alive⟩
      have number : r.id = r.loc + 1 := (has _ List.mem_cons_self).fits.1
      obtain ⟨passes, more, grown, after⟩ := setField mode settles (mode.holding _ holds)
        (mode.ready_holding _ ready) number ⟨held value may.toHas, may.apart⟩ signed set
      refine Turns.trans ⟨passes.holding, more, grown, mode.holding _ after⟩
        fun most grown' after => ?_
      have kept : ∀ y, w.Has containers y → y ∈ value :: .record r :: rest →
          Has { x with held := w.held } most y := fun y has member => by
        have has := (held y has).passes passes grown' (List.mem_append_left _ member)
        exact ⟨has.fits, has.alive⟩
      refine ih after later ⟨kept value may.toHas List.mem_cons_self, may.apart⟩
        (fun y member => kept y (has y (List.mem_cons_of_mem _ member)) ?_) others
      exact List.mem_cons_of_mem _ (List.mem_cons_of_mem _ member)

end Mode

/-- A world that a command has passed to with a reply that it can go on with. -/
structure Answers (I : List Value → World → Prop) (containers : List Value) (w : World)
    (reply : Reply) (v : World) : Prop where
  passes : w.Passes v
  holds : ∃ more, containers <+: more ∧ I more v ∧ ∀ x, reply = .value x → v.Has more x

theorem Turns.answers (turns : Turns I containers w v) {reply : Reply}
    (has : ∀ x, reply = .value x → v.Has containers x) : Answers I containers w reply v := by
  obtain ⟨passes, more, grown, after⟩ := turns
  exact ⟨passes, more, grown, after, fun x same => (has x same).later grown⟩

theorem Answers.of_reading {reply : Reply} (reading : w.Reading qs containers more u)
    (answers : Answers I more u reply v) : Answers I containers w reply v := by
  obtain ⟨passes, most, grown, after⟩ := answers
  exact ⟨(Passes.of_advances reading.advances).trans passes, most, reading.grown.trans grown, after⟩

end World

/-- A written value that makes nothing and leads to nothing that may change. -/
def Term.Apart (M : Nat → Prop) (names : FieldMap Value) (t : Term) : Prop :=
  t.isPlain = true ∧ ∀ l ∈ t.places names, ¬M l

theorem Term.Reads.has {M : Nat → Prop} {qs : List LiveQuery} {containers more : List Value}
    {u w : World} {t : Term} {x : Value} (reads : t.Reads w.desk.names w.heap.cells.size more x)
    (sound : w.Sound M qs) (reading : w.Reading qs containers more u) : u.Has more x where
  fits := by
    rw [reading.size]
    exact reads.fits
  alive l held := by
    unfold Heap.isAlive
    rw [reading.cell?]
    exact sound.closed.names l (t.named_of_mem_places (reads.leads l held))

theorem Term.Apart.may {M : Nat → Prop} {qs : List LiveQuery} {containers more : List Value}
    {u w : World} {t : Term} {x : Value} (apart : t.Apart M w.desk.names) (sound : w.Sound M qs)
    (reading : w.Reading qs containers more u)
    (reads : t.Reads w.desk.names w.heap.cells.size more x) : u.May M more x :=
  ⟨reads.has sound reading, fun l held => apart.2 l (reads.leads l held)⟩

namespace ItemChange

theorem draws_push (v : Value) : (push v).Draws [v] := by
  rintro items _ _ ⟨⟩
  exact ⟨fun x member => (List.mem_append.mp member).imp_right .inl, by simp⟩

theorem draws_unshift (v : Value) : (unshift v).Draws [v] := by
  rintro items _ _ ⟨⟩
  refine ⟨fun x member => ?_, by simp⟩
  exact (List.mem_cons.mp member).symm.imp_right fun same => .inl (List.mem_singleton.mpr same)

theorem draws_insert (index : Nat) (v : Value) : (insert index v).Draws [v] := by
  intro items new out made
  unfold insert at made
  split at made
  · cases made
  · next inside =>
    cases made
    refine ⟨fun x member => ?_, by simp⟩
    have member := (List.mem_insertIdx (Nat.le_of_not_lt inside)).mp member
    exact member.symm.imp_right fun same => .inl (List.mem_singleton.mpr same)

theorem draws_pop : pop.Draws [] := by
  rintro items _ _ ⟨⟩
  refine ⟨fun x member => .inl (List.dropLast_subset items member), fun x member => ?_⟩
  exact List.mem_of_getLast? (by simpa using member)

theorem draws_shift : shift.Draws [] := by
  rintro items _ _ ⟨⟩
  refine ⟨fun x member => .inl (List.mem_of_mem_tail member), fun x member => ?_⟩
  exact List.mem_of_mem_head? (by simpa using member)

theorem draws_remove (index : Nat) : (remove index).Draws [] := by
  intro items new out made
  unfold remove at made
  split at made
  · cases made
    refine ⟨fun x member => .inl (List.mem_of_mem_eraseIdx member), fun x member => ?_⟩
    exact List.mem_of_getElem? (by simpa using member)
  · cases made

theorem draws_reverse : reverse.Draws [] := by
  rintro items _ _ ⟨⟩
  exact ⟨fun x member => .inl (List.mem_reverse.mp member), by simp⟩

theorem draws_setItem (index : Nat) (v : Value) : (setItem index v).Draws [v] := by
  intro items new out made
  unfold setItem at made
  split at made
  · cases made
    refine ⟨fun x member => ?_, fun x member => List.mem_of_getElem? (by simpa using member)⟩
    rcases List.mem_or_eq_of_mem_set member with before | rfl
    · exact .inl before
    · exact .inr (.inl (by simp))
  · cases made
    refine ⟨fun x member => ?_, by simp⟩
    simp only [List.mem_append, List.mem_singleton, List.mem_replicate] at member ⊢
    rcases member with (before | ⟨-, null⟩) | given
    · exact .inl before
    · exact .inr (.inr null)
    · exact .inr (.inl given)

theorem draws_replaceAll (new : List Value) : (replaceAll new).Draws new := by
  rintro items _ _ ⟨⟩
  exact ⟨fun x member => .inr (.inl member), fun _ => id⟩

end ItemChange

/-- The values that a command puts into a collection, if it is one that changes the items. -/
def CollectionCommand.terms? : CollectionCommand → Option (List Term)
  | .push t | .unshift t | .insert _ t | .setItem _ t => some [t]
  | .pop | .shift | .remove _ | .reverse | .sortBy _ => some []
  | .replaceAll items => some items
  | .setAttr .. | .attr _ | .item _ | .length | .containsObject _ | .retain _ | .weaken _ => none

namespace World

variable {D : Prop} {M : Nat → Prop} {qs : List LiveQuery} {T : World → Prop}
  {I : List Value → World → Prop} {dispatch : Act Unit} {containers : List Value} {v w : World}
  {r : Ref} {reply : Reply}

theorem has_null (w : World) (containers : List Value) : w.Has containers .null :=
  ⟨trivial, by simp [Value.places]⟩

namespace Mode

variable (mode : Mode D M qs dispatch T I) (settles : Settles dispatch)
include mode settles

section
variable (holds : I containers w) (ready : T w) (free : Open D M qs r)
include holds ready free

theorem change_answers {f : ItemChange} {values : List Value} (draws : f.Draws values)
    (may : ∀ x ∈ values, w.May M containers x)
    (gives : (CollectionCommand.perform.change dispatch r f).Gives w reply v) :
    Answers I containers w reply v := by
  simp only [CollectionCommand.perform.change, Act.gives_bind, Act.gives_pure] at gives
  obtain ⟨out, _, changed, rfl, rfl⟩ := gives
  refine (mode.change settles holds ready free draws may changed).1.answers ?_
  rintro _ ⟨⟩
  exact has_null ..

theorem taken_answers {f : ItemChange} (draws : f.Draws [])
    (gives : (CollectionCommand.perform.taken dispatch r f).Gives w reply v) :
    Answers I containers w reply v := by
  simp only [CollectionCommand.perform.taken, Act.gives_bind, Act.gives_pure] at gives
  obtain ⟨out, _, changed, rfl, rfl⟩ := gives
  obtain ⟨turns, has⟩ := mode.change settles holds ready free draws (by simp) changed
  refine turns.answers ?_
  rintro _ ⟨⟩
  cases out with
  | nil => exact has_null ..
  | cons x out => exact has x List.mem_cons_self

theorem read_answers {t : Term} {f : Value → ItemChange} (draws : ∀ x, (f x).Draws [x])
    (apart : ∀ s ∈ [t], s.Apart M w.desk.names)
    (gives : (Act.read t >>= fun x =>
      CollectionCommand.perform.change dispatch r (f x)).Gives w reply v) :
    Answers I containers w reply v := by
  obtain ⟨x, u, read, changed⟩ := Act.gives_bind.mp gives
  have apart := apart t List.mem_cons_self
  obtain ⟨more, reading, reads⟩ := Act.gives_read apart.1 (mode.fits holds) read
  have may := apart.may (mode.sound holds) reading reads
  exact (change_answers mode settles (mode.reading holds reading) (mode.ready_reading ready reading)
    free (draws x) (List.forall_mem_singleton.mpr may) changed).of_reading reading

theorem replaceAll_answers {ts : List Term} (apart : ∀ t ∈ ts, t.Apart M w.desk.names)
    (gives : ((CollectionCommand.replaceAll ts).perform dispatch r).Gives w reply v) :
    Answers I containers w reply v := by
  obtain ⟨xs, u, read, changed⟩ := Act.gives_bind.mp gives
  obtain ⟨more, reading, reads⟩ :=
    Act.gives_readAll (fun t member => (apart t member).1) (mode.fits holds) read
  have may : ∀ x ∈ xs, u.May M more x := fun x member => by
    obtain ⟨t, inside, here⟩ := reads x member
    exact (apart t inside).may (mode.sound holds) reading here
  exact (change_answers mode settles (mode.reading holds reading) (mode.ready_reading ready reading)
    free (ItemChange.draws_replaceAll xs) may changed).of_reading reading

/-- Sorted items are the items there were. -/
theorem sortBy_answers {ascending : Bool}
    (gives : ((CollectionCommand.sortBy ascending).perform dispatch r).Gives w reply v) :
    Answers I containers w reply v := by
  simp only [CollectionCommand.perform, Ref.sortItems, Act.gives_bind, Act.gives_ask,
    Act.gives_pure] at gives
  obtain ⟨_, _, ⟨sorted, _, ⟨found, rfl⟩, out, _, changed, -, rfl⟩, rfl, rfl⟩ := gives
  have among := (mergeSortBy_map _ id (fun _ _ _ _ _ => id) found).2
  have may : ∀ x ∈ sorted, w.May M containers x := fun x member =>
    (mode.sound holds).may_item (mode.fits holds) (among x member) free.own
  refine (mode.change settles holds ready free (ItemChange.draws_replaceAll sorted) may
    changed).1.answers ?_
  rintro _ ⟨⟩
  exact has_null ..

/-- A command that changes items goes on to a world that holds as much. -/
theorem mutate {c : CollectionCommand} {ts : List Term} (mutates : c.terms? = some ts)
    (apart : ∀ t ∈ ts, t.Apart M w.desk.names) (gives : (c.perform dispatch r).Gives w reply v) :
    Answers I containers w reply v := by
  cases c <;> cases mutates
  case push => exact mode.read_answers settles holds ready free ItemChange.draws_push apart gives
  case unshift =>
    exact mode.read_answers settles holds ready free ItemChange.draws_unshift apart gives
  case insert index t =>
    exact mode.read_answers settles holds ready free (ItemChange.draws_insert index) apart gives
  case setItem index t =>
    exact mode.read_answers settles holds ready free (ItemChange.draws_setItem index) apart gives
  case pop => exact mode.taken_answers settles holds ready free ItemChange.draws_pop gives
  case shift => exact mode.taken_answers settles holds ready free ItemChange.draws_shift gives
  case remove index =>
    exact mode.taken_answers settles holds ready free (ItemChange.draws_remove index) gives
  case reverse =>
    exact mode.change_answers settles holds ready free ItemChange.draws_reverse (by simp) gives
  case sortBy => exact mode.sortBy_answers settles holds ready free gives
  case replaceAll => exact mode.replaceAll_answers settles holds ready free apart gives

end

end Mode

end World

end ReactiveQuery
