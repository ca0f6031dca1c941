import ReactiveQuery.Proofs.Session.Create

/-! Commands from outside.  Whatever a caller makes, writes, asks for or drops, the world comes to
rest again, and the reply is something to go on with. -/

namespace ReactiveQuery

/-- A written value that may be given to a live query: a collection by its name, or one that leads
to nothing that may change. -/
def Term.Argument (M : Nat → Prop) (names : FieldMap Value) (t : Term) : Prop :=
  t.isPlain = true ∧
    ((∃ name r, t = .named name ∧ FieldMap.get? name names = some (.collection r)) ∨
      ∀ l ∈ t.places names, ¬M l)

theorem Term.Argument.apart {M : Nat → Prop} {names : FieldMap Value} {size : Nat}
    {containers : List Value} {t : Term} {x : Value} (argument : t.Argument M names)
    (reads : t.Reads names size containers x) (other : ∀ r, x ≠ .collection r) :
    ∀ l ∈ x.places, ¬M l := by
  rcases argument.2 with ⟨name, r, same, bound⟩ | apart
  · refine absurd ?_ (other r)
    rw [reads.bound name same, bound]
    rfl
  · exact fun l held => apart l (reads.leads l held)

namespace Command

/-- The command whose value is bound. -/
def core : Command → Command
  | .bind _ inner => inner.core
  | c => c

/-- The commands of a caller that make values and names, drop names, and write. -/
inductive Allowed (D : Prop) (M : Nat → Prop) (qs : List LiveQuery) (names : FieldMap Value) :
    Command → Prop
  | value {t : Term} (plain : t.isPlain = true) : Allowed D M qs names (.value t)
  | newRecord {fields : List (String × Term)} (apart : ∀ p ∈ fields, p.2.Apart M names) :
    Allowed D M qs names (.newRecord fields none)
  | newCollection {items : List Term} (apart : ∀ t ∈ items, t.Apart M names) :
    Allowed D M qs names (.newCollection items none)
  | drop (name : String) : Allowed D M qs names (.drop name)
  | writes {c : Command} (writes : c.Writes D M qs names) : Allowed D M qs names c

/-- The commands that ask for a live query, with its source, the items that are read for that, the
text, the arguments, and the place of the result. -/
inductive Asks (M : Nat → Prop) (w : World) :
    Command → Ref → List Term → String → List Term → Nat → Prop
  | live {source text : String} {params : List Term} {r : Ref}
    (bound : FieldMap.get? source w.desk.names = some (.collection r))
    (arguments : ∀ t ∈ params, t.Argument M w.desk.names) :
    Asks M w (.live source text params) r [] text params w.heap.cells.size
  | liveOver {items : List Term} {text : String} {params : List Term}
    (apart : ∀ t ∈ items, t.Apart M w.desk.names)
    (arguments : ∀ t ∈ params, t.Argument M w.desk.names) :
    Asks M w (.liveOver items text params) ⟨w.heap.cells.size, w.bus.nextId⟩ items text params
      (w.heap.cells.size + 1)

end Command

namespace World

variable {D : Prop} {M : Nat → Prop} {qs : List LiveQuery} {containers : List Value}
  {again : Reentry} {u v w : World} {reply : Reply}

/-- A world at rest after a reply that it can go on with. -/
def Replies (D : Prop) (M : Nat → Prop) (qs : List LiveQuery) (reply : Reply) (v : World) : Prop :=
  ∃ containers, Resting D M qs containers v ∧ ∀ x, reply = .value x → v.Has containers x

/-- What a command binds is what it replies with. -/
theorem gives_core {c : Command} (gives : (c.perform again).Gives w reply v) :
    ∃ u desk, (c.core.perform again).Gives w reply u ∧ v = { u with desk } ∧
      ∀ e ∈ desk.names, e ∈ u.desk.names ∨ reply = .value e.2 := by
  induction c using Command.core.induct generalizing v reply with
  | case1 name inner ih =>
    simp only [Command.perform, Act.gives_bind] at gives
    obtain ⟨reply', x, performed, gives⟩ := gives
    obtain ⟨u, desk, core, rfl, among⟩ := ih performed
    cases reply' with
    | value value =>
      simp only [Act.bindName, Act.changeDesk, Act.gives_bind, Act.gives_modify,
        Act.gives_pure] at gives
      obtain ⟨_, _, rfl, rfl, rfl⟩ := gives
      refine ⟨u, _, core, rfl, fun e member => ?_⟩
      rcases FieldMap.mem_insert member with same | member
      · exact .inr (by rw [same])
      · exact among e member
    | _ =>
      obtain ⟨rfl, rfl⟩ := Act.gives_pure.mp gives
      exact ⟨u, desk, core, rfl, among⟩
  | case2 c other =>
    rw [Command.core]
    · exact ⟨v, v.desk, gives, rfl, fun e => .inl⟩
    · exact other

theorem Sound.has_name (sound : w.Sound M qs) (fits : w.Fits containers qs) {e : String × Value}
    (member : e ∈ w.desk.names) : w.Has containers e.2 :=
  ⟨fits.names e member, fun l held => sound.closed.names l
    (Value.mem_placesOfItems.mpr ⟨e.2, List.mem_map.mpr ⟨e, member, rfl⟩, held⟩)⟩

theorem Replies.of_core {c : Command} (gives : (c.perform again).Gives w reply v)
    (replies : ∀ u, (c.core.perform again).Gives w reply u → Replies D M qs reply u) :
    Replies D M qs reply v := by
  obtain ⟨u, desk, core, rfl, among⟩ := gives_core gives
  obtain ⟨containers, resting, has⟩ := replies u core
  refine ⟨containers, resting.withDesk fun e member => ?_, fun x same => ?_⟩
  · rcases among e member with old | same
    · exact resting.sound.has_name resting.fits old
    · exact has e.2 same
  · exact ⟨(has x same).fits, (has x same).alive⟩

theorem Answers.replies {I : List Value → World → Prop}
    (answers : Answers I containers w reply v)
    (resting : ∀ {more}, I more v → Resting D M qs more v) :
    Replies D M qs reply v := by
  obtain ⟨-, more, -, after, has⟩ := answers
  exact ⟨more, resting after, has⟩

/-- A world with a new cell replies with the handle on it. -/
theorem Resting.replies_withCell (resting : Resting D M qs containers w) {cell : Cell}
    (may : ∀ x ∈ cell.contents, w.May M containers x) (sink : cell.sink = .bus)
    (bare : ∀ r, cell.retained? = some r → r = {}) {x : Value}
    (handle : x = .record ⟨w.heap.cells.size, w.bus.nextId⟩ ∨
      x = .collection ⟨w.heap.cells.size, w.bus.nextId⟩) :
    Replies D M qs (.value x) (w.withCell cell) := by
  obtain ⟨-, collection, record⟩ := has_withCell resting.sound cell containers
  refine ⟨containers, resting.withCell may sink bare, ?_⟩
  rintro _ ⟨⟩
  rcases handle with rfl | rfl
  · exact record
  · exact collection

/-- A command that is allowed brings the world to rest with a reply to go on with. -/
theorem Resting.perform {c : Command} (settles : Settles again.dispatch)
    (resting : Resting D M qs containers w)
    (ready : c.Steady again.dispatch (fun w => D → w.Tame qs) w)
    (allowed : c.Allowed D M qs w.desk.names) (gives : (c.perform again).Gives w reply v)
    (ok : reply.Ok) : Replies D M qs reply v := by
  have sound := resting.sound
  have fits := resting.fits
  have mode : Mode D M qs again.dispatch _ _ := mode_resting settles
  cases allowed with
  | @value t plain =>
    simp only [Command.perform, Act.gives_bind, Act.gives_pure] at gives
    obtain ⟨x, u, read, rfl, rfl⟩ := gives
    obtain ⟨more, reading, reads⟩ := Act.gives_read plain fits read
    refine ⟨more, mode.reading resting reading, ?_⟩
    rintro _ ⟨⟩
    exact reads.has sound reading
  | @newRecord fields apart =>
    simp only [Command.perform, Act.gives_bind, Act.gives_pure] at gives
    obtain ⟨values, u, read, r, _, created, rfl, rfl⟩ := gives
    obtain ⟨more, reading, reads⟩ :=
      Act.gives_readFields (fun p member => (apart p member).1) fits read
    obtain ⟨rfl, rfl⟩ := gives_newRecord created
    refine (mode.reading resting reading).replies_withCell (fun x member => ?_) rfl
      (by rintro _ ⟨⟩) (.inl rfl)
    obtain ⟨e, inside, rfl⟩ := List.mem_map.mp member
    obtain ⟨p, written, here⟩ := reads e inside
    exact (apart p written).may sound reading here
  | @newCollection items apart =>
    simp only [Command.perform, Act.gives_bind, Act.gives_pure] at gives
    obtain ⟨values, u, read, r, _, created, rfl, rfl⟩ := gives
    obtain ⟨more, reading, reads⟩ :=
      Act.gives_readAll (fun t member => (apart t member).1) fits read
    obtain ⟨rfl, rfl⟩ := gives_newCollection created
    refine (mode.reading resting reading).replies_withCell (fun x member => ?_) rfl ?_ (.inr rfl)
    · obtain ⟨t, written, here⟩ := reads x member
      exact (apart t written).may sound reading here
    · rintro _ ⟨⟩
      rfl
  | drop name =>
    simp only [Command.perform, Act.changeDesk, Act.gives_bind, Act.gives_get, Act.gives_modify,
      Act.gives_pure] at gives
    obtain ⟨_, _, ⟨rfl, rfl⟩, _, _, rfl, rfl, rfl⟩ := gives
    refine ⟨containers, resting.withDesk fun e member => ?_, ?_⟩
    · exact sound.has_name fits (List.mem_filter.mp member).1
    · rintro _ ⟨⟩
      exact ⟨trivial, by simp [Value.places]⟩
  | writes writes =>
    cases writes with
    | single single => exact (mode.single settles resting ready single gives).replies id
    | batch all =>
      obtain ⟨-, more, -, after⟩ := resting.batch settles ready all gives ok
      refine ⟨more, after, ?_⟩
      rintro x rfl
      obtain ⟨_, _, _, ⟨⟩, _⟩ := Act.gives_bind.mp gives

/-- Reading the items and then the arguments of a command. -/
def readsArguments (items params : List Term) : Act (List Value) := do
  let _ ← Act.readAll items
  Act.readAll params

theorem Resting.holding_live {source result : Ref} {text : String} {values : List Value}
    (settles : Settles again.dispatch) (resting : Resting D M qs containers w)
    (base : w.Has containers (.collection source)) (given : ∀ x ∈ values, w.Has containers x)
    (apart : ∀ x ∈ values, (∀ r, x ≠ .collection r) → ∀ l ∈ x.places, ¬M l)
    (may : M w.heap.cells.size)
    (gives : (Act.holding (.collection source :: values)
      (Act.live again.call again.dispatch source text values)).Gives w result v) :
    ∃ q, Makes w.heap.cells.size source text values result v q ∧
      Replies D M (q :: qs) (.value (.collection result)) v := by
  obtain ⟨x, made, rfl⟩ := Act.gives_holding.mp gives
  obtain ⟨-, -, more, q, -, after, makes, has⟩ :=
    (resting.holding (.collection source :: values ++ w.held)).live settles (base.withHeld _)
      (fun y member => (given y member).withHeld _) apart may made
  refine ⟨q, makes.withHeld _, more, after.holding _, ?_⟩
  rintro _ ⟨⟩
  exact has.withHeld _

/-- A command that asks for a live query brings it to those there are. -/
theorem Resting.perform_asks {c : Command} {source : Ref} {items params : List Term} {text : String}
    {place : Nat} (settles : Settles again.dispatch) (resting : Resting D M qs containers w)
    (asks : c.Asks M w source items text params place) (may : M place)
    (gives : (c.perform again).Gives w reply v) : ∃ values u result q,
      (readsArguments items params).Gives w values u ∧ reply = .value (.collection result) ∧
        Makes place source text values result v q ∧ Replies D M (q :: qs) reply v := by
  have sound := resting.sound
  have fits := resting.fits
  have mode : Mode D M qs again.dispatch _ _ := mode_resting settles
  cases asks with
  | live bound arguments =>
    simp only [Command.perform, Act.overSource, Act.named, Act.gives_bind, Act.gives_get,
      Act.gives_pure] at gives
    obtain ⟨_, _, ⟨_, _, ⟨rfl, rfl⟩, rfl, rfl⟩, gives⟩ := gives
    rw [bound] at gives
    simp only [Option.getD_some, Act.gives_bind, Act.gives_pure] at gives
    obtain ⟨values, u, read, result, _, made, rfl, rfl⟩ := gives
    obtain ⟨more, reading, reads⟩ :=
      Act.gives_readAll (fun t member => (arguments t member).1) fits read
    have base : w.Has containers (.collection source) :=
      sound.has_name fits (FieldMap.mem_of_get? bound)
    have given : ∀ y ∈ values, u.Has more y := fun y member => by
      obtain ⟨t, -, here⟩ := reads y member
      exact here.has sound reading
    have apart : ∀ y ∈ values, (∀ r, y ≠ .collection r) → ∀ l ∈ y.places, ¬M l :=
      fun y member => by
        obtain ⟨t, inside, here⟩ := reads y member
        exact (arguments t inside).apart here
    obtain ⟨q, makes, replies⟩ := (mode.reading resting reading).holding_live settles
      (base.reading reading) given apart (reading.size.symm ▸ may : M u.heap.cells.size) made
    refine ⟨values, u, result, q, ?_, rfl, ?_, replies⟩
    · exact Act.gives_bind.mpr ⟨[], w, Act.gives_pure.mpr ⟨rfl, rfl⟩, read⟩
    · rwa [← reading.size]
  | liveOver apart arguments =>
    simp only [Command.perform, Act.gives_bind, Act.gives_pure] at gives
    obtain ⟨items, w₁, readItems, values, u, read, source, _, created, result, _, made, rfl, rfl⟩ :=
      gives
    obtain ⟨more, reading, readsItems⟩ :=
      Act.gives_readAll (fun t member => (apart t member).1) fits readItems
    obtain ⟨most, reading', reads⟩ :=
      Act.gives_readAll (fun t member => (arguments t member).1) reading.fits read
    rw [reading.names, reading.size] at reads
    have both := reading.trans reading'
    have resting' := mode.reading resting both
    have given : ∀ y ∈ values, u.Has most y := fun y member => by
      obtain ⟨t, -, here⟩ := reads y member
      exact here.has sound both
    have args : ∀ y ∈ values, (∀ r, y ≠ .collection r) → ∀ l ∈ y.places, ¬M l :=
      fun y member => by
        obtain ⟨t, inside, here⟩ := reads y member
        exact (arguments t inside).apart here
    obtain ⟨rfl, rfl⟩ := gives_newCollection created
    generalize cell : CollectionCell.mk u.bus.nextId items .bus {} = c at *
    have begun : Resting D M qs most (u.withCell (.collection c)) := by
      subst cell
      refine resting'.withCell (fun y member => ?_) rfl ?_
      · obtain ⟨t, written, here⟩ := readsItems y member
        exact (apart t written).may sound both (here.later reading'.grown)
      · rintro _ ⟨⟩
        rfl
    obtain ⟨-, base, -⟩ := has_withCell resting'.sound (.collection c) most
    have size : (u.withCell (.collection c)).heap.cells.size = w.heap.cells.size + 1 := by
      rw [World.withCell, Heap.size_allocate, both.size]
    obtain ⟨q, makes, replies⟩ := begun.holding_live settles base
      (fun y member => (given y member).withCell _) args (size.symm ▸ may) made
    refine ⟨values, u, result, q, Act.gives_bind.mpr ⟨items, w₁, readItems, read⟩, rfl, ?_, replies⟩
    rw [size] at makes
    rwa [both.size, show u.bus.nextId = w.bus.nextId by rw [both.same]] at makes

end World

end ReactiveQuery
