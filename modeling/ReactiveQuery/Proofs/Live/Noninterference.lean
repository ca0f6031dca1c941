import ReactiveQuery.Proofs.Live.Query

/-! A query sees no field that its paths do not name.  Between two heaps of one shape its outcome
can differ only through a field that a path names, and what a path names is followed. -/

namespace ReactiveQuery

/-- Two heaps with the same records and collections, where the records have fields of the same names
and the collections hold the same items. -/
structure Heap.SameShape (h k : Heap) : Prop where
  size : h.cells.size = k.cells.size
  items : ∀ r : Ref, k.items r = h.items r
  names : ∀ (r : Ref) key,
    FieldMap.contains key (k.fields r) = FieldMap.contains key (h.fields r)

/-- Two heaps whose records agree on the fields of some names. -/
def Heap.SameFields (F : String → Prop) (h k : Heap) : Prop :=
  ∀ (r : Ref) key, F key → FieldMap.get? key (k.fields r) = FieldMap.get? key (h.fields r)

/-- The tags of a value are below the next one. -/
def Value.Taken (next : Nat) (v : Value) : Prop := ∀ t ∈ v.tags, t < next

/-- The tags in use in a heap are below the next one. -/
structure Heap.Tagged (h : Heap) : Prop where
  items : ∀ r : Ref, ∀ v ∈ h.items r, v.Taken h.nextTag
  fields : ∀ (r : Ref) key v, FieldMap.get? key (h.fields r) = some v → v.Taken h.nextTag

/-- So they are in every run. -/
theorem Heap.Fits.tagged {h : Heap} {containers : List Value} {size : Nat}
    (fits : h.Fits containers size) : h.Tagged where
  items r v member t used := fits.tags ▸ (fits.items r v member).tags_lt t used
  fields r _ _ found t used :=
    fits.tags ▸ (fits.fields r _ (FieldMap.mem_of_get? found)).tags_lt t used

/-- Two worlds with heaps of one shape. -/
structure World.Alongside (u v : World) : Prop where
  shape : u.heap.SameShape v.heap
  tagged : u.heap.Tagged
  tagged' : v.heap.Tagged
  read : u.patterns.Reachable
  read' : v.patterns.Reachable

namespace Heap.SameShape

variable {h k : Heap}

theorem symm (shape : h.SameShape k) : k.SameShape h where
  size := shape.size.symm
  items r := (shape.items r).symm
  names r key := (shape.names r key).symm

/-- Heaps of one shape agree on the fields of the same names, where renaming leaves the tags. -/
theorem agree (shape : h.SameShape k) {F : String → Prop} (fields : h.SameFields F k)
    {ρ : Nat → Nat} (items : ∀ r : Ref, ∀ v ∈ h.items r, v.retag ρ = v)
    (found : ∀ (r : Ref) key v, F key → FieldMap.get? key (h.fields r) = some v → v.retag ρ = v) :
    h.Agree False (fun _ => True) (fun _ => F) ρ k where
  size := .inl shape.size
  items r _ := shape.items r
  names r key _ := shape.names r key
  field r key _ := fields r key
  itemsInside r _ v member := ⟨fun _ _ => trivial, items r v member⟩
  fieldInside r key v _ named here := ⟨fun _ _ => trivial, found r key v named here⟩

/-- A text does not depend on fields. -/
theorem text (shape : h.SameShape k) (v : Value) : k.text v = h.text v := by
  have kept (v : Value) : v.retag id = v := Value.retag_eq fun _ _ => rfl
  have agree := shape.agree (F := fun _ => False) (fun _ _ => False.elim) (fun _ v _ => kept v)
    fun _ _ _ => False.elim
  exact (agree.text (a := v) ⟨(kept v).symm, fun _ _ => trivial⟩).eq.symm

end Heap.SameShape

theorem World.Alongside.symm {u v : World} (beside : u.Alongside v) : v.Alongside u where
  shape := beside.shape.symm
  tagged := beside.tagged'
  tagged' := beside.tagged
  read := beside.read'
  read' := beside.read

theorem Context.taken_param {source : Ref} {params : List Value} {next : Nat}
    (given : ∀ x ∈ params, x.Taken next) (i : Nat) :
    (Context.param ⟨source, params⟩ i).Taken next := by
  unfold Context.param
  cases found : params[i]? with
  | none => simp [Value.Taken, Value.tags]
  | some x => exact given x (List.mem_of_getElem? found)

namespace Definition

/-- Some path of a definition names a field. -/
def Names (d : Definition) (h : Heap) (key : String) : Prop := ∃ p ∈ d.paths, p.Names h key

/-- What a query over a source comes to. -/
def outcome (d : Definition) (call : Caller) (source : Ref) (params : List Value) (w : World) :
    Except Fault (List Value) × World :=
  (d.execute call ⟨source, params⟩ (w.heap.items source)).on w

/-- Two outcomes are the same fault, or rows that are equal by content. -/
abbrev SameOutcome (x y : Except Fault (List Value) × World) : Prop :=
  Act.Compare False (fun _ _ => True) (fun rows rows' => Value.sameItems rows rows' = true) x y

variable {d : Definition} {u v : World} {source : Ref} {params : List Value} {call call' : Caller}

theorem Names.of_shape {key : String} (names : d.Names u.heap key)
    (shape : u.heap.SameShape v.heap) : d.Names v.heap key := by
  obtain ⟨p, member, named⟩ := names
  exact ⟨p, member, named.of_text fun w _ => shape.text w⟩

theorem Names.followed {key : String} {h : Heap} (names : d.Names h key) {ds : List Dependency}
    (follows : Dependency.all h source d params = some ds) :
    ∃ dep ∈ ds, dep.topic.key = none ∨ dep.topic.key = some (.field key) := by
  obtain ⟨p, member, named⟩ := names
  simp only [Dependency.all, Option.bind_eq_bind, Option.bind_eq_some_iff, pure,
    Option.some.injEq] at follows
  obtain ⟨lists, found, rfl⟩ := follows
  obtain ⟨ds, inside, here⟩ := List.exists_of_mapM_eq_some found p member
  obtain ⟨dep, member, about⟩ := named.exists_dependency here
  exact ⟨dep, List.mem_cons_of_mem _ (List.mem_flatten.mpr ⟨ds, inside, member⟩), about⟩

/-- Where fewer tags are taken, the query gives rows that are alike, or has the same fault. -/
theorem outcome_alike (later : u.heap.nextTag ≤ v.heap.nextTag) (beside : u.Alongside v)
    (code : d.All (Value.Taken u.heap.nextTag) (Records d.paths))
    (given : ∀ x ∈ params, x.Taken u.heap.nextTag)
    (fields : u.heap.SameFields (d.Names u.heap) v.heap) :
    Act.Compare False (fun _ _ => True) Value.Alike (d.outcome call source params u)
      (d.outcome call' source params v) := by
  have kept {x : Value} (taken : x.Taken u.heap.nextTag) :
      x.Inside (fun _ => True) (shiftTags u.heap.nextTag v.heap.nextTag) :=
    ⟨fun _ _ => trivial, Value.retag_eq fun t used => shiftTags_of_lt (taken t used)⟩
  have agree := beside.shape.agree fields
    (fun r x member => (kept (beside.tagged.items r x member)).tags)
    fun r key x _ found => (kept (beside.tagged.fields r key x found)).tags
  have shape : d.All (Value.Inside (fun _ => True) (shiftTags u.heap.nextTag v.heap.nextTag))
      (Context.Reads ⟨source, params⟩ u.heap (fun _ => True) (fun _ => d.Names u.heap)
        (shiftTags u.heap.nextTag v.heap.nextTag)) := by
    refine code.mono (fun x taken => kept taken) fun root steps ⟨cs, member, become⟩ => ?_
    refine ⟨fun i _ => kept (Context.taken_param given i), ?_⟩
    have covered : ∀ step ∈ steps, ∀ loc, step.Covered u.heap (fun _ => d.Names u.heap) loc :=
      fun step inside loc => (Path.Names.covered become loc step inside).mono
        fun key named => ⟨⟨root, cs⟩, member, named⟩
    cases root with
    | here => exact covered
    | arg i => exact .inl covered
  have mirrors : World.Mirrors u.heap v.heap (shiftTags u.heap.nextTag v.heap.nextTag) u v :=
    ⟨rfl, rfl, shiftTags_add _ _, beside.read, beside.read'⟩
  have same : Act.Compare False (World.Mirrors u.heap v.heap _) (Value.MirrorAll _ _)
      (d.outcome call source params u)
      ((d.execute call' ⟨source, params⟩ (u.heap.items source)).on v) :=
    execute_local agree (shiftTags_injective later) shape
      (fun x member => agree.itemsInside source trivial x member) u v mirrors
  rw [outcome.eq_def d call', beside.shape.items source]
  refine same.mono (fun rows rows' mirror => ?_) fun _ _ _ => trivial
  rw [mirror.1]
  exact (Value.Alike.retag _ rows).symm

end Definition

/-- A query without calls whose paths are all recorded comes to the same in two worlds of one shape
that agree on the fields that its paths name, whatever else differs: it has the same fault, or it
gives rows that are equal by content.  Where it does not, the worlds differ in a field that the
query follows by name, or because it follows all fields. -/
theorem Query.outcome_of_named {q : Query} {d : Definition} {scope : CompileScope}
    {listed : List Path} {p p' : Regex.Cache} (reachable : p.Reachable)
    (compiled : (q.compile scope listed).run.run p = (.ok d, p')) {u v : World}
    (beside : u.Alongside v)
    (recorded : q.Recorded (Value.Taken (min u.heap.nextTag v.heap.nextTag)) d.paths)
    {params : List Value} (given : ∀ x ∈ params, x.Taken (min u.heap.nextTag v.heap.nextTag))
    (source : Ref) (call call' : Caller) :
    (u.heap.SameFields (d.Names u.heap) v.heap →
      Definition.SameOutcome (d.outcome call source params u) (d.outcome call' source params v)) ∧
    ∀ ds, Dependency.all u.heap source d params = some ds →
      ¬ Definition.SameOutcome (d.outcome call source params u)
        (d.outcome call' source params v) →
      ∃ (r : Ref) (key : String),
        FieldMap.get? key (v.heap.fields r) ≠ FieldMap.get? key (u.heap.fields r) ∧
        ∃ dep ∈ ds, dep.topic.key = none ∨ dep.topic.key = some (.field key) := by
  have noTags (p : Primitive) : p.toValue.Taken (min u.heap.nextTag v.heap.nextTag) :=
    fun t used => by simp [Value.tags_primitive] at used
  have code := (Query.compile_recorded noTags reachable recorded compiled).1
  have same : u.heap.SameFields (d.Names u.heap) v.heap →
      Definition.SameOutcome (d.outcome call source params u)
        (d.outcome call' source params v) := by
    intro fields
    rcases Nat.le_total u.heap.nextTag v.heap.nextTag with later | later
    · rw [Nat.min_eq_left later] at code given
      refine (Definition.outcome_alike later beside code given fields).mono
        (fun _ _ alike => alike.sameItems) fun _ _ => id
    · rw [Nat.min_eq_right later] at code given
      have fields' : v.heap.SameFields (d.Names v.heap) u.heap := fun r key named =>
        (fields r key (named.of_shape beside.shape.symm)).symm
      refine (Definition.outcome_alike later beside.symm code given fields').swap.mono
        (fun _ _ alike => alike.symm.sameItems) fun _ _ => id
  refine ⟨same, fun ds follows differ => Classical.byContradiction fun unseen => differ ?_⟩
  exact same fun r key named => Classical.byContradiction fun apart =>
    unseen ⟨r, key, apart, named.followed follows⟩

namespace Unnamed

/-- A collection of one record, with a field that is named and one that is not. -/
def world (note : Value) (next : Nat) : World where
  heap.cells := #[some (.record ⟨1, [("a", .number .one), ("note", note)], .bus⟩),
    some (.collection ⟨2, [.record ⟨0, 1⟩], .bus, {}⟩)]
  heap.nextTag := next

def path : Path := ⟨.here, [.key (.text "a")]⟩

def query : Query where
  filter := path.node
  select := some (.array [path.node])

def definition : Definition where
  filter := .path .here [.key (.text "a")]
  select := some (.array [.path .here [.key (.text "a")]])
  sort := none
  sortFirst := false
  paths := [path, path]

theorem items_world (note : Value) (next : Nat) (r : Ref) :
    (world note next).heap.items r = if r.loc = 1 then [.record ⟨0, 1⟩] else [] := by
  obtain ⟨_ | _ | loc, id⟩ := r <;>
    simp [world, Heap.items, Heap.collection?, Heap.cell?]

theorem fields_world (note : Value) (next : Nat) (r : Ref) :
    (world note next).heap.fields r =
      if r.loc = 0 then [("a", .number .one), ("note", note)] else [] := by
  obtain ⟨_ | _ | loc, id⟩ := r <;>
    simp [world, Heap.fields, Heap.record?, Heap.cell?]

theorem tagged_world {note : Value} {next : Nat} (taken : note.Taken next) :
    (world note next).heap.Tagged where
  items r v member := by
    rw [items_world] at member
    split at member <;> simp_all [Value.Taken, Value.tags]
  fields r key v found := by
    rw [fields_world] at found
    split at found
    · simp only [FieldMap.get?] at found
      split at found
      · cases found
        simp [Value.Taken, Value.tags]
      · split at found <;> cases found
        exact taken
    · cases found

theorem alongside_world {note note' : Value} {next next' : Nat} (taken : note.Taken next)
    (taken' : note'.Taken next') : (world note next).Alongside (world note' next') where
  shape.size := rfl
  shape.items r := by rw [items_world, items_world]
  shape.names r key := by
    rw [fields_world, fields_world]
    split <;> simp only [FieldMap.contains, FieldMap.get?]
    split
    · rfl
    · split <;> rfl
  tagged := tagged_world taken
  tagged' := tagged_world taken'
  read := .empty
  read' := .empty

/-- The tag of the list that is the only row. -/
def rowTag (x : Except Fault (List Value) × World) : Option Nat :=
  match x.1 with
  | .ok [.array t _] => some t
  | _ => none

/-- Both worlds give one new list, with tags of their own. -/
theorem outcome_unnamed :
    let u := world .null 0
    let v := world (.array 3 []) 4
    let call : Caller := fun _ _ args => Act.freshArray args
    (query.compile ⟨{}, []⟩ [path, path]).run.run {} = (.ok definition, {}) ∧
      rowTag (definition.outcome call ⟨1, 2⟩ [] u) = some 0 ∧
      rowTag (definition.outcome call ⟨1, 2⟩ [] v) = some 4 ∧
      Definition.SameOutcome (definition.outcome call ⟨1, 2⟩ [] u)
        (definition.outcome call ⟨1, 2⟩ [] v) := by
  intro u v call
  have compiled : (query.compile ⟨{}, []⟩ [path, path]).run.run {} = (.ok definition, {}) := rfl
  have recorded : query.Recorded (Value.Taken (min u.heap.nextTag v.heap.nextTag))
      definition.paths := by
    refine ⟨?_, ?_, by simp [query]⟩ <;>
      simp [query, Path.node, path, definition, Node.All, Node.AllOf, Component.AllOf, Value.Taken,
        Value.tags]
  have same : u.heap.SameFields (definition.Names u.heap) v.heap := by
    rintro r key ⟨p, member, named⟩
    obtain rfl : p = path := by simpa [definition] using member
    obtain rfl : key = "a" := by
      rcases named with computed | ⟨w, written, text⟩
      · cases computed
      · simp only [path, List.mem_singleton, Component.key.injEq] at written
        subst written
        exact (Option.some.inj text).symm
    rw [fields_world, fields_world]
    split <;> rfl
  exact ⟨compiled, by decide +kernel, by decide +kernel, (Query.outcome_of_named .empty compiled
    (alongside_world (by simp [Value.Taken, Value.tags]) (by simp [Value.Taken, Value.tags,
      Value.tagsOfItems])) recorded (by simp) ⟨1, 2⟩ call call).1 same⟩

end Unnamed

end ReactiveQuery
