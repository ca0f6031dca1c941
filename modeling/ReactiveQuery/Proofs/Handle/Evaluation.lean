import ReactiveQuery.Proofs.Handle.Reading

/-! Evaluation comes to known places: it starts from the record at hand, the source and the
parameters, and goes on along what the heap shows there. -/

namespace ReactiveQuery

variable {P : Nat → Prop} {n : Nat}

section
variable {h : Heap}

theorem Known.get? {key : String} {fields : FieldMap Value}
    (known : Known P n (Value.placesOfFields fields)) :
    Known P n ((FieldMap.get? key fields).getD .null).places := by
  cases found : FieldMap.get? key fields with
  | none => exact .nil
  | some v => exact Known.fields_iff.mp known _ (FieldMap.mem_of_get? found)

theorem Known.getElem? {i : Nat} {items : List Value}
    (known : Known P n (Value.placesOfItems items)) : Known P n ((items[i]?).getD .null).places := by
  cases found : items[i]? with
  | none => exact .nil
  | some v => exact Known.items_iff.mp known v (List.mem_of_getElem? found)

theorem Known.itemAt {items : List Value} (key : Value)
    (known : Known P n (Value.placesOfItems items)) : Known P n (Heap.itemAt items key).places := by
  unfold Heap.itemAt
  split
  · exact known.getElem?
  · exact .nil
  · exact .nil

theorem Known.snoc {v : Value} {vs : List Value} (known : Known P n (Value.placesOfItems vs))
    (last : Known P n v.places) : Known P n (Value.placesOfItems (vs ++ [v])) :=
  Known.items_iff.mpr (List.forall_mem_append.mpr
    ⟨Known.items_iff.mp known, List.forall_mem_singleton.mpr last⟩)

theorem Known.insert {key : String} {v : Value} {fields : FieldMap Value}
    (known : Known P n (Value.placesOfFields fields)) (new : Known P n v.places) :
    Known P n (Value.placesOfFields (FieldMap.insert key v fields)) :=
  Known.fields_iff.mpr fun e member => by
    rcases FieldMap.mem_insert member with same | old
    · exact same ▸ new
    · exact Known.fields_iff.mp known e old

namespace Heap.Within

/-- What is read in a known value is known. -/
theorem read (knows : h.Within P) {v key x : Value} (known : Known P h.cells.size v.places)
    (found : h.read v key = some x) : Known P h.cells.size x.places := by
  cases v with
  | record r =>
    simp only [Heap.read, Option.bind_eq_bind, Option.bind_eq_some_iff, pure,
      Option.some.injEq] at found
    obtain ⟨s, -, rfl⟩ := found
    exact (knows.fields r).get?
  | object t fields =>
    simp only [Heap.read, Option.bind_eq_bind, Option.bind_eq_some_iff, pure,
      Option.some.injEq] at found
    obtain ⟨s, -, rfl⟩ := found
    exact Known.get? known
  | array t items =>
    simp only [Heap.read, Option.some.injEq] at found
    exact found ▸ Known.itemAt key known
  | collection r =>
    simp only [Heap.read, Option.some.injEq] at found
    exact found ▸ (knows.items r).itemAt key
  | text s =>
    simp only [Heap.read, Option.some.injEq] at found
    refine found ▸ Known.itemAt key (Known.items_iff.mpr fun v member => ?_)
    obtain ⟨c, -, rfl⟩ := List.mem_map.mp member
    exact .nil
  | _ =>
    simp only [Heap.read, Option.some.injEq] at found
    exact found ▸ .nil

theorem drill (knows : h.Within P) {v x : Value} (known : Known P h.cells.size v.places)
    (found : h.drill v = some x) : Known P h.cells.size x.places := by
  cases v with
  | collection r =>
    simp only [Heap.drill] at found
    split at found
    · cases found
    · cases found
    · next items =>
      cases found
      exact Known.items_iff.mp (knows.items r) x (by simp [items])
  | null => cases found
  | _ =>
    cases found
    exact known

end Heap.Within

end

/-- What an extension function may be given, and what it is to give back. -/
def Caller.Discreet (M : Manner) (P : Nat → Prop) (call : Caller) : Prop :=
  ∀ n e ctx args, Known P n ctx.places → Known P n (Value.placesOfItems args) →
    Act.Discreet M P n (call e ctx args) fun m v => Known P m v.places

variable {M : Manner}

namespace Act.Discreet

theorem readKey {v key : Value} (known : Known P n v.places) :
    Discreet M P n (Act.ask (·.read v key)) fun m x => Known P m x.places :=
  ask fun _ size knows _ found => size ▸ knows.read (size ▸ known) found

/-- A walk goes on at a known value, or gives null. -/
theorem drill {current : Value} (known : Known P n current.places) {go : Value → Act Value}
    (rest : ∀ v, Known P n v.places → Discreet M P n (go v) fun m v => Known P m v.places) :
    Discreet M P n
      (do match (← get).heap.drill current with
        | none => return .null
        | some v => go v) fun m v => Known P m v.places := world fun w size knows => by
  cases drilled : w.heap.drill current with
  | none => exact ret .nil
  | some v => exact rest v (size ▸ knows.heap.drill (size ▸ known) drilled)

end Act.Discreet

namespace Context

variable {ctx : Context}

theorem known_param (known : Known P n ctx.places) (i : Nat) : Known P n (ctx.param i).places :=
  (Known.cons_iff.mp known).2.getElem?

end Context

/-- A definition all of whose parts lead to known places. -/
structure Definition.Within (P : Nat → Prop) (n : Nat) (d : Definition) : Prop where
  filter : Known P n d.filter.places
  select : Known P n ((d.select.map Code.places).getD [])
  sort : ∀ key ∈ d.sort.getD [], Known P n (Step.placesOfAll key.steps)

namespace Definition

variable {d : Definition}

theorem within (known : Known P n d.places) : d.Within P n := by
  simp only [places, Known.append_iff] at known
  exact ⟨known.1.1.1, known.1.1.2, Known.flatMap_iff.mp known.1.2⟩

theorem Within.later (known : d.Within P n) {m : Nat} (more : n ≤ m) : d.Within P m :=
  ⟨known.filter.later more, known.select.later more, fun key member =>
    (known.sort key member).later more⟩

end Definition

open Act.Discreet

section
set_option linter.unusedSectionVars false
variable {call : Caller} (calls : call.Discreet M P) {ctx : Context}
include calls

mutual
theorem Code.discreet_evaluate : ∀ (c : Code) {n : Nat} {record : Value}, Known P n c.places →
    Known P n ctx.places → Known P n record.places →
    Act.Discreet M P n (c.evaluate call ctx record) fun m v => Known P m v.places
  | .literal v, _, _, known, _, _ => by
    rw [Code.evaluate]
    exact ret known
  | .unary op a, _, _, known, params, here => by
    rw [Code.places] at known
    rw [Code.evaluate]
    exact (Code.discreet_evaluate a known params here).seq fun _ _ _ => ask fun _ _ _ _ applied => by
      rw [op.places_apply applied]
      exact .nil
  | .binary op a b, _, _, known, params, here => by
    rw [Code.places, Known.append_iff] at known
    have left := Code.discreet_evaluate a known.1 params here
    have right := fun m (more : _ ≤ m) =>
      Code.discreet_evaluate b (known.2.later more) (params.later more) (here.later more)
    cases op with
    | and =>
      rw [Code.evaluate]
      refine left.bind fun m l more held => ?_
      split
      · exact (right m more).holding [l]
      · exact ret held
    | or =>
      rw [Code.evaluate]
      refine left.bind fun m l more held => ?_
      split
      · exact ret held
      · exact (right m more).holding [l]
    | _ =>
      rw [Code.evaluate]
      · exact left.bind fun m l more held => ((right m more).holding [l]).bind
          fun _ _ further held' => compile fun _ _ _ _ => Known.compute (held.later further) held'
      · nofun
      · nofun
  | .ternary a b c, _, _, known, params, here => by
    rw [Code.places, Known.append_iff, Known.append_iff] at known
    rw [Code.evaluate]
    refine (Code.discreet_evaluate a known.1.1 params here).seq fun m _ more => ?_
    split
    · exact Code.discreet_evaluate b (known.1.2.later more) (params.later more) (here.later more)
    · exact Code.discreet_evaluate c (known.2.later more) (params.later more) (here.later more)
  | .path root steps, _, _, known, params, here => by
    rw [Code.places] at known
    cases root with
    | here =>
      rw [Code.evaluate]
      exact Step.discreet_walk steps known params here here
    | arg i =>
      rw [Code.evaluate]
      exact Step.discreet_walk steps known params here (Context.known_param params i)
  | .object members, _, _, known, params, here => by
    rw [Code.places] at known
    rw [Code.evaluate]
    exact (Code.discreet_evaluateMembers members known params here .nil).bind
      fun _ _ _ held => freshObject held
  | .array items, _, _, known, params, here => by
    rw [Code.places] at known
    rw [Code.evaluate]
    exact (Code.discreet_evaluateAll items known params here .nil).bind
      fun _ _ _ held => freshArray held
  | .call function args, _, _, known, params, here => by
    rw [Code.places] at known
    rw [Code.evaluate]
    exact (Code.discreet_evaluateAll args known params here .nil).bind fun m values more held =>
      (calls m function ctx values (params.later more) held).holding values

theorem Code.discreet_evaluateAll : ∀ (cs : List Code) {n : Nat} {record : Value}
    {done : List Value}, Known P n (Code.placesOfAll cs) → Known P n ctx.places →
    Known P n record.places → Known P n (Value.placesOfItems done) →
    Act.Discreet M P n (Code.evaluateAll call ctx record done cs)
      fun m vs => Known P m (Value.placesOfItems vs)
  | [], _, _, _, _, _, _, held => by
    rw [Code.evaluateAll]
    exact ret held
  | c :: cs, _, _, done, known, params, here, held => by
    rw [Code.placesOfAll, Known.append_iff] at known
    rw [Code.evaluateAll]
    exact ((Code.discreet_evaluate c known.1 params here).holding done).bind fun _ _ more value =>
      Code.discreet_evaluateAll cs (known.2.later more) (params.later more) (here.later more)
        (.snoc (held.later more) value)

theorem Code.discreet_evaluateMembers : ∀ (cs : List (String × Code)) {n : Nat} {record : Value}
    {done : FieldMap Value}, Known P n (Code.placesOfMembers cs) → Known P n ctx.places →
    Known P n record.places → Known P n (Value.placesOfFields done) →
    Act.Discreet M P n (Code.evaluateMembers call ctx record done cs)
      fun m fields => Known P m (Value.placesOfFields fields)
  | [], _, _, _, _, _, _, held => by
    rw [Code.evaluateMembers]
    exact ret held
  | (key, c) :: cs, _, _, done, known, params, here, held => by
    rw [Code.placesOfMembers, Known.append_iff] at known
    rw [Code.evaluateMembers]
    exact ((Code.discreet_evaluate c known.1 params here).holding done.values).bind
      fun _ _ more value => Code.discreet_evaluateMembers cs (known.2.later more)
        (params.later more) (here.later more) (.insert (held.later more) value)

theorem Step.discreet_walk : ∀ (steps : List Step) {n : Nat} {record current : Value},
    Known P n (Step.placesOfAll steps) → Known P n ctx.places → Known P n record.places →
    Known P n current.places →
    Act.Discreet M P n (Step.walk call ctx record current steps) fun m v => Known P m v.places
  | [], _, _, _, _, _, _, place => by
    rw [Step.walk]
    exact ret place
  | .key k :: steps, _, _, _, known, params, here, place => by
    rw [Step.placesOfAll, Known.append_iff] at known
    rw [Step.walk]
    exact drill place fun v held => (readKey held).bind fun _ _ more value =>
      Step.discreet_walk steps (known.2.later more) (params.later more) (here.later more) value
  | .computed c :: steps, _, _, _, known, params, here, place => by
    rw [Step.placesOfAll, Known.append_iff] at known
    rw [Step.walk]
    exact drill place fun v held =>
      ((Code.discreet_evaluate c known.1 params here).holding [v]).bind fun _ _ more _ =>
        (readKey (held.later more)).bind fun _ _ further value =>
          have all := Nat.le_trans more further
          Step.discreet_walk steps (known.2.later all) (params.later all) (here.later all) value
end

namespace Definition

variable {d : Definition}

theorem discreet_accepts (known : d.Within P n) (params : Known P n ctx.places) {item : Value}
    (here : Known P n item.places) :
    Act.Discreet M P n (d.accepts call ctx item) fun _ _ => True :=
  (Code.discreet_evaluate calls d.filter known.filter params here).bind fun _ _ _ _ => ret trivial

theorem discreet_project (known : d.Within P n) (params : Known P n ctx.places) {item : Value}
    (here : Known P n item.places) :
    Act.Discreet M P n (d.project call ctx item) fun m v => Known P m v.places := by
  have selects := known.select
  unfold project
  split
  · next c chosen =>
    rw [chosen] at selects
    exact Code.discreet_evaluate calls c selects params here
  · exact ret here

theorem discreet_filterItems (known : d.Within P n) (params : Known P n ctx.places)
    {items : List Value} (held : Known P n (Value.placesOfItems items)) :
    Act.Discreet M P n (d.filterItems call ctx items)
      fun m vs => Known P m (Value.placesOfItems vs) := by
  induction items generalizing n with
  | nil => exact ret .nil
  | cons item items ih =>
    obtain ⟨first, others⟩ := Known.append_iff.mp held
    refine (discreet_accepts calls known params first).seq fun m _ more => ?_
    have rest := ih (known.later more) (params.later more) (others.later more)
    split
    · exact rest.bind fun k _ further kept => ret
        (Known.append_iff.mpr ⟨first.later (Nat.le_trans more further), kept⟩)
    · exact rest

theorem discreet_projectItems (known : d.Within P n) (params : Known P n ctx.places)
    {items done : List Value} (held : Known P n (Value.placesOfItems items))
    (rows : Known P n (Value.placesOfItems done)) :
    Act.Discreet M P n (d.projectItems call ctx done items)
      fun m vs => Known P m (Value.placesOfItems vs) := by
  induction items generalizing n done with
  | nil => exact ret rows
  | cons item items ih =>
    obtain ⟨first, others⟩ := Known.append_iff.mp held
    exact ((discreet_project calls known params first).holding done).bind fun m _ more row =>
      ih (known.later more) (params.later more) (others.later more) ((rows.later more).snoc row)

theorem discreet_filterProject (known : d.Within P n) (params : Known P n ctx.places)
    {items done : List Value} (held : Known P n (Value.placesOfItems items))
    (rows : Known P n (Value.placesOfItems done)) :
    Act.Discreet M P n (d.filterProject call ctx done items)
      fun m vs => Known P m (Value.placesOfItems vs) := by
  induction items generalizing n done with
  | nil => exact ret rows
  | cons item items ih =>
    obtain ⟨first, others⟩ := Known.append_iff.mp held
    refine ((discreet_accepts calls known params first).holding done).seq fun m _ more => ?_
    split
    · refine ((discreet_project calls (known.later more) (params.later more)
        (first.later more)).holding done).bind fun k _ further row => ?_
      have all := Nat.le_trans more further
      exact ih (known.later all) (params.later all) (others.later all) ((rows.later all).snoc row)
    · exact ih (known.later more) (params.later more) (others.later more) (rows.later more)

end Definition

namespace SortKey

/-- The keys that rows are sorted by are let go of; the items stay. -/
theorem discreet_extract {keys : List SortKey}
    (known : ∀ key ∈ keys, Known P n (Step.placesOfAll key.steps)) (params : Known P n ctx.places)
    {item : Value} (here : Known P n item.places) {done : List Value} :
    Act.Discreet M P n (extract call ctx item done keys) fun _ _ => True := by
  induction keys generalizing n done with
  | nil => exact ret trivial
  | cons key keys ih =>
    obtain ⟨first, others⟩ := List.forall_mem_cons.mp known
    have path : Known P n (Code.path key.root key.steps).places := by rwa [Code.places]
    exact ((Code.discreet_evaluate calls _ path params here).holding done).seq fun m _ more =>
      ih (fun key member => (others key member).later more) (params.later more) (here.later more)

theorem discreet_extractAll {keys : List SortKey}
    (known : ∀ key ∈ keys, Known P n (Step.placesOfAll key.steps)) (params : Known P n ctx.places)
    {items : List Value} (held : Known P n (Value.placesOfItems items))
    {done : List (List Value × Value)} (rows : ∀ row ∈ done, Known P n row.2.places) :
    Act.Discreet M P n (extractAll call ctx keys done items)
      fun m rows => ∀ row ∈ rows, Known P m row.2.places := by
  induction items generalizing n done with
  | nil => exact ret rows
  | cons item items ih =>
    obtain ⟨first, others⟩ := Known.append_iff.mp held
    refine ((discreet_extract calls known params first).holding (done.flatMap (·.1))).seq
      fun m row more => ?_
    refine ih (fun key member => (known key member).later more) (params.later more)
      (others.later more) (List.forall_mem_append.mpr ⟨fun row member => ?_, ?_⟩)
    · exact (rows row member).later more
    · exact List.forall_mem_singleton.mpr (first.later more)

theorem discreet_sort {keys : List SortKey}
    (known : ∀ key ∈ keys, Known P n (Step.placesOfAll key.steps)) (params : Known P n ctx.places)
    {items : List Value} (held : Known P n (Value.placesOfItems items)) :
    Act.Discreet M P n (sort call ctx keys items)
      fun m vs => Known P m (Value.placesOfItems vs) := by
  unfold sort
  split
  · exact ret held
  · refine ((discreet_extractAll calls known params held
      fun _ => (absurd · List.not_mem_nil)).holding items).bind fun m rows _ held' => ?_
    have sorts : ∀ h : Heap, h.cells.size = m → h.Within P → ∀ sorted,
        mergeSortBy (fun a b => compareRows h (keys.map (·.ascending)) a.1 b.1) rows = some sorted →
        ∀ row ∈ sorted, Known P m row.2.places := fun h _ _ sorted found row member =>
      held' row ((mergeSortBy_map _ id (fun _ _ _ _ _ => id) found).2 row member)
    refine (ask (Q := fun k sorted => ∀ row ∈ sorted, Known P k row.2.places) sorts).bind
      fun k sorted _ given => ret (Known.items_iff.mpr fun v member => ?_)
    obtain ⟨row, among, rfl⟩ := List.mem_map.mp member
    exact given row among

end SortKey

/-- The rows of a query over known items are known. -/
theorem Definition.discreet_execute {d : Definition} (known : Known P n d.places)
    (params : Known P n ctx.places) {items : List Value}
    (held : Known P n (Value.placesOfItems items)) :
    Act.Discreet M P n (d.execute call ctx items)
      fun m rows => Known P m (Value.placesOfItems rows) := by
  have within := Definition.within known
  have sorts : ∀ keys, d.sort = some keys → ∀ key ∈ keys, Known P n (Step.placesOfAll key.steps) :=
    fun keys sorted => by simpa [sorted] using within.sort
  have none : Known P n (Value.placesOfItems []) := .nil
  have rows := discreet_filterProject calls within params held none
  unfold execute
  split
  · next keys _ sorted _ _ =>
    refine (discreet_filterItems calls within params held).bind fun m _ more kept => ?_
    refine (SortKey.discreet_sort calls
      (fun key member => (sorts keys sorted key member).later more)
      (params.later more) kept).bind fun k _ further ordered => ?_
    have all := Nat.le_trans more further
    exact discreet_projectItems calls (within.later all) (params.later all) ordered .nil
  · next keys sorted _ =>
    exact rows.bind fun m _ more given => SortKey.discreet_sort calls
      (fun key member => (sorts keys sorted key member).later more) (params.later more) given
  · exact rows

end

end ReactiveQuery
