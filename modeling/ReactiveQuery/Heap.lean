import ReactiveQuery.Change.Event

/-! The heap of records and collections.  A place is never used twice, so a place whose cell is gone
stays dead.  Writes are told by the cells seen afterwards. -/

namespace ReactiveQuery

/-- Where a record or collection reports its changes. -/
inductive Sink where
  /-- nowhere -/
  | silent
  /-- to the change bus -/
  | bus
  /-- into the log -/
  | log
  /-- into the log, refusing every change -/
  | refusing
  deriving DecidableEq

/-- What lives as long as the collection that holds it: registrations to undo and values to keep. -/
structure Retained where
  subscriptions : List Subscription := []
  values : List Value := []

structure RecordCell where
  id : Nat
  fields : FieldMap Value
  sink : Sink

structure CollectionCell where
  id : Nat
  items : List Value
  sink : Sink
  retained : Retained := {}

inductive Cell where
  | record (r : RecordCell)
  | collection (c : CollectionCell)

structure Heap where
  cells : Array (Option Cell) := #[]
  nextTag : Nat := 0

namespace Heap

def cell? (h : Heap) (loc : Nat) : Option Cell := (h.cells[loc]?).join

def isAlive (h : Heap) (loc : Nat) : Bool := (h.cell? loc).isSome

def record? (h : Heap) (r : Ref) : Option RecordCell :=
  match h.cell? r.loc with
  | some (.record c) => some c
  | _ => none

def collection? (h : Heap) (r : Ref) : Option CollectionCell :=
  match h.cell? r.loc with
  | some (.collection c) => some c
  | _ => none

/-- The fields of a record. -/
def fields (h : Heap) (r : Ref) : FieldMap Value := ((h.record? r).map (·.fields)).getD []

/-- The items of a collection. -/
def items (h : Heap) (r : Ref) : List Value := ((h.collection? r).map (·.items)).getD []

def put (h : Heap) (loc : Nat) (cell : Option Cell) : Heap :=
  { h with cells := h.cells.setIfInBounds loc cell }

def allocate (h : Heap) (id : Nat) (cell : Cell) : Ref × Heap :=
  (⟨h.cells.size, id⟩, { h with cells := h.cells.push (some cell) })

/-- A tag that no container carries yet. -/
def freshTag (h : Heap) : Nat × Heap := (h.nextTag, { h with nextTag := h.nextTag + 1 })

def setField (h : Heap) (r : Ref) (key : String) (value : Value) : Heap :=
  match h.record? r with
  | some c => h.put r.loc (some (.record { c with fields := c.fields.update key value }))
  | none => h

def setItems (h : Heap) (r : Ref) (items : List Value) : Heap :=
  match h.collection? r with
  | some c => h.put r.loc (some (.collection { c with items }))
  | none => h

def setRetained (h : Heap) (r : Ref) (retained : Retained) : Heap :=
  match h.collection? r with
  | some c => h.put r.loc (some (.collection { c with retained }))
  | none => h

/-- A heap is seen through its cells: a written cell changes and no other. -/
theorem cell?_put (h : Heap) (loc : Nat) (cell : Option Cell) (l : Nat) :
    (h.put loc cell).cell? l = if loc = l ∧ l < h.cells.size then cell else h.cell? l := by
  unfold put cell?
  rw [Array.getElem?_setIfInBounds]
  by_cases here : loc = l
  · subst here
    by_cases inside : loc < h.cells.size <;> simp [inside]
  · simp [here]

theorem cell?_allocate (h : Heap) (id : Nat) (cell : Cell) (l : Nat) :
    (h.allocate id cell).2.cell? l = if l = h.cells.size then some cell else h.cell? l := by
  unfold allocate cell?
  simp only [Array.getElem?_push]
  by_cases here : l = h.cells.size <;> simp [here]

/-- A place that has a cell lies inside the heap. -/
theorem lt_size_of_cell? {h : Heap} {loc : Nat} {cell : Cell} (found : h.cell? loc = some cell) :
    loc < h.cells.size := by
  refine Classical.byContradiction fun outside => ?_
  have absent : h.cells[loc]? = none := Array.getElem?_eq_none (Nat.not_lt.mp outside)
  simp [cell?, absent] at found

theorem collection?_eq_some {h : Heap} {r : Ref} {c : CollectionCell} :
    h.collection? r = some c ↔ h.cell? r.loc = some (.collection c) := by
  unfold collection?
  constructor
  · intro found
    split at found
    · next c' here => rw [here, Option.some.inj found]
    · cases found
  · intro found
    rw [found]

theorem record?_eq_some {h : Heap} {r : Ref} {c : RecordCell} :
    h.record? r = some c ↔ h.cell? r.loc = some (.record c) := by
  unfold record?
  constructor
  · intro found
    split at found
    · next c' here => rw [here, Option.some.inj found]
    · cases found
  · intro found
    rw [found]

/-- Writing items leaves every other place as it is. -/
theorem cell?_setItems_of_ne {h : Heap} {r : Ref} {items : List Value} {l : Nat}
    (other : r.loc ≠ l) : (h.setItems r items).cell? l = h.cell? l := by
  unfold setItems
  split
  · simp [cell?_put, other]
  · rfl

theorem items_setItems {h : Heap} {r : Ref} {c : CollectionCell} (items : List Value)
    (here : h.collection? r = some c) : (h.setItems r items).items r = items := by
  have inside := lt_size_of_cell? (collection?_eq_some.mp here)
  have written : (h.setItems r items).collection? r = some { c with items } := by
    rw [collection?_eq_some]
    simp [setItems, here, cell?_put, inside]
  simp [Heap.items, written]

theorem cell?_setField_of_ne {h : Heap} {r : Ref} {key : String} {value : Value} {l : Nat}
    (other : r.loc ≠ l) : (h.setField r key value).cell? l = h.cell? l := by
  unfold setField
  split
  · simp [cell?_put, other]
  · rfl

/-- Writing a field changes what the record's fields are by that field alone. -/
theorem fields_setField (h : Heap) (r : Ref) (key : String) (value : Value) :
    (h.setField r key value).fields r = (h.fields r).update key value := by
  cases here : h.record? r with
  | none => simp [setField, here, fields, FieldMap.update]
  | some c =>
    have inside := lt_size_of_cell? (record?_eq_some.mp here)
    have written : (h.setField r key value).record? r =
        some { c with fields := c.fields.update key value } := by
      rw [record?_eq_some]
      simp [setField, here, cell?_put, inside]
    simp [fields, written, here]

end Heap

/-- The places that a cell holds on to. -/
def Cell.places : Cell → List Nat
  | .record c => Value.placesOfFields c.fields
  | .collection c => Value.placesOfItems c.items ++ Value.placesOfItems c.retained.values

end ReactiveQuery
