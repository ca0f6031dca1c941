import ReactiveQuery.Proofs.Value.Reading

/-! Cells of either kind.  A heap is written by giving a cell other contents. -/

namespace ReactiveQuery

namespace Cell

/-- The values in the fields or items. -/
def contents : Cell → List Value
  | .record c => c.fields.values
  | .collection c => c.items

def sink : Cell → Sink
  | .record c => c.sink
  | .collection c => c.sink

/-- What a collection retains; a record retains nothing. -/
def retained? : Cell → Option Retained
  | .record _ => none
  | .collection c => some c.retained

theorem mem_places {cell : Cell} {l : Nat} :
    l ∈ cell.places ↔ (∃ v ∈ cell.contents, l ∈ v.places) ∨
      ∃ r, cell.retained? = some r ∧ ∃ v ∈ r.values, l ∈ v.places := by
  cases cell with
  | record c =>
    simp only [places, contents, retained?, Value.mem_placesOfFields, FieldMap.values, List.mem_map]
    constructor
    · rintro ⟨e, member, held⟩
      exact .inl ⟨e.2, ⟨e, member, rfl⟩, held⟩
    · rintro (⟨_, ⟨e, member, rfl⟩, held⟩ | ⟨_, ⟨⟩, _⟩)
      exact ⟨e, member, held⟩
  | collection c => simp [places, contents, retained?, Value.mem_placesOfItems]

end Cell

namespace Heap

variable {h k : Heap} {r : Ref}

theorem items_eq_of_cell? (same : k.cell? r.loc = h.cell? r.loc) : k.items r = h.items r := by
  simp only [items, collection?, same]

theorem fields_eq_of_cell? (same : k.cell? r.loc = h.cell? r.loc) : k.fields r = h.fields r := by
  simp only [fields, record?, same]

theorem items_of_collection {c : CollectionCell} (here : h.cell? r.loc = some (.collection c)) :
    h.items r = c.items := by
  simp [items, collection?, here]

theorem fields_of_record {c : RecordCell} (here : h.cell? r.loc = some (.record c)) :
    h.fields r = c.fields := by
  simp [fields, record?, here]

/-- Where no collection is there are no items, and where no record is there are no fields. -/
theorem items_eq_nil (other : ∀ c, h.cell? r.loc ≠ some (.collection c)) : h.items r = [] := by
  cases found : h.collection? r with
  | none => simp [items, found]
  | some c => exact absurd (collection?_eq_some.mp found) (other c)

theorem fields_eq_nil (other : ∀ c, h.cell? r.loc ≠ some (.record c)) : h.fields r = [] := by
  cases found : h.record? r with
  | none => simp [fields, found]
  | some c => exact absurd (record?_eq_some.mp found) (other c)

/-- What a heap shows at a place is in the contents of the cell there. -/
theorem exists_of_mem_items {v : Value} (member : v ∈ h.items r) :
    ∃ c, h.cell? r.loc = some (.collection c) ∧ v ∈ c.items := by
  unfold items at member
  cases here : h.collection? r with
  | none => simp [here] at member
  | some c => exact ⟨c, collection?_eq_some.mp here, by simpa [here] using member⟩

theorem exists_of_mem_fields {e : String × Value} (member : e ∈ h.fields r) :
    ∃ c, h.cell? r.loc = some (.record c) ∧ e ∈ c.fields := by
  unfold fields at member
  cases here : h.record? r with
  | none => simp [here] at member
  | some c => exact ⟨c, record?_eq_some.mp here, by simpa [here] using member⟩

theorem isAlive_of_cell? {l : Nat} {cell : Cell} (here : h.cell? l = some cell) :
    h.isAlive l = true := by
  simp [isAlive, here]

theorem cell?_of_isAlive {l : Nat} (alive : h.isAlive l = true) : ∃ cell, h.cell? l = some cell :=
  Option.isSome_iff_exists.mp alive

/-- Other contents at a place that lives keep every place as alive as it was. -/
theorem isAlive_put {loc : Nat} {cell cell' : Cell} (here : h.cell? loc = some cell) (l : Nat) :
    (h.put loc (some cell')).isAlive l = h.isAlive l := by
  unfold isAlive
  rw [cell?_put]
  split
  · next inside => simp [← inside.1, here]
  · rfl

theorem size_put (loc : Nat) (cell : Option Cell) : (h.put loc cell).cells.size = h.cells.size :=
  Array.size_setIfInBounds

theorem size_setField (h : Heap) (r : Ref) (key : String) (v : Value) :
    (h.setField r key v).cells.size = h.cells.size := by
  unfold setField
  split
  · exact size_put _ _
  · rfl

theorem size_setItems (h : Heap) (r : Ref) (items : List Value) :
    (h.setItems r items).cells.size = h.cells.size := by
  unfold setItems
  split
  · exact size_put _ _
  · rfl

theorem cell?_put_self {loc : Nat} {cell cell' : Cell} (here : h.cell? loc = some cell) :
    (h.put loc (some cell')).cell? loc = some cell' := by
  rw [cell?_put, if_pos ⟨rfl, lt_size_of_cell? here⟩]

theorem cell?_put_of_ne {loc l : Nat} (other : loc ≠ l) (cell : Option Cell) :
    (h.put loc cell).cell? l = h.cell? l := by
  rw [cell?_put, if_neg fun inside => other inside.1]

theorem setItems_eq_put {c : CollectionCell} (here : h.cell? r.loc = some (.collection c))
    (items : List Value) :
    h.setItems r items = h.put r.loc (some (.collection { c with items })) := by
  simp [setItems, collection?_eq_some.mpr here]

theorem setField_eq_put {c : RecordCell} (here : h.cell? r.loc = some (.record c)) (key : String)
    (v : Value) :
    h.setField r key v =
      h.put r.loc (some (.record { c with fields := c.fields.update key v })) := by
  simp [setField, record?_eq_some.mpr here]

/-- Contents that fit keep the heap fitting. -/
theorem Fits.put {containers : List Value} {size loc : Nat} {cell : Cell}
    (fits : h.Fits containers size) (contents : ∀ v ∈ cell.contents, v.Fits containers size) :
    (h.put loc (some cell)).Fits containers size where
  sized := (size_put loc _).trans fits.sized
  tags := fits.tags
  items r v member := by
    obtain ⟨c, here, member⟩ := exists_of_mem_items member
    rw [cell?_put] at here
    split at here
    · rw [Option.some.injEq] at here
      exact contents v (here ▸ member)
    · exact fits.items r v (by rwa [items_of_collection here])
  fields r e member := by
    obtain ⟨c, here, member⟩ := exists_of_mem_fields member
    rw [cell?_put] at here
    split at here
    · rw [Option.some.injEq] at here
      exact contents e.2 (here ▸ List.mem_map.mpr ⟨e, member, rfl⟩)
    · exact fits.fields r e (by rwa [fields_of_record here])

/-- Cells that are left fit. -/
theorem Fits.of_cells {containers : List Value} {size : Nat} (fits : h.Fits containers size)
    (sized : k.cells.size = h.cells.size) (tags : k.nextTag = h.nextTag)
    (cells : ∀ l cell, k.cell? l = some cell → h.cell? l = some cell) :
    k.Fits containers size where
  sized := sized.trans fits.sized
  tags := fits.tags.trans tags.symm
  items r v member := by
    obtain ⟨c, here, member⟩ := exists_of_mem_items member
    exact fits.items r v (by rwa [items_of_collection (cells _ _ here)])
  fields r e member := by
    obtain ⟨c, here, member⟩ := exists_of_mem_fields member
    exact fits.fields r e (by rwa [fields_of_record (cells _ _ here)])

end Heap

end ReactiveQuery
