import ReactiveQuery.Proofs.Engine.Mutation
import ReactiveQuery.Proofs.Live.Traceless
import ReactiveQuery.Proofs.Value.Membership
import ReactiveQuery.Proofs.Value.Spells

/-! Where conversion ends.  It follows the items of arrays and collections, so it ends exactly where
it comes to no collection that leads back to itself; and as the handles in a heap lead into it, the
depth at which it gives up is never too small. -/

namespace ReactiveQuery

mutual
theorem Value.mem_places_of_mem_collections {r : Ref} :
    ∀ {v : Value}, r ∈ v.collections → r.loc ∈ v.places
  | .null, member | .bool _, member | .number _, member | .text _, member | .object .., member
  | .record _, member => by simp [collections] at member
  | .array _ items, member => by
    rw [collections] at member
    rw [places]
    exact mem_placesOfItems_of_mem_collections member
  | .collection s, member => by
    rw [collections, List.mem_singleton] at member
    simp [places, member]

theorem Value.mem_placesOfItems_of_mem_collections {r : Ref} :
    ∀ {vs : List Value}, r ∈ collectionsOfItems vs → r.loc ∈ placesOfItems vs
  | [], member => by simp [collectionsOfItems] at member
  | v :: vs, member => by
    rw [collectionsOfItems] at member
    rw [placesOfItems]
    exact List.mem_append.mpr ((List.mem_append.mp member).imp mem_places_of_mem_collections
      mem_placesOfItems_of_mem_collections)
end

namespace Heap

variable {h : Heap} {v : Value} {s : String}

/-! ### Circles -/

theorem mem_items_of_nests {r : Ref} {l : Nat} (nests : h.Nests r.loc l) :
    ∃ s ∈ Value.collectionsOfItems (h.items r), s.loc = l := by
  obtain ⟨c, here, found⟩ := nests
  rwa [items, collection?_eq_some.mpr here]

mutual
/-- A collection that has a text by the rules is at the end of no endless way. -/
theorem Spells.acc : ∀ {v : Value} {s : String}, h.Spells v s →
    ∀ r ∈ v.collections, Acc (fun inner outer => h.Nests outer inner) r.loc
  | _, _, .null, r, member | _, _, .bool _, r, member | _, _, .number _, r, member
  | _, _, .text _, r, member | _, _, .object .., r, member | _, _, .record _, r, member => by
    simp [Value.collections] at member
  | _, _, .array each, r, member => by
    rw [Value.collections] at member
    exact each.acc r member
  | _, _, .collection each, r, member => by
    rw [Value.collections, List.mem_singleton] at member
    rw [member]
    refine .intro _ fun l nests => ?_
    obtain ⟨s, inside, same⟩ := mem_items_of_nests nests
    exact same ▸ each.acc s inside

theorem SpellsAll.acc : ∀ {vs : List Value} {parts : List String}, h.SpellsAll vs parts →
    ∀ r ∈ Value.collectionsOfItems vs, Acc (fun inner outer => h.Nests outer inner) r.loc
  | _, _, .nil, r, member => by simp [Value.collectionsOfItems] at member
  | _, _, .null rest, r, member => by
    exact rest.acc r (by simpa [Value.collectionsOfItems, Value.collections] using member)
  | _, _, .cons _ first rest, r, member => by
    rw [Value.collectionsOfItems] at member
    exact (List.mem_append.mp member).elim (first.acc r) (rest.acc r)
end

/-- Where every way ends, none comes back. -/
theorem free_of_acc {outer : Nat} (ends : Acc (fun inner outer => h.Nests outer inner) outer) :
    ∀ l, Relation.ReflTransGen h.Nests outer l → ¬Relation.TransGen h.Nests l l := by
  induction ends with
  | intro outer _ ih =>
    intro l leads circle
    rcases Relation.ReflTransGen.cases_head leads with rfl | ⟨m, nests, rest⟩
    · obtain ⟨m, nests, rest⟩ := Relation.TransGen.head'_iff.mp circle
      exact ih m nests m .refl (.tail' rest nests)
    · exact ih m nests l rest circle

theorem Spells.uncircled (spells : h.Spells v s) : h.Uncircled v := fun r member =>
  free_of_acc (spells.acc r member)

/-! ### Heaps whose handles lead into them -/

/-- Handles that lead into a heap. -/
def Leads (h : Heap) (ls : List Nat) : Prop := Known (fun _ => True) h.cells.size ls

end Heap

/-- What a change of items is given. -/
def Mutation.values : Mutation → List Value
  | .push v | .unshift v | .insert _ v | .setItem _ v => [v]
  | .pop | .shift | .remove _ | .reverse | .sort _ => []
  | .replaceAll new => new

theorem Mutation.draws (m : Mutation) : m.itemChange.Draws m.values := by
  cases m with
  | push v => exact ItemChange.draws_push v
  | unshift v => exact ItemChange.draws_unshift v
  | insert index v => exact ItemChange.draws_insert index v
  | pop => exact ItemChange.draws_pop
  | shift => exact ItemChange.draws_shift
  | remove index => exact ItemChange.draws_remove index
  | reverse => exact ItemChange.draws_reverse
  | sort order =>
    intro items new out made
    cases made
    exact ⟨fun x member => .inl ((sortHalves_perm items).mem_iff.mp member), fun x member => member⟩
  | setItem index v => exact ItemChange.draws_setItem index v
  | replaceAll new => exact ItemChange.draws_replaceAll new

namespace Heap

/-- The heaps that come about from an empty one: values are put into new cells, fields and items are
written, values are kept, and cells are freed.  Whatever is written, its handles lead into the
heap. -/
inductive Built : Heap → Prop where
  | empty : Built {}
  | freshTag {h : Heap} (built : Built h) : Built h.freshTag.2
  | allocate {h : Heap} (built : Built h) (id : Nat) {cell : Cell} (leads : h.Leads cell.places) :
    Built (h.allocate id cell).2
  | setField {h : Heap} (built : Built h) (r : Ref) (key : String) {v : Value}
    (leads : h.Leads v.places) : Built (h.setField r key v)
  | mutate {h : Heap} (built : Built h) (r : Ref) {m : Mutation} {items out : List Value}
    (leads : h.Leads (Value.placesOfItems m.values))
    (made : m.itemChange (h.items r) = .ok (items, out)) : Built (h.setItems r items)
  | retain {h : Heap} (built : Built h) (r : Ref) {retained : Retained}
    (leads : h.Leads (Value.placesOfItems retained.values)) : Built (h.setRetained r retained)
  | free {h : Heap} (built : Built h) (loc : Nat) : Built (h.put loc none)

variable {h : Heap} {v : Value}

theorem Within.free {P : Nat → Prop} (knows : h.Within P) (loc : Nat) :
    (h.put loc none).Within P := by
  refine ⟨fun l outside => knows.new l (by rwa [size_put] at outside), fun l cell here => ?_⟩
  rw [cell?_put] at here
  rw [size_put]
  split at here
  · cases here
  · exact knows.cells l cell here

theorem Built.within (built : h.Built) : h.Within fun _ => True := by
  induction built with
  | empty => exact ⟨fun _ _ => trivial, fun l cell here => by simp [cell?] at here⟩
  | freshTag _ ih => exact ih.freshTag
  | allocate _ id leads ih => exact ih.allocate id leads
  | setField _ r key leads ih => exact ih.setField r key leads
  | mutate _ r leads made ih =>
    exact ih.setItems r ((Mutation.draws _).known leads (ih.items r) made).1
  | retain _ r leads ih => exact ih.setRetained r leads
  | free _ loc ih => exact ih.free loc

theorem Within.closed (knows : h.Within fun _ => True) (r : Ref) :
    ∀ s ∈ Value.collectionsOfItems (h.items r), s.loc < h.cells.size := fun s member =>
  (knows.items r s.loc (Value.mem_placesOfItems_of_mem_collections member)).1

/-! ### Where conversion ends -/

theorem isSome_primitive (h : Heap) (v : Value) : (h.primitive v).isSome = (h.text v).isSome := by
  cases v <;> simp [primitive, text, Value.textWith]

theorem Within.exists_text_iff (knows : h.Within fun _ => True) (leads : h.Leads v.places) :
    (∃ s, h.text v = some s) ↔ h.Uncircled v := by
  constructor
  · rintro ⟨s, found⟩
    exact (spells_of_text found).uncircled
  · intro free
    exact free.exists_text knows.closed fun r member =>
      (leads r.loc (Value.mem_places_of_mem_collections member)).1

/-- The depth at which the conversion to a text gives up is never too small. -/
theorem Within.text_iff (knows : h.Within fun _ => True) (leads : h.Leads v.places) (s : String) :
    h.text v = some s ↔ h.Spells v s := by
  refine ⟨spells_of_text, fun spells => ?_⟩
  obtain ⟨t, found⟩ := (knows.exists_text_iff leads).mpr spells.uncircled
  rw [found, spells.unique (spells_of_text found)]

/-- In a heap that writes have built, the conversion of a value to a text gives what the rules give.
It ends exactly when the value leads to no collection that leads back to itself, and exactly then
its conversions to a number and to a primitive, its comparison with a number and its sum with a
number end too. -/
theorem Built.ends_iff (built : h.Built) (leads : h.Leads v.places) (x : Double) :
    (∀ s, h.text v = some s ↔ h.Spells v s) ∧ ((∃ s, h.Spells v s) ↔ h.Uncircled v) ∧
      ((h.number v).isSome ↔ h.Uncircled v) ∧ ((h.primitive v).isSome ↔ h.Uncircled v) ∧
      ((h.looseCompare v (.number x)).isSome ↔ h.Uncircled v) ∧
      ((h.looseCompare (.number x) v).isSome ↔ h.Uncircled v) ∧
      ((h.add v (.number x)).isSome ↔ h.Uncircled v) ∧
      ((h.add (.number x) v).isSome ↔ h.Uncircled v) := by
  have exists_iff := built.within.exists_text_iff leads
  have text_iff := built.within.text_iff leads
  have primitive : (h.primitive v).isSome ↔ h.Uncircled v := by
    rw [isSome_primitive, Option.isSome_iff_exists, exists_iff]
  have itself : h.primitive (.number x) = some (.number x) := rfl
  refine ⟨text_iff, ?_, ?_, primitive, ?_, ?_, ?_, ?_⟩
  · rw [← exists_iff]
    exact exists_congr fun s => (text_iff s).symm
  · rw [number, Option.isSome_map, primitive]
  all_goals
    rw [← primitive]
    simp only [looseCompare, add, itself]
    cases h.primitive v <;> simp

/-! A collection that has been pushed into itself, inside an array. -/

namespace Coiled

def self : Ref := ⟨0, 1⟩

def bare : Heap :=
  (Heap.allocate {} 1 (.collection { id := 1, items := [], sink := .bus })).2.freshTag.2

def heap : Heap := bare.setItems self [.array 0 [.collection self]]

theorem built : heap.Built := by
  have start : bare.Built := .freshTag (.allocate .empty 1 .nil)
  have leads : bare.Leads [0] := by simp [Leads, Known, bare, Heap.freshTag, Heap.allocate]
  exact start.mutate self (m := .push (.array 0 [.collection self])) leads rfl

theorem leads : heap.Leads [0] := by
  simp [Leads, Known, heap, bare, self, Heap.freshTag, Heap.allocate, setItems, put, collection?,
    cell?]

/-- Its conversion does not end, while that of an object that holds it does. -/
theorem ends_iff_coiled : heap.Built ∧ heap.Leads (Value.collection self).places ∧
    heap.text (.collection self) = none ∧ ¬heap.Uncircled (.collection self) ∧
      (∀ s, ¬heap.Spells (.collection self) s) ∧
    heap.Leads (Value.object 1 [("inside", .collection self)]).places ∧
    heap.text (.object 1 [("inside", .collection self)]) = some "[object Object]" ∧
      heap.Uncircled (.object 1 [("inside", .collection self)]) ∧
      (heap.add (.object 1 [("inside", .collection self)]) (.number .one)).isSome := by
  have spelled (v : Value) (places : v.places = [0]) :=
    Built.ends_iff built (v := v) (places ▸ leads) .one
  obtain ⟨text, ends, -⟩ := spelled (.collection self) rfl
  obtain ⟨cut, cuts, -, -, -, -, adds, -⟩ :=
    spelled (.object 1 [("inside", .collection self)]) rfl
  have endless : heap.text (.collection self) = none := rfl
  have nothing (s : String) : ¬heap.Spells (.collection self) s := fun spells => by
    have found := (text s).mpr spells
    rw [endless] at found
    cases found
  have found : heap.text (.object 1 [("inside", .collection self)]) = some "[object Object]" := rfl
  have free := cuts.mp ⟨_, (cut _).mp found⟩
  exact ⟨built, leads, endless, fun free => (ends.mpr free).elim nothing, nothing, leads, found,
    free, adds.mpr free⟩

end Coiled

end Heap

/-- Nor does conversion give up too early in a running engine. -/
theorem Engine.Wends.text_iff {K : Command → Prop} {E : Engine (Scope.clean K)} {w : World}
    (wends : E.Wends w) {v : Value} (leads : w.heap.Leads v.places) (s : String) :
    w.heap.text v = some s ↔ w.heap.Spells v s :=
  wends.within.heap.text_iff leads s

end ReactiveQuery
