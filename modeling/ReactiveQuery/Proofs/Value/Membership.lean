import Mathlib.Data.List.Perm.Subperm
import Mathlib.Logic.Relation
import ReactiveQuery.Proofs.Value.Plain

/-! Collections that hold one another.  Conversion follows the items of a collection and of the
arrays among them, and nothing else; where no collection is come to again in this way, every
conversion ends. -/

namespace ReactiveQuery

namespace Heap

variable {h : Heap}

/-- A collection holds another one, as an item or in an array among its items. -/
def Nests (h : Heap) (outer inner : Nat) : Prop :=
  ∃ c, h.cell? outer = some (.collection c) ∧
    ∃ r ∈ Value.collectionsOfItems c.items, r.loc = inner

/-- No collection is come to again through what it holds. -/
def Acyclic (h : Heap) : Prop := ∀ l, ¬Relation.TransGen h.Nests l l

/-- A collection that a handle leads to and that shows the identity of the handle. -/
def Shows (h : Heap) (r : Ref) : Prop := ∃ c, h.collection? r = some c ∧ c.id = r.id

/-- A heap of collections: handles lead to them, an identity is that of one collection, and none is
come to again through what it holds. -/
structure Tiered (h : Heap) : Prop where
  acyclic : h.Acyclic
  shown : ∀ l c, h.cell? l = some (.collection c) →
    ∀ r ∈ Value.collectionsOfItems c.items, h.Shows r
  unique : ∀ l m c d, h.cell? l = some (.collection c) → h.cell? m = some (.collection d) →
    c.id = d.id → l = m

theorem Shows.lt_size {r : Ref} (shown : h.Shows r) : r.loc < h.cells.size := by
  obtain ⟨c, found, -⟩ := shown
  exact lt_size_of_cell? (collection?_eq_some.mp found)

theorem nests_of_mem_items {r s : Ref} (member : s ∈ Value.collectionsOfItems (h.items r)) :
    h.Nests r.loc s.loc := by
  unfold items at member
  cases here : h.collection? r with
  | none => simp [here, Value.collectionsOfItems] at member
  | some c =>
    rw [here] at member
    exact ⟨c, collection?_eq_some.mp here, s, member, rfl⟩

theorem Tiered.shown_of_mem_items (tiered : h.Tiered) {r s : Ref}
    (member : s ∈ Value.collectionsOfItems (h.items r)) : h.Shows s := by
  unfold items at member
  cases here : h.collection? r with
  | none => simp [here, Value.collectionsOfItems] at member
  | some c =>
    rw [here] at member
    exact tiered.shown r.loc c (collection?_eq_some.mp here) s member

/-- A value leads to no collection that is come to again through what it holds. -/
def Uncircled (h : Heap) (v : Value) : Prop :=
  ∀ r ∈ v.collections, ∀ l, Relation.ReflTransGen h.Nests r.loc l → ¬Relation.TransGen h.Nests l l

section
variable (closed : ∀ r : Ref, ∀ s ∈ Value.collectionsOfItems (h.items r), s.loc < h.cells.size)

include closed

/-- The collections on the way to one differ from one another, so they are no more than the cells.
The depth that is left covers the cells that were not on the way. -/
theorem exists_textWithin {depth : Nat} {way : List Nat} {r : Ref}
    (free : ∀ l, Relation.ReflTransGen h.Nests r.loc l → ¬Relation.TransGen h.Nests l l)
    (once : way.Nodup) (inside : way ⊆ List.range h.cells.size)
    (leads : ∀ l ∈ way, Relation.ReflTransGen h.Nests l r.loc)
    (left : h.cells.size < depth + way.length) : ∃ s, h.textWithin depth r = some s := by
  induction depth generalizing way r with
  | zero =>
    have fewer := (once.subperm inside).length_le
    rw [List.length_range] at fewer
    omega
  | succ depth ih =>
    have texts : ∀ s ∈ Value.collectionsOfItems (h.items r),
        ∃ t, h.textWithin depth s = some t := by
      intro s member
      have nested := nests_of_mem_items member
      have new : s.loc ∉ way := fun again =>
        free s.loc (.single nested) (.tail' (leads s.loc again) nested)
      refine ih (fun l further => free l (.head nested further))
        (List.nodup_cons.mpr ⟨new, once⟩) ?_ ?_ ?_
      · exact List.cons_subset.mpr ⟨List.mem_range.mpr (closed r s member), inside⟩
      · exact List.forall_mem_cons.mpr ⟨.refl, fun l member => (leads l member).tail nested⟩
      · rw [List.length_cons]
        omega
    obtain ⟨parts, found⟩ := Value.exists_partsWith (h.items r) texts
    exact ⟨_, by rw [textWithin, found]; rfl⟩

/-- The text of a value is found where no collection is come to again. -/
theorem Uncircled.exists_text {v : Value} (free : h.Uncircled v)
    (inside : ∀ r ∈ v.collections, r.loc < h.cells.size) : ∃ s, h.text v = some s :=
  Value.exists_textWith v fun r member =>
    exists_textWithin closed (free r member) (List.pairwise_singleton _ r.loc)
      (by simpa using inside r member) (by simp [Relation.ReflTransGen.refl]) (by simp)

end

theorem Tiered.exists_text (tiered : h.Tiered) {v : Value}
    (shown : ∀ r ∈ v.collections, h.Shows r) : ∃ s, h.text v = some s :=
  Uncircled.exists_text (fun _ _ member => (tiered.shown_of_mem_items member).lt_size)
    (fun _ _ l _ => tiered.acyclic l) fun r member => (shown r member).lt_size

theorem Tiered.exists_primitive (tiered : h.Tiered) {v : Value}
    (shown : ∀ r ∈ v.collections, h.Shows r) : ∃ p, h.primitive v = some p := by
  obtain ⟨s, found⟩ := tiered.exists_text shown
  cases v <;> simp [primitive, found]

end Heap

end ReactiveQuery
