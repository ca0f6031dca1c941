import Mathlib.Data.List.GetD
import ReactiveQuery.FieldMap

/-! Maps by search.  A search among names in order finds the position of a name, or the one where it
belongs.  Whatever search that is, looking up, inserting, changing and taking out at the positions
that it finds is what the operations on ordered maps do; and halving is such a search. -/

namespace ReactiveQuery

namespace FieldMap

variable {α : Type} {key : String} {value : α} {m front back : FieldMap α}

theorem get?_of_absent (absent : ∀ e ∈ m, e.1 ≠ key) : get? key m = none := by
  rw [← Option.not_isSome_iff_eq_none, isSome_get?]
  intro found
  obtain ⟨e, member, same⟩ := List.mem_map.mp found
  exact absent e member same

theorem update_of_absent (absent : ∀ e ∈ m, e.1 ≠ key) : update key value m = m := by
  refine (List.map_congr_left fun e member => ?_).trans (List.map_id m)
  exact if_neg (absent e member)

theorem erase_of_absent (absent : ∀ e ∈ m, e.1 ≠ key) : erase key m = m :=
  List.filter_eq_self.mpr fun e member => by simpa using absent e member

theorem update_cons (old : α) :
    update key value ((key, old) :: back) = (key, value) :: update key value back := by
  simp [update]

theorem erase_cons (old : α) : erase key ((key, old) :: back) = erase key back := by
  simp [erase]

theorem absent_of_after (after : ∀ e ∈ back, key < e.1) : ∀ e ∈ back, e.1 ≠ key :=
  fun e member same => String.lt_irrefl _ (same ▸ after e member)

/-- A name is put in front of the names that come after it. -/
theorem insert_of_before (after : ∀ e ∈ back, key < e.1) :
    insert key value back = (key, value) :: back := by
  cases back with
  | nil => rfl
  | cons e back => rw [insert, if_pos (after e List.mem_cons_self)]

section
variable (before : ∀ e ∈ front, e.1 < key)
include before

theorem absent_of_before : ∀ e ∈ front, e.1 ≠ key :=
  fun e member same => String.lt_irrefl _ (same ▸ before e member)

theorem get?_append : get? key (front ++ back) = get? key back := by
  induction front with
  | nil => rfl
  | cons e front ih =>
    obtain ⟨first, rest⟩ := List.forall_mem_cons.mp before
    rw [List.cons_append, get?, if_neg (Std.ne_of_lt first), ih rest]

theorem insert_append : insert key value (front ++ back) = front ++ insert key value back := by
  induction front with
  | nil => rfl
  | cons e front ih =>
    obtain ⟨first, rest⟩ := List.forall_mem_cons.mp before
    rw [List.cons_append, insert, if_neg (String.lt_asymm first), if_neg (Std.ne_of_lt first).symm,
      ih rest, List.cons_append]

theorem update_append : update key value (front ++ back) = front ++ update key value back := by
  rw [update, List.map_append, ← update, ← update, update_of_absent (absent_of_before before)]

theorem erase_append : erase key (front ++ back) = front ++ erase key back := by
  rw [erase, List.filter_append, ← erase, ← erase, erase_of_absent (absent_of_before before)]

end

end FieldMap

section
variable {β : Type} (front back : List β) (e : β)

theorem modify_length_append (f : β → β) :
    (front ++ e :: back).modify front.length f = front ++ f e :: back := by
  induction front with
  | nil => rfl
  | cons first front ih => simpa using ih

theorem insertIdx_length_append :
    (front ++ back).insertIdx front.length e = front ++ e :: back := by
  induction front with
  | nil => rfl
  | cons first front ih => simpa using ih

end

/-- A search of a name among names in order. -/
structure Search where
  /-- The position of the name, or else the one where it belongs. -/
  find : String → List String → Except Nat Nat
  found {key : String} {names : List String} {i : Nat} : names.Pairwise (· < ·) →
    find key names = .ok i → names[i]? = some key
  missing {key : String} {names : List String} {i : Nat} : names.Pairwise (· < ·) →
    find key names = .error i →
      i ≤ names.length ∧ (∀ name ∈ names.take i, name < key) ∧ ∀ name ∈ names.drop i, key < name

namespace Search

variable {α : Type}

section
variable (s : Search) (key : String) (value : α) (m : FieldMap α)

def get? : Option α :=
  match s.find key m.keys with
  | .ok i => m[i]?.map (·.2)
  | .error _ => none

def contains : Bool := (s.find key m.keys).isOk

/-- What was there before, and the map with the name in its place. -/
def insert : Option α × FieldMap α :=
  match s.find key m.keys with
  | .ok i => (m[i]?.map (·.2), m.modify i fun e => (e.1, value))
  | .error i => (none, m.insertIdx i (key, value))

def update : Option α × FieldMap α :=
  match s.find key m.keys with
  | .ok i => (m[i]?.map (·.2), m.modify i fun e => (e.1, value))
  | .error _ => (none, m)

def remove : Option α × FieldMap α :=
  match s.find key m.keys with
  | .ok i => (m[i]?.map (·.2), m.eraseIdx i)
  | .error _ => (none, m)

end

/-- What a search finds in an ordered map: the entry of the name between those before and those
after it, or the gap between them. -/
inductive Finds (s : Search) (key : String) (m : FieldMap α) : Prop where
  | entry (front : FieldMap α) (old : α) (back : FieldMap α)
    (split : m = front ++ (key, old) :: back) (before : ∀ e ∈ front, e.1 < key)
    (place : s.find key m.keys = .ok front.length)
  | gap (front back : FieldMap α) (split : m = front ++ back) (before : ∀ e ∈ front, e.1 < key)
    (after : ∀ e ∈ back, key < e.1) (place : s.find key m.keys = .error front.length)

variable (s : Search) {key : String} {value : α} {m : FieldMap α}

theorem finds (sorted : m.Sorted) (key : String) : s.Finds key m := by
  have increasing := (FieldMap.sorted_iff_keys m).mp sorted
  cases outcome : s.find key m.keys with
  | ok i =>
    have found := s.found increasing outcome
    rw [FieldMap.keys, List.getElem?_map, Option.map_eq_some_iff] at found
    obtain ⟨⟨name, old⟩, here, rfl⟩ := found
    obtain ⟨inside, entry⟩ := List.getElem?_eq_some_iff.mp here
    have split : m = m.take i ++ (name, old) :: m.drop (i + 1) := by
      rw [← entry, ← List.drop_eq_getElem_cons inside, List.take_append_drop]
    have front : (m.take i).length = i := List.length_take_of_le (Nat.le_of_lt inside)
    rw [split] at sorted
    have across := (List.pairwise_append.mp sorted).2.2
    exact .entry _ old _ split (fun e member => across e member _ List.mem_cons_self)
      (by rw [outcome, front])
  | error i =>
    obtain ⟨inside, before, after⟩ := s.missing increasing outcome
    rw [FieldMap.keys, List.length_map] at inside
    rw [FieldMap.keys, ← List.map_take] at before
    rw [FieldMap.keys, ← List.map_drop] at after
    have front : (m.take i).length = i := List.length_take_of_le inside
    exact .gap _ (m.drop i) (List.take_append_drop i m).symm (List.forall_mem_map.mp before)
      (List.forall_mem_map.mp after) (by rw [outcome, front])

section
variable (sorted : m.Sorted) (key : String)
include sorted

theorem get?_eq : s.get? key m = FieldMap.get? key m := by
  cases s.finds sorted key with
  | entry front old back split before place =>
    rw [get?, place, split, FieldMap.get?_append before]
    simp [FieldMap.get?]
  | gap front back split before after place =>
    rw [get?, place, split, FieldMap.get?_append before,
      FieldMap.get?_of_absent (FieldMap.absent_of_after after)]

theorem contains_eq : s.contains key m = FieldMap.contains key m := by
  rw [FieldMap.contains, ← s.get?_eq sorted, contains, get?]
  cases s.finds sorted key with
  | entry front old back split before place =>
    rw [place, split]
    simp [Except.isOk, Except.toBool]
  | gap front back split before after place =>
    rw [place]
    rfl

theorem insert_eq (value : α) :
    s.insert key value m = (FieldMap.get? key m, FieldMap.insert key value m) := by
  rw [← s.get?_eq sorted, insert, get?]
  cases s.finds sorted key with
  | entry front old back split before place =>
    rw [place, split, FieldMap.insert_append before]
    simp [FieldMap.insert, modify_length_append]
  | gap front back split before after place =>
    rw [place, split, FieldMap.insert_append before, FieldMap.insert_of_before after]
    simp [insertIdx_length_append]

theorem update_eq (value : α) :
    s.update key value m = (FieldMap.get? key m, FieldMap.update key value m) := by
  rw [← s.get?_eq sorted, update, get?]
  cases s.finds sorted key with
  | entry front old back split before place =>
    have others := (List.pairwise_cons.mp (List.pairwise_append.mp (split ▸ sorted)).2.1).1
    rw [place, split, FieldMap.update_append before, FieldMap.update_cons,
      FieldMap.update_of_absent (FieldMap.absent_of_after others)]
    simp [modify_length_append]
  | gap front back split before after place =>
    rw [place, split, FieldMap.update_append before,
      FieldMap.update_of_absent (FieldMap.absent_of_after after)]

theorem remove_eq : s.remove key m = (FieldMap.get? key m, FieldMap.erase key m) := by
  rw [← s.get?_eq sorted, remove, get?]
  cases s.finds sorted key with
  | entry front old back split before place =>
    have others := (List.pairwise_cons.mp (List.pairwise_append.mp (split ▸ sorted)).2.1).1
    rw [place, split, FieldMap.erase_append before, FieldMap.erase_cons,
      FieldMap.erase_of_absent (FieldMap.absent_of_after others)]
    simp [List.eraseIdx_append_of_length_le]
  | gap front back split before after place =>
    rw [place, split, FieldMap.erase_append before,
      FieldMap.erase_of_absent (FieldMap.absent_of_after after)]

end

/-- Cuts a range of names in halves until one name is left: where that is. -/
def halve (key : String) (names : List String) (base size : Nat) : Nat :=
  if 1 < size then
    if key < names.getD (base + size / 2) "" then halve key names base (size - size / 2)
    else halve key names (base + size / 2) (size - size / 2)
  else base
termination_by size

/-- A range of names outside of which a name is not. -/
structure Within (key : String) (names : List String) (base size : Nat) : Prop where
  filled : 0 < size
  inside : base + size ≤ names.length
  below : ∀ i, (bound : i < names.length) → i < base → names[i] < key
  above : ∀ i, (bound : i < names.length) → base + size ≤ i → key < names[i]

section
variable {names : List String} {base size : Nat} (increasing : names.Pairwise (· < ·))
include increasing

theorem Within.halve (range : Within key names base size) :
    Within key names (halve key names base size) 1 := by
  have ordered := List.pairwise_iff_getElem.mp increasing
  induction base, size using Search.halve.induct key names with
  | case1 base size large left ih =>
    rw [Search.halve, if_pos large, if_pos left]
    have inside := range.inside
    have middle : base + size / 2 < names.length := by omega
    rw [List.getD_eq_getElem _ _ middle] at left
    refine ih ⟨by omega, by omega, range.below, fun i bound beyond => ?_⟩
    by_cases here : i = base + size / 2
    · subst here
      exact left
    · exact String.lt_trans left (ordered _ i middle bound (by omega))
  | case2 base size large right ih =>
    rw [Search.halve, if_pos large, if_neg right]
    have inside := range.inside
    have middle : base + size / 2 < names.length := by omega
    rw [List.getD_eq_getElem _ _ middle] at right
    refine ih ⟨by omega, by omega, fun i bound before => ?_, fun i bound beyond =>
      range.above i bound (by omega)⟩
    exact Std.lt_of_lt_of_le (ordered i _ bound middle before) (String.not_lt.mp right)
  | case3 base size small =>
    rw [Search.halve, if_neg small]
    obtain rfl : size = 1 := by have := range.filled; omega
    exact range

end

/-- Where a name belongs that comes after the names below a position, and before all others. -/
theorem belongs {names : List String} {i : Nat} (inside : i ≤ names.length)
    (below : ∀ j, (bound : j < names.length) → j < i → names[j] < key)
    (above : ∀ j, (bound : j < names.length) → i ≤ j → key < names[j]) :
    i ≤ names.length ∧ (∀ name ∈ names.take i, name < key) ∧
      ∀ name ∈ names.drop i, key < name := by
  simp only [List.mem_take_iff_getElem, List.mem_drop_iff_getElem]
  refine ⟨inside, ?_, ?_⟩
  · rintro name ⟨j, bound, rfl⟩
    exact below j (by omega) (by omega)
  · rintro name ⟨j, bound, rfl⟩
    exact above (i + j) (by omega) (by omega)

/-- The one name that is left is before the name, or after it. -/
theorem Within.gap {names : List String} {base i : Nat} (range : Within key names base 1)
    (inside : base < names.length) (other : names[base] ≠ key)
    (gap : i = if names[base] < key then base + 1 else base) :
    i ≤ names.length ∧ (∀ name ∈ names.take i, name < key) ∧
      ∀ name ∈ names.drop i, key < name := by
  subst gap
  split
  · next left =>
    refine belongs inside (fun j bound below => ?_) range.above
    rcases Nat.lt_succ_iff_lt_or_eq.mp below with below | rfl
    · exact range.below j bound below
    · exact left
  · next unordered =>
    have right : key < names[base] :=
      Std.lt_of_le_of_ne (String.not_lt.mp unordered) (Ne.symm other)
    refine belongs (Nat.le_of_lt inside) range.below fun j bound above => ?_
    rcases Nat.eq_or_lt_of_le above with rfl | above
    · exact right
    · exact range.above j bound above

end Search

end ReactiveQuery
