/-! Finite maps from names to values, kept as pairs in strictly increasing order of names.  Every
operation keeps the order and is told by what look-ups find afterwards; ordered maps in which all
look-ups agree are equal. -/

namespace ReactiveQuery

/-- Pairs of names and values; the operations below keep the names strictly increasing. -/
abbrev FieldMap (α : Type) := List (String × α)

namespace FieldMap

variable {α : Type}

def Sorted (m : FieldMap α) : Prop := m.Pairwise fun a b => a.1 < b.1

def get? (key : String) : FieldMap α → Option α
  | [] => none
  | (k, v) :: rest => if k = key then some v else get? key rest

def contains (key : String) (m : FieldMap α) : Bool := (get? key m).isSome

def insert (key : String) (value : α) : FieldMap α → FieldMap α
  | [] => [(key, value)]
  | (k, v) :: rest =>
    if key < k then (key, value) :: (k, v) :: rest
    else if key = k then (k, value) :: rest
    else (k, v) :: insert key value rest

/-- Changes the value under a name, if the name is there. -/
def update (key : String) (value : α) (m : FieldMap α) : FieldMap α :=
  m.map fun (k, v) => if k = key then (k, value) else (k, v)

def erase (key : String) (m : FieldMap α) : FieldMap α := m.filter (·.1 != key)

/-- The map of a list of pairs; of two pairs with one name the later wins. -/
def ofPairs (pairs : List (String × α)) : FieldMap α :=
  pairs.foldl (fun m (k, v) => insert k v m) []

def keys (m : FieldMap α) : List String := m.map (·.1)

def values (m : FieldMap α) : List α := m.map (·.2)

theorem get?_insert (key : String) (value : α) (m : FieldMap α) (k : String) :
    get? k (insert key value m) = if key = k then some value else get? k m := by
  induction m with
  | nil => simp [insert, get?]
  | cons e rest ih =>
    obtain ⟨k', v⟩ := e
    by_cases below : key < k'
    · simp [insert, below, get?]
    · by_cases here : key = k'
      · subst here
        by_cases h : key = k <;> simp [insert, get?, h]
      · by_cases h : k' = k
        · subst h
          simp [insert, below, here, get?]
        · simp [insert, below, here, get?, h, ih]

theorem get?_update (key : String) (value : α) (m : FieldMap α) (k : String) :
    get? k (update key value m) =
      if key = k then (get? k m).map fun _ => value else get? k m := by
  induction m with
  | nil => simp [update, get?]
  | cons e rest ih =>
    obtain ⟨k', v⟩ := e
    have step : update key value ((k', v) :: rest) =
        (if k' = key then (k', value) else (k', v)) :: update key value rest := rfl
    rw [step]
    by_cases here : k' = key
    · subst here
      by_cases h : k' = k <;> simp_all [get?]
    · by_cases h : k' = k
      · subst h
        simp [get?, here, Ne.symm here]
      · simp [get?, here, h, ih]

theorem get?_erase (key : String) (m : FieldMap α) (k : String) :
    get? k (erase key m) = if key = k then none else get? k m := by
  induction m with
  | nil => simp [erase, get?]
  | cons e rest ih =>
    obtain ⟨k', v⟩ := e
    simp only [erase, List.filter_cons] at ih ⊢
    by_cases here : k' = key
    · subst here
      by_cases h : k' = k <;> simp_all [get?]
    · by_cases h : k' = k
      · subst h
        simp [get?, here, Ne.symm here]
      · simp [get?, here, h, ih]

theorem keys_update (key : String) (value : α) (m : FieldMap α) :
    keys (update key value m) = keys m := by
  simp only [keys, update, List.map_map]
  congr 1
  funext ⟨k, v⟩
  by_cases h : k = key <;> simp [h]

/-- A name is there exactly when it is one of the names. -/
theorem isSome_get? (key : String) (m : FieldMap α) :
    (get? key m).isSome = true ↔ key ∈ keys m := by
  induction m with
  | nil => simp [get?, keys]
  | cons e rest ih =>
    obtain ⟨k, v⟩ := e
    by_cases h : k = key
    · simp [get?, keys, h]
    · simpa [get?, keys, h, Ne.symm h] using ih

/-- Whether pairs are in order depends on their names alone. -/
theorem sorted_iff_keys (m : FieldMap α) : Sorted m ↔ (keys m).Pairwise (· < ·) := by
  simp [Sorted, keys, List.pairwise_map]

theorem mem_keys_insert {key k : String} {value : α} {m : FieldMap α}
    (h : k ∈ keys (insert key value m)) : k = key ∨ k ∈ keys m := by
  rw [← isSome_get?, get?_insert] at h
  by_cases here : key = k
  · exact .inl here.symm
  · rw [if_neg here, isSome_get?] at h
    exact .inr h

theorem mem_insert {key : String} {value : α} {m : FieldMap α} {e : String × α}
    (member : e ∈ insert key value m) : e.2 = value ∨ e ∈ m := by
  induction m with
  | nil =>
    rw [insert, List.mem_singleton] at member
    exact .inl (by rw [member])
  | cons e' rest ih =>
    simp only [insert] at member
    split at member
    · rcases List.mem_cons.mp member with rfl | member
      · exact .inl rfl
      · exact .inr member
    · split at member
      · rcases List.mem_cons.mp member with rfl | member
        · exact .inl rfl
        · exact .inr (List.mem_cons_of_mem _ member)
      · rcases List.mem_cons.mp member with rfl | member
        · exact .inr List.mem_cons_self
        · exact (ih member).imp_right (List.mem_cons_of_mem _)

theorem mem_of_get? {key : String} {value : α} {m : FieldMap α} (found : get? key m = some value) :
    (key, value) ∈ m := by
  induction m with
  | nil => simp [get?] at found
  | cons e rest ih =>
    obtain ⟨name, v⟩ := e
    by_cases here : name = key
    · simp_all [get?]
    · exact List.mem_cons_of_mem _ (ih (by simpa [get?, here] using found))

theorem sorted_insert (key : String) (value : α) {m : FieldMap α} (h : Sorted m) :
    Sorted (insert key value m) := by
  induction m with
  | nil => simp [insert, Sorted]
  | cons e rest ih =>
    obtain ⟨k, v⟩ := e
    obtain ⟨first, tail⟩ := List.pairwise_cons.mp h
    by_cases below : key < k
    · simp only [insert, below, if_true]
      refine List.pairwise_cons.mpr ⟨fun e' he' => ?_, h⟩
      rcases List.mem_cons.mp he' with rfl | he'
      · exact below
      · exact String.lt_trans below (first e' he')
    · by_cases here : key = k
      · subst here
        simpa [insert, Sorted, String.lt_irrefl] using h
      · simp only [insert, below, here, if_false]
        refine List.pairwise_cons.mpr ⟨fun e' he' => ?_, ih tail⟩
        have above : k < key := Std.lt_of_le_of_ne (String.not_lt.mp below) (Ne.symm here)
        rcases mem_keys_insert (List.mem_map_of_mem he') with h' | h'
        · rw [h']
          exact above
        · obtain ⟨e'', he'', same⟩ := List.mem_map.mp h'
          rw [← same]
          exact first e'' he''

theorem sorted_update (key : String) (value : α) {m : FieldMap α} (h : Sorted m) :
    Sorted (update key value m) := by
  rw [sorted_iff_keys, keys_update]
  exact (sorted_iff_keys m).mp h

theorem sorted_erase (key : String) {m : FieldMap α} (h : Sorted m) : Sorted (erase key m) :=
  List.Pairwise.filter _ h

/-- The values of a map of pairs are values of the pairs. -/
theorem mem_ofPairs {pairs : List (String × α)} {e : String × α} (member : e ∈ ofPairs pairs) :
    ∃ e' ∈ pairs, e.2 = e'.2 := by
  suffices ∀ m : FieldMap α, e ∈ pairs.foldl (fun m (k, v) => insert k v m) m →
      e ∈ m ∨ ∃ e' ∈ pairs, e.2 = e'.2 from (this [] member).resolve_left List.not_mem_nil
  clear member
  induction pairs with
  | nil => exact fun m h => .inl h
  | cons first rest ih =>
    intro m h
    rcases ih _ h with member | ⟨e', member, same⟩
    · exact (mem_insert member).symm.imp id fun same => ⟨first, List.mem_cons_self, same⟩
    · exact .inr ⟨e', List.mem_cons_of_mem _ member, same⟩

theorem sorted_ofPairs (pairs : List (String × α)) : Sorted (ofPairs pairs) := by
  suffices ∀ m : FieldMap α, Sorted m →
      Sorted (pairs.foldl (fun m (k, v) => insert k v m) m) from this [] .nil
  induction pairs with
  | nil => exact fun m h => h
  | cons e rest ih => exact fun m h => ih _ (sorted_insert e.1 e.2 h)

/-- In an ordered map no name before the first one is there. -/
theorem get?_eq_none_of_lt {key k : String} {v : α} {m : FieldMap α}
    (h : Sorted ((k, v) :: m)) (below : key < k) : get? key ((k, v) :: m) = none := by
  rw [← Option.not_isSome_iff_eq_none, isSome_get?]
  intro found
  rcases List.mem_cons.mp found with same | found
  · exact String.lt_irrefl _ (same ▸ below)
  · obtain ⟨e, he, same⟩ := List.mem_map.mp found
    have above := (List.pairwise_cons.mp h).1 e he
    rw [same] at above
    exact String.lt_asymm below above

/-- In an ordered map the first name does not come again. -/
theorem get?_rest_eq_none {k : String} {v : α} {m : FieldMap α} (h : Sorted ((k, v) :: m)) :
    get? k m = none := by
  rw [← Option.not_isSome_iff_eq_none, isSome_get?]
  intro found
  obtain ⟨e, he, same⟩ := List.mem_map.mp found
  have above := (List.pairwise_cons.mp h).1 e he
  rw [same] at above
  exact String.lt_irrefl _ above

/-- Ordered maps with the same names begin with the same name. -/
theorem first_eq {k l : String} {v w : α} {m n : FieldMap α} (hm : Sorted ((k, v) :: m))
    (hn : Sorted ((l, w) :: n))
    (h : ∀ x, (get? x ((k, v) :: m)).isSome = (get? x ((l, w) :: n)).isSome) : k = l := by
  refine Classical.byContradiction fun differ => ?_
  by_cases below : k < l
  · have found := h k
    rw [get?_eq_none_of_lt hn below] at found
    simp [get?] at found
  · have above : l < k := Std.lt_of_le_of_ne (String.not_lt.mp below) (Ne.symm differ)
    have found := h l
    rw [get?_eq_none_of_lt hm above] at found
    simp [get?] at found

/-- Ordered maps are told apart by what their names find. -/
theorem eq_of_get?_eq {m n : FieldMap α} (hm : Sorted m) (hn : Sorted n)
    (h : ∀ k, get? k m = get? k n) : m = n := by
  induction m generalizing n with
  | nil =>
    match n with
    | [] => rfl
    | (k, v) :: rest => simpa [get?] using h k
  | cons e rest ih =>
    obtain ⟨k, v⟩ := e
    match n with
    | [] => simpa [get?] using h k
    | (l, w) :: rest' =>
      obtain rfl := first_eq hm hn fun x => congrArg Option.isSome (h x)
      have value : v = w := by simpa [get?] using h k
      subst value
      congr 1
      refine ih (List.pairwise_cons.mp hm).2 (List.pairwise_cons.mp hn).2 fun x => ?_
      by_cases here : k = x
      · subst here
        rw [get?_rest_eq_none hm, get?_rest_eq_none hn]
      · simpa [get?, here] using h x

end FieldMap

end ReactiveQuery
