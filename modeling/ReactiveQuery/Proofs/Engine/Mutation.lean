import ReactiveQuery.Engine.Observable
import ReactiveQuery.Proofs.FieldMap.Search
import ReactiveQuery.Proofs.Sort.Rows

/-! Changes of the items of a collection.  Each one turns the items as the operation on lists does,
or is refused for its index; what changes is written before it is reported, and what is refused
leaves everything as it was. -/

namespace ReactiveQuery

/-- A change of the items of a collection, with what it is given. -/
inductive Mutation where
  | push (v : Value)
  | unshift (v : Value)
  | insert (index : Nat) (v : Value)
  | pop
  | shift
  | remove (index : Nat)
  | reverse
  | sort (order : Value → Value → Ordering)
  | setItem (index : Nat) (v : Value)
  | replaceAll (new : List Value)

namespace Mutation

/-- What a change makes of items: the items afterwards, and those taken out or replaced. -/
inductive Turns : Mutation → List Value → List Value → List Value → Prop where
  | push (v : Value) (items : List Value) : Turns (.push v) items (items ++ [v]) []
  | unshift (v : Value) (items : List Value) : Turns (.unshift v) items (v :: items) []
  | insert (front back : List Value) (v : Value) :
    Turns (.insert front.length v) (front ++ back) (front ++ v :: back) []
  | pop (front : List Value) (last : Value) : Turns .pop (front ++ [last]) front [last]
  | popNone : Turns .pop [] [] []
  | shift (first : Value) (rest : List Value) : Turns .shift (first :: rest) rest [first]
  | shiftNone : Turns .shift [] [] []
  | remove (front : List Value) (v : Value) (back : List Value) :
    Turns (.remove front.length) (front ++ v :: back) (front ++ back) [v]
  | reverse (items : List Value) : Turns .reverse items items.reverse []
  /-- Sorting rearranges, and where the order is total and transitive, stably. -/
  | sort (order : Value → Value → Ordering) (items sorted : List Value) (perm : sorted.Perm items)
    (stable : TotalOn (mayPrecede order) items → TransOn (mayPrecede order) items →
      StablySorted (mayPrecede order) items sorted) : Turns (.sort order) items sorted items
  | setItem (front : List Value) (old : Value) (back : List Value) (v : Value) :
    Turns (.setItem front.length v) (front ++ old :: back) (front ++ v :: back) [old]
  /-- Past the end, nulls fill the items up. -/
  | pad (items : List Value) (gap : Nat) (v : Value) :
    Turns (.setItem (items.length + gap) v) items (items ++ List.replicate gap .null ++ [v]) []
  | replaceAll (new items : List Value) : Turns (.replaceAll new) items new items

/-- The changes that are refused for their index, and with which message. -/
inductive Refuses : Mutation → List Value → Error → Prop where
  | insert {index : Nat} {items : List Value} (v : Value) (past : items.length < index) :
    Refuses (.insert index v) items (.invalidOperation "insert index out of bounds")
  | remove {index : Nat} {items : List Value} (past : items.length ≤ index) :
    Refuses (.remove index) items (.invalidOperation "remove index out of bounds")

/-- The change of items that a mutation is. -/
def itemChange : Mutation → ItemChange
  | .push v => .push v
  | .unshift v => .unshift v
  | .insert index v => .insert index v
  | .pop => .pop
  | .shift => .shift
  | .remove index => .remove index
  | .reverse => .reverse
  | .sort order => fun items => .ok (sortHalves (mayPrecede order) items, items)
  | .setItem index v => .setItem index v
  | .replaceAll new => .replaceAll new

variable {m : Mutation} {items next out : List Value} {e : Error}

theorem turns_insert {index : Nat} (v : Value) (inside : index ≤ items.length) :
    Turns (.insert index v) items (items.insertIdx index v) [] := by
  have front : (items.take index).length = index := List.length_take_of_le inside
  have written := insertIdx_length_append (items.take index) (items.drop index) v
  have turns := Turns.insert (items.take index) (items.drop index) v
  rwa [← written, List.take_append_drop, front] at turns

theorem turns_pop (items : List Value) :
    Turns .pop items items.dropLast items.getLast?.toList := by
  induction items using List.reverseRecOn with
  | nil => exact .popNone
  | append_singleton front last _ => simpa using Turns.pop front last

/-- Items around one of them. -/
theorem exists_around {index : Nat} (inside : index < items.length) :
    ∃ front v back, items = front ++ v :: back ∧ front.length = index :=
  ⟨items.take index, items[index], items.drop (index + 1),
    by rw [← List.drop_eq_getElem_cons inside, List.take_append_drop],
    List.length_take_of_le (Nat.le_of_lt inside)⟩

theorem turns_of_itemChange (changed : m.itemChange items = .ok (next, out)) :
    m.Turns items next out := by
  cases m with
  | push v =>
    cases changed
    exact .push v items
  | unshift v =>
    cases changed
    exact .unshift v items
  | insert index v =>
    simp only [itemChange, ItemChange.insert] at changed
    split at changed
    · cases changed
    · next inside =>
      cases changed
      exact turns_insert v (Nat.not_lt.mp inside)
  | pop =>
    cases changed
    exact turns_pop items
  | shift =>
    cases changed
    cases items with
    | nil => exact .shiftNone
    | cons first rest => exact .shift first rest
  | remove index =>
    simp only [itemChange, ItemChange.remove] at changed
    split at changed
    · next inside =>
      cases changed
      obtain ⟨front, v, back, rfl, rfl⟩ := exists_around inside
      simpa [List.eraseIdx_append_of_length_le] using Turns.remove front v back
    · cases changed
  | reverse =>
    cases changed
    exact .reverse items
  | sort order =>
    cases changed
    exact .sort order items _ (sortHalves_perm items) stablySorted_sortHalves
  | setItem index v =>
    simp only [itemChange, ItemChange.setItem] at changed
    split at changed
    · next inside =>
      cases changed
      obtain ⟨front, old, back, rfl, rfl⟩ := exists_around inside
      simpa using Turns.setItem front old back v
    · next past =>
      cases changed
      obtain ⟨gap, rfl⟩ := Nat.exists_eq_add_of_le (Nat.not_lt.mp past)
      simpa using Turns.pad items gap v
  | replaceAll =>
    cases changed
    exact .replaceAll _ items

theorem refuses_iff : m.Refuses items e ↔ m.itemChange items = .error e := by
  constructor
  · rintro (⟨v, past⟩ | past)
    · simp [itemChange, ItemChange.insert, past]
    · simp [itemChange, ItemChange.remove, Nat.not_lt.mpr past]
  · intro refused
    cases m with
    | insert index v =>
      simp only [itemChange, ItemChange.insert] at refused
      split at refused
      · next past =>
        cases refused
        exact .insert v past
      · cases refused
    | remove index =>
      simp only [itemChange, ItemChange.remove] at refused
      split at refused
      · cases refused
      · next past =>
        cases refused
        exact .remove (Nat.not_lt.mp past)
    | setItem index v =>
      simp only [itemChange, ItemChange.setItem] at refused
      split at refused <;> cases refused
    | _ => cases refused

end Mutation

/-- The order of items under conversion, turned round unless ascending; what has no order counts as
equal. -/
def Heap.looseOrder (h : Heap) (ascending : Bool) (a b : Value) : Ordering :=
  let order := ((h.looseCompare a b).getD none).getD .eq
  if ascending then order else order.swap

namespace Ref

section
variable (dispatch : Act Unit) (r : Ref)

/-- Sorts the items by an order that may look into the heap. -/
def sortBy (order : Heap → Value → Value → Option Ordering) : Act (List Value) := do
  let sorted ← Act.ask fun h => mergeSortBy (order h) (h.items r)
  r.change dispatch (.replaceAll sorted)

/-- Changes the items of a collection; gives back what was taken out or replaced. -/
def mutate : Mutation → Act (List Value)
  | .sort order => r.sortBy dispatch fun _ a b => some (order a b)
  | m => r.change dispatch m.itemChange

end

variable {dispatch : Act Unit} {r : Ref} {w : World} {c : CollectionCell} {f : ItemChange}
  {next out : List Value} {e : Error}

theorem change_of_error (here : w.heap.collection? r = some c) (refused : f c.items = .error e) :
    (r.change dispatch f).on w = (.error (.raised e), w) := by
  rw [change, Act.on_bind_ok (Act.on_get w), here]
  dsimp only
  rw [refused]
  exact Act.on_bind_error (Act.on_raise e w)

/-- The items are written before the change is reported. -/
theorem change_of_ok (here : w.heap.collection? r = some c)
    (changed : f c.items = .ok (next, out)) :
    (r.change dispatch f).on w =
      (do
        Act.holding out
          (Act.report dispatch c.sink (changeEvents r.id c.items.length next.length))
        return out : Act (List Value)).on { w with heap := w.heap.setItems r next } := by
  rw [change, Act.on_bind_ok (Act.on_get w), here]
  dsimp only
  rw [changed, Act.on_bind_ok (Act.on_ofExcept (.ok (next, out)) w),
    Act.on_bind_ok (Act.on_changeHeap ..)]

/-- Sorting puts the sorted items in the place of all items. -/
theorem on_change_sort (order : Value → Value → Ordering) (w : World) :
    (r.change dispatch (Mutation.sort order).itemChange).on w = (r.change dispatch
      (.replaceAll (sortHalves (mayPrecede order) (w.heap.items r)))).on w := by
  cases here : w.heap.collection? r with
  | none =>
    rw [change, change, Act.on_bind_ok (Act.on_get w), Act.on_bind_ok (Act.on_get w), here]
  | some c =>
    have items : w.heap.items r = c.items := by simp [Heap.items, here]
    rw [items, change_of_ok here rfl, change_of_ok here rfl]

theorem on_mutate (m : Mutation) (w : World) :
    (r.mutate dispatch m).on w = (r.change dispatch m.itemChange).on w := by
  cases m with
  | sort order =>
    have sorted : (Act.ask fun h => mergeSortBy (fun a b => some (order a b)) (h.items r)).on w =
        (.ok (sortHalves (mayPrecede order) (w.heap.items r)), w) := by
      rw [Act.on_ask]
      exact congrArg (fun o => ((Option.map Except.ok o).getD _, w)) (mergeSortBy_pure order _)
    rw [mutate, sortBy, Act.on_bind_ok sorted, on_change_sort]
  | _ => rfl

/-- The sort of the engine is the sort by the order under conversion as it is at the time. -/
theorem on_sortItems {ascending : Bool} (ends : ∀ a ∈ w.heap.items r, ∀ b ∈ w.heap.items r,
    (w.heap.looseCompare a b).isSome) : (r.sortItems dispatch ascending).on w =
      (do let _ ← r.mutate dispatch (.sort (w.heap.looseOrder ascending)) : Act Unit).on w := by
  let compare (a b : Value) : Option Ordering := do
    let order := (← w.heap.looseCompare a b).getD .eq
    return if ascending then order else order.swap
  obtain ⟨sorted, found⟩ : ∃ sorted, mergeSortBy compare (w.heap.items r) = some sorted :=
    exists_mergeSortBy fun a ha b hb => by
      obtain ⟨order, known⟩ := Option.isSome_iff_exists.mp (ends a ha b hb)
      simp [compare, known]
  have same : (fun a b => compare a b != some .gt) = mayPrecede (w.heap.looseOrder ascending) := by
    funext a b
    dsimp only [compare, mayPrecede, Heap.looseOrder]
    rcases w.heap.looseCompare a b with _ | _ | _ | _ | _ <;> cases ascending <;> rfl
  have result := sortHalves_of_mergeSortBy found
  rw [same] at result
  have asked : (Act.ask fun h => mergeSortBy (fun a b => do
      let order := (← h.looseCompare a b).getD .eq
      return if ascending then order else order.swap) (h.items r)).on w = (.ok sorted, w) := by
    rw [Act.on_ask]
    exact congrArg (fun o => ((Option.map Except.ok o).getD _, w)) found
  rw [sortItems, Act.on_bind_ok asked, Act.on_bind, Act.on_bind, on_mutate, on_change_sort, result]

end Ref

end ReactiveQuery
