import ReactiveQuery.Engine.Publish
import ReactiveQuery.Sort

/-! Records and collections that report what changes. -/

namespace ReactiveQuery

namespace Act

/-- Puts a record under the numbers of the engine. -/
def newRecord (fields : FieldMap Value) : Act Ref := do
  let id ← nextId
  onHeap (·.allocate id (.record { id, fields, sink := .bus }))

def newCollection (items : List Value) : Act Ref := do
  let id ← nextId
  onHeap (·.allocate id (.collection { id, items, sink := .bus }))

end Act

section
variable (dispatch : Act Unit)

/-- Writes a declared field.  Writing a value strictly equal to the present one does nothing. -/
def Ref.setField (r : Ref) (key : String) (value : Value) : Act Unit := do
  let some cell := (← get).heap.record? r | return
  match FieldMap.get? key cell.fields with
  | none => Act.raise (.unknownField key)
  | some old =>
    if old.strictEq value then return
    Act.changeHeap (·.setField r key value)
    Act.report dispatch cell.sink [⟨r.id, .field key, value, old⟩]

/-- What a change of items tells: the content, and the length if that changed. -/
def changeEvents (id old new : Nat) : List Event :=
  let content := Event.mk id .content (.ofNat new) .null
  if new = old then [content] else [content, ⟨id, .length, .ofNat new, .ofNat old⟩]

end

/-- A change of items: the new items, and those that it takes out or replaces. -/
abbrev ItemChange := List Value → Except Error (List Value × List Value)

namespace ItemChange

def push (v : Value) : ItemChange := fun items => .ok (items ++ [v], [])

def unshift (v : Value) : ItemChange := fun items => .ok (v :: items, [])

def insert (index : Nat) (v : Value) : ItemChange := fun items =>
  if items.length < index then .error (.invalidOperation "insert index out of bounds")
  else .ok (items.insertIdx index v, [])

def pop : ItemChange := fun items => .ok (items.dropLast, items.getLast?.toList)

def shift : ItemChange := fun items => .ok (items.tail, items.head?.toList)

def remove (index : Nat) : ItemChange := fun items =>
  if index < items.length then .ok (items.eraseIdx index, items[index]?.toList)
  else .error (.invalidOperation "remove index out of bounds")

def reverse : ItemChange := fun items => .ok (items.reverse, [])

/-- Past the end, nulls fill the items up. -/
def setItem (index : Nat) (v : Value) : ItemChange := fun items =>
  if index < items.length then .ok (items.set index v, items[index]?.toList)
  else .ok (items ++ List.replicate (index - items.length) .null ++ [v], [])

def replaceAll (new : List Value) : ItemChange := fun items => .ok (new, items)

end ItemChange

namespace Ref

variable (dispatch : Act Unit)

/-- Changes the items of a collection and reports it; gives back what was taken out. -/
def change (r : Ref) (f : ItemChange) : Act (List Value) := do
  let some cell := (← get).heap.collection? r | return []
  let (items, out) ← Act.ofExcept (f cell.items)
  Act.changeHeap (·.setItems r items)
  Act.holding out
    (Act.report dispatch cell.sink (changeEvents r.id cell.items.length items.length))
  return out

/-- Sorts the items by their order under conversion; values without order count as equal. -/
def sortItems (r : Ref) (ascending : Bool) : Act Unit := do
  let sorted ← Act.ask fun h =>
    mergeSortBy (fun a b => do
      let order := (← h.looseCompare a b).getD .eq
      return if ascending then order else order.swap) (h.items r)
  let _ ← r.change dispatch (.replaceAll sorted)

/-- Writes a field on every member record that declares it. -/
def setAttr (key : String) (value : Value) : List Value → Act Unit
  | [] => pure ()
  | item :: rest => do
    if let .record r := item then
      if FieldMap.contains key ((← get).heap.fields r) then
        Act.holding (value :: item :: rest) (r.setField dispatch key value)
    setAttr key value rest

end Ref

namespace Heap

variable (h : Heap)

/-- A field of the first item, when that is a record or an object. -/
def attr (r : Ref) (key : String) : Value :=
  match (h.items r).head? with
  | some (.record m) => (FieldMap.get? key (h.fields m)).getD .null
  | some (.object _ fields) => (FieldMap.get? key fields).getD .null
  | _ => .null

/-- Is a value of this identity among the items? -/
def hasMember (r : Ref) (id : Nat) : Bool := (h.items r).any (·.id? == some id)

end Heap

/-- Gives a collection something to keep; what it kept before is let go. -/
def Ref.retain (r : Ref) (retained : Retained) : Act Unit := modify fun w =>
  let previous := ((w.heap.collection? r).map (·.retained.subscriptions)).getD []
  { w with heap := w.heap.setRetained r retained }.unsubscribeAll previous

end ReactiveQuery
