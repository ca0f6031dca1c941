import ReactiveQuery.Value.Coerce

/-! Reading inside values by key. -/

namespace ReactiveQuery

/-- The position in a list that a key names. -/
def Value.index? : Value → Option Nat
  | .number x => x.toIndex?
  | .text s => Numeral.index? s
  | _ => none

namespace Heap

variable (h : Heap)

/-- An item by position, or the number of items under the key `length`. -/
def itemAt (items : List Value) (key : Value) : Value :=
  match key.index?, key with
  | some i, _ => (items[i]?).getD .null
  | none, .text "length" => .ofNat items.length
  | none, _ => .null

/-- What a key finds in a value.  Records and objects are read by name, all else by position or
`length`; texts count characters.  What is not there is null. -/
def read (v key : Value) : Option Value :=
  match v with
  | .record r => do return (FieldMap.get? (← h.text key) (h.fields r)).getD .null
  | .object _ fields => do return (FieldMap.get? (← h.text key) fields).getD .null
  | .array _ items => some (itemAt items key)
  | .collection r => some (itemAt (h.items r) key)
  | .text s => some (itemAt (s.toList.map fun c => .text c.toString) key)
  | _ => some .null

/-- Does a key name a field of a record or object? -/
def hasKey (v key : Value) : Option Bool :=
  match v with
  | .record r => do return FieldMap.contains (← h.text key) (h.fields r)
  | .object _ fields => do return FieldMap.contains (← h.text key) fields
  | _ => some false

/-- Membership: an item strictly equal to the sought one, or a field of that name. -/
def contains (container sought : Value) : Option Bool :=
  match container with
  | .array _ items => some (items.any (·.strictEq sought))
  | .collection r => some ((h.items r).any (·.strictEq sought))
  | .object .. | .record _ => h.hasKey container sought
  | _ => some false

end Heap

end ReactiveQuery
