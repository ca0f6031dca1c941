import ReactiveQuery.Heap

/-! Written values.  Reading one makes its containers afresh. -/

namespace ReactiveQuery

inductive Term where
  | null
  | bool (b : Bool)
  | number (x : Double)
  | text (s : String)
  /-- So many copies of a text in a row. -/
  | copies (s : String) (count : Nat)
  | array (items : List Term)
  | object (pairs : List (String × Term))
  /-- The value that a name is bound to. -/
  | named (name : String)
  /-- A record that reports to nobody. -/
  | record (id : Nat) (fields : List (String × Term))
  /-- A collection that reports to nobody. -/
  | collection (id : Nat) (items : List Term)

instance : Inhabited Term := ⟨.null⟩

namespace Term

variable (names : FieldMap Value)

mutual
def read : Term → StateM Heap Value
  | .null => pure .null
  | .bool b => pure (.bool b)
  | .number x => pure (.number x)
  | .text s => pure (.text s)
  | .copies s count => pure (.text (String.join (List.replicate count s)))
  | .array items => do
    let items ← readAll items
    return .array (← modifyGet Heap.freshTag) items
  | .object pairs => do
    let pairs ← readPairs pairs
    return .object (← modifyGet Heap.freshTag) (FieldMap.ofPairs pairs)
  | .named name => pure ((FieldMap.get? name names).getD .null)
  | .record id fields => do
    let pairs ← readPairs fields
    let cell := Cell.record { id, fields := FieldMap.ofPairs pairs, sink := .silent }
    return .record (← modifyGet (·.allocate id cell))
  | .collection id items => do
    let items ← readAll items
    return .collection (← modifyGet (·.allocate id (.collection { id, items, sink := .silent })))

def readAll : List Term → StateM Heap (List Value)
  | [] => pure []
  | t :: ts => do return (← read t) :: (← readAll ts)

def readPairs : List (String × Term) → StateM Heap (List (String × Value))
  | [] => pure []
  | (k, t) :: ts => do return (k, ← read t) :: (← readPairs ts)
end

end Term

end ReactiveQuery
