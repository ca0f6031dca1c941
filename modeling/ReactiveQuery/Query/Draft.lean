import ReactiveQuery.Query.Node
import ReactiveQuery.Value.Term

/-! Written queries.  A draft builds nodes depth first and from left to right, and records every
path once its components are built. -/

namespace ReactiveQuery

mutual
inductive Draft where
  | literal (t : Term)
  | path (root : Root) (components : List DraftComponent)
  | object (members : List (String × Draft))
  | call (name : String) (args : List Draft)
  /-- A node wrapped so many times in an operator; binary operators take `1` on the right. -/
  | chain (tag : String) (count : Nat) (inner : Draft)
  | tagged (tag : String) (operands : List Draft)

inductive DraftComponent where
  | key (t : Term)
  | computed (d : Draft)
end

instance : Inhabited Draft := ⟨.literal .null⟩

/-- What building has made so far: containers, and the recorded paths, the last one first. -/
structure Building where
  heap : Heap
  paths : List Path := []

abbrev Build := ExceptT Error (StateM Building)

namespace Build

def read (names : FieldMap Value) (t : Term) : Build Value :=
  modifyGet fun b => let (v, heap) := (t.read names).run b.heap; (v, { b with heap })

def record (p : Path) : Build Unit := modify fun b => { b with paths := p :: b.paths }

/-- Wraps a node in an operator again and again. -/
def wrap (tag : String) : Nat → Node → Except Error Node
  | 0, n => .ok n
  | count + 1, n => do
    let operands :=
      if tag == "not" || tag == "neg" || tag == "arr" then [n] else [n, .literal (.number .one)]
    wrap tag count (← Node.ofTag tag operands)

end Build

namespace Draft

variable (names : FieldMap Value)

mutual
def build : Draft → Build Node
  | .literal t => do return .literal (← Build.read names t)
  | .path root components => do
    let components ← buildComponents components
    Build.record ⟨root, components⟩
    return .path root components
  | .object members => do return .object (← buildMembers members)
  | .call name args => do return .call name (← buildAll args)
  | .chain tag count inner => do
    let n ← build inner
    liftExcept (Build.wrap tag count n)
  | .tagged tag operands => do
    let operands ← buildAll operands
    liftExcept (Node.ofTag tag operands)
where
  liftExcept : Except Error Node → Build Node := fun r => ExceptT.mk (pure r)

def buildAll : List Draft → Build (List Node)
  | [] => pure []
  | d :: ds => do return (← build d) :: (← buildAll ds)

def buildMembers : List (String × Draft) → Build (List (String × Node))
  | [] => pure []
  | (k, d) :: ds => do return (k, ← build d) :: (← buildMembers ds)

def buildComponents : List DraftComponent → Build (List Component)
  | [] => pure []
  | .key t :: cs => do return .key (← Build.read names t) :: (← buildComponents cs)
  | .computed d :: cs => do return .computed (← build d) :: (← buildComponents cs)
end

end Draft

structure OrderDraft where
  root : Root
  components : List DraftComponent
  ascending : Bool

structure QueryDraft where
  filter : Option Draft := none
  select : Option Draft := none
  order : List OrderDraft := []
  sortFirst : Bool := false
  /-- Reading the query fails with this error. -/
  failure : Option Error := none

namespace QueryDraft

variable (names : FieldMap Value)

def buildOrder (o : OrderDraft) : Build OrderKey := do
  let path : Path := ⟨o.root, ← Draft.buildComponents names o.components⟩
  Build.record path
  return ⟨path, o.ascending⟩

/-- The filter, the projection and the order, built in this sequence. -/
def build (q : QueryDraft) : Build Query := do
  if let some error := q.failure then throw error
  let filter ← match q.filter with
    | some d => d.build names
    | none => pure (.literal (.bool true))
  let select ← q.select.mapM (Draft.build names)
  let order ← q.order.mapM (buildOrder names)
  return { filter, select, order, sortFirst := q.sortFirst }

end QueryDraft

end ReactiveQuery
