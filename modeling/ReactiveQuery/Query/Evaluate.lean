import ReactiveQuery.Sort
import ReactiveQuery.World

/-! Evaluation of compiled queries.  Extension functions may change the world, so evaluation goes
from left to right and holds on to the values that it still needs. -/

namespace ReactiveQuery

/-- What an expression can see besides the record at hand. -/
structure Context where
  source : Ref
  params : List Value

def Context.param (ctx : Context) (i : Nat) : Value := (ctx.params[i]?).getD .null

/-- How extension functions are called. -/
abbrev Caller := Extension → Context → List Value → Act Value

/-- Where a walk continues: at the first item when it stands on a collection, and nowhere from an
empty collection or null. -/
def Heap.drill (h : Heap) : Value → Option Value
  | .collection r =>
    match h.items r with
    | [] | .null :: _ => none
    | v :: _ => some v
  | .null => none
  | v => some v

section
variable (call : Caller) (ctx : Context) (record : Value)

mutual
def Code.evaluate : Code → Act Value
  | .literal v => pure v
  | .unary op a => do
    let v ← a.evaluate
    Act.ask (op.apply · v)
  | .binary .and a b => do
    let l ← a.evaluate
    if l.truthy then Act.holding [l] b.evaluate else return l
  | .binary .or a b => do
    let l ← a.evaluate
    if l.truthy then return l else Act.holding [l] b.evaluate
  | .binary op a b => do
    let l ← a.evaluate
    let r ← Act.holding [l] b.evaluate
    Act.compile fun scope => op.compute scope.heap l r
  | .ternary a b c => do
    if (← a.evaluate).truthy then b.evaluate else c.evaluate
  | .path root steps =>
    let start := match root with
      | .here => record
      | .arg i => ctx.param i
    Step.walk start steps
  | .object members => do Act.freshObject (← Code.evaluateMembers [] members)
  | .array items => do Act.freshArray (← Code.evaluateAll [] items)
  | .call function args => do
    let values ← Code.evaluateAll [] args
    Act.holding values (call function ctx values)

/-- Evaluates expressions one after the other, after those that are done. -/
def Code.evaluateAll (done : List Value) : List Code → Act (List Value)
  | [] => pure done
  | c :: cs => do
    let v ← Act.holding done c.evaluate
    Code.evaluateAll (done ++ [v]) cs

def Code.evaluateMembers (done : FieldMap Value) :
    List (String × Code) → Act (FieldMap Value)
  | [] => pure done
  | (k, c) :: cs => do
    let v ← Act.holding done.values c.evaluate
    Code.evaluateMembers (FieldMap.insert k v done) cs

/-- Walks along a path.  Computed keys are evaluated on the record at hand, when the walk reaches
them. -/
def Step.walk (current : Value) : List Step → Act Value
  | [] => pure current
  | .key k :: steps => do
    match (← get).heap.drill current with
    | none => return .null
    | some v =>
      let next ← Act.ask (·.read v k)
      Step.walk next steps
  | .computed c :: steps => do
    match (← get).heap.drill current with
    | none => return .null
    | some v =>
      let k ← Act.holding [v] c.evaluate
      let next ← Act.ask (·.read v k)
      Step.walk next steps
end

end

/-- Lexicographic order of rows of sort keys. -/
def compareRows (h : Heap) : List Bool → List Value → List Value → Option Ordering
  | ascending :: flags, a :: as, b :: bs => do
    match ← h.compareKeys ascending a b with
    | .eq => compareRows h flags as bs
    | order => return order
  | _, _, _ => some .eq

namespace Definition

variable (call : Caller) (ctx : Context)

def accepts (d : Definition) (item : Value) : Act Bool := do
  return (← d.filter.evaluate call ctx item).truthy

def project (d : Definition) (item : Value) : Act Value :=
  match d.select with
  | some select => select.evaluate call ctx item
  | none => pure item

/-- The items that the filter keeps. -/
def filterItems (d : Definition) : List Value → Act (List Value)
  | [] => pure []
  | item :: items => do
    if ← d.accepts call ctx item then return item :: (← filterItems d items)
    else filterItems d items

/-- Projects items one after the other, after the rows that are done. -/
def projectItems (d : Definition) (done : List Value) : List Value → Act (List Value)
  | [] => pure done
  | item :: items => do
    let row ← Act.holding done (d.project call ctx item)
    projectItems d (done ++ [row]) items

/-- Filters and projects item by item. -/
def filterProject (d : Definition) (done : List Value) : List Value → Act (List Value)
  | [] => pure done
  | item :: items => do
    let kept ← Act.holding done (d.accepts call ctx item)
    if kept then
      let row ← Act.holding done (d.project call ctx item)
      filterProject d (done ++ [row]) items
    else filterProject d done items

end Definition

namespace SortKey

variable (call : Caller) (ctx : Context)

/-- The keys of one item, after those that are done. -/
def extract (item : Value) (done : List Value) : List SortKey → Act (List Value)
  | [] => pure done
  | key :: keys => do
    let path := Code.path key.root key.steps
    let v ← Act.holding done (path.evaluate call ctx item)
    extract item (done ++ [v]) keys

/-- The keys of every item, in order. -/
def extractAll (keys : List SortKey) (done : List (List Value × Value)) :
    List Value → Act (List (List Value × Value))
  | [] => pure done
  | item :: items => do
    let row ← Act.holding (done.flatMap (·.1)) (extract call ctx item [] keys)
    extractAll keys (done ++ [(row, item)]) items

/-- Sorts items by keys that are read once for each; a single item is not looked at. -/
def sort (keys : List SortKey) (items : List Value) : Act (List Value) := do
  if items.length < 2 then return items
  let rows ← Act.holding items (extractAll call ctx keys [] items)
  let flags := keys.map (·.ascending)
  let sorted ← Act.ask fun h => mergeSortBy (fun a b => compareRows h flags a.1 b.1) rows
  return sorted.map (·.2)

end SortKey

/-- The rows of a query over items: filtered, projected and sorted, where sorting comes before
projection when the query asks for it and has both. -/
def Definition.execute (call : Caller) (ctx : Context) (d : Definition) (items : List Value) :
    Act (List Value) := do
  match d.sort, d.select, d.sortFirst with
  | some keys, some _, true =>
    let kept ← d.filterItems call ctx items
    let sorted ← SortKey.sort call ctx keys kept
    d.projectItems call ctx [] sorted
  | some keys, _, _ =>
    let rows ← d.filterProject call ctx [] items
    SortKey.sort call ctx keys rows
  | none, _, _ => d.filterProject call ctx [] items

end ReactiveQuery
