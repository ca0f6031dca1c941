import ReactiveQuery.Heap
import ReactiveQuery.Value.Primitive

/-! Conversion of values that may be containers.  A collection reads as the texts of its items, so
conversion follows items through the heap; `none` says that it never ends, because a collection
holds itself. -/

namespace ReactiveQuery

namespace Value

mutual
/-- The text of a value, given the texts of collections. -/
def textWith (inside : Ref → Option String) : Value → Option String
  | .null => some "null"
  | .bool b => some (Primitive.bool b).toText
  | .number x => some (Numeral.write x)
  | .text s => some s
  | .array _ items => (partsWith inside items).map (String.intercalate ",")
  | .object .. | .record _ => some "[object Object]"
  | .collection r => inside r

/-- The texts of items one by one; null gives no text. -/
def partsWith (inside : Ref → Option String) : List Value → Option (List String)
  | [] => some []
  | v :: vs => do
    let first ← match v with
      | .null => some ""
      | v => textWith inside v
    let rest ← partsWith inside vs
    return first :: rest
end

end Value

namespace Heap

variable (h : Heap)

/-- The text of a collection, when no more than `depth` collections hold one another on the way. -/
def textWithin : Nat → Ref → Option String
  | 0, _ => none
  | depth + 1, r => (Value.partsWith (textWithin depth) (h.items r)).map (String.intercalate ",")

/-- The text of a value.  Collections that hold one another without end are at most as many as the
heap has cells. -/
def text (v : Value) : Option String := v.textWith (h.textWithin h.cells.size)

/-- Containers become their texts. -/
def primitive (v : Value) : Option Primitive :=
  match v with
  | .null => some .null
  | .bool b => some (.bool b)
  | .number x => some (.number x)
  | .text s => some (.text s)
  | v => (h.text v).map .text

def number (v : Value) : Option Double := (h.primitive v).map Primitive.toNumber

/-- Equality under conversion (`==`): two containers are equal when they are the same one. -/
def looseEq (a b : Value) : Option Bool :=
  if a.isNull || b.isNull then some (a.isNull && b.isNull)
  else if a.isContainer && b.isContainer then some (a.sameContainer b)
  else do return (← h.primitive a).looseEq (← h.primitive b)

/-- Order under conversion; the inner `none` stands for values without order. -/
def looseCompare (a b : Value) : Option (Option Ordering) := do
  return (← h.primitive a).compare? (← h.primitive b)

def greater (a b : Value) : Option Bool := do return (← h.looseCompare a b) == some .gt

def less (a b : Value) : Option Bool := do return (← h.looseCompare a b) == some .lt

def atLeast (a b : Value) : Option Bool := do
  let order ← h.looseCompare a b
  return order == some .gt || order == some .eq

def atMost (a b : Value) : Option Bool := do
  let order ← h.looseCompare a b
  return order == some .lt || order == some .eq

def add (a b : Value) : Option Value := do
  return ((← h.primitive a).add (← h.primitive b)).toValue

/-- An operation on the numbers of two values. -/
def arith (op : Double → Double → Double) (a b : Value) : Option Value := do
  return .number (op (← h.number a) (← h.number b))

def neg (a : Value) : Option Value := do return .number (← h.number a).neg

/-- Order of sort keys.  Keys without order count as less in both directions. -/
def compareKeys (ascending : Bool) (a b : Value) : Option Ordering := do
  if ← h.looseEq a b then return .eq
  let isGreater ← if ascending then h.greater a b else h.less a b
  return if isGreater then .gt else .lt

end Heap

end ReactiveQuery
