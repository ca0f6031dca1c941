import ReactiveQuery.Double.Basic
import ReactiveQuery.FieldMap

/-! The values that queries read, compute and return. -/

namespace ReactiveQuery

/-- A handle on an observable value: where it lives, and the identity it shows. -/
structure Ref where
  loc : Nat
  id : Nat
  deriving DecidableEq

/-- Arrays and objects are immutable and carry the tag of the container they are; records and
collections live in a heap. -/
inductive Value where
  | null
  | bool (b : Bool)
  | number (x : Double)
  | text (s : String)
  | array (tag : Nat) (items : List Value)
  | object (tag : Nat) (fields : List (String × Value))
  | record (ref : Ref)
  | collection (ref : Ref)

instance : Inhabited Value := ⟨.null⟩

inductive Kind where
  | null | bool | number | text | array | object | record | collection
  deriving DecidableEq

namespace Kind

def name : Kind → String
  | .null => "null"
  | .bool => "boolean"
  | .number => "number"
  | .text => "string"
  | .array => "array"
  | .object => "object"
  | .record => "record"
  | .collection => "collection"

def isContainer : Kind → Bool
  | .array | .object | .record | .collection => true
  | _ => false

def isObservable : Kind → Bool
  | .record | .collection => true
  | _ => false

end Kind

namespace Value

def kind : Value → Kind
  | .null => .null
  | .bool _ => .bool
  | .number _ => .number
  | .text _ => .text
  | .array .. => .array
  | .object .. => .object
  | .record _ => .record
  | .collection _ => .collection

def isContainer (v : Value) : Bool := v.kind.isContainer

def isNull : Value → Bool
  | .null => true
  | _ => false

/-- The identity of an observable value. -/
def id? : Value → Option Nat
  | .record r | .collection r => some r.id
  | _ => none

def ofNat (n : Nat) : Value := .number (.ofNat n)

/-- Null, false, zeros, NaN and the empty text are falsy; every container is truthy. -/
def truthy : Value → Bool
  | .null => false
  | .bool b => b
  | .number x => x.isTruthy
  | .text s => !s.isEmpty
  | .array .. | .object .. | .record _ | .collection _ => true

/-- Are two containers the same one?  Records and collections are told apart by identity. -/
def sameContainer : Value → Value → Bool
  | .array s _, .array t _ => s == t
  | .object s _, .object t _ => s == t
  | .record r, .record s => r.id == s.id
  | .collection r, .collection s => r.id == s.id
  | _, _ => false

/-- Equality of one kind and one value; containers are equal when they are the same one. -/
def strictEq : Value → Value → Bool
  | .null, .null => true
  | .bool a, .bool b => a == b
  | .number x, .number y => x.equals y
  | .text s, .text t => s == t
  | a, b => sameContainer a b

theorem sameContainer_symm (a b : Value) : sameContainer a b = sameContainer b a := by
  cases a <;> cases b <;> simp [sameContainer, Bool.beq_comm]

theorem strictEq_symm (a b : Value) : strictEq a b = strictEq b a := by
  cases a <;> cases b <;> simp [strictEq, sameContainer, Bool.beq_comm, Double.equals_symm]

mutual
/-- Equality by content: NaN equals NaN, and records and collections are told apart by identity. -/
def same : Value → Value → Bool
  | .null, .null => true
  | .bool a, .bool b => a == b
  | .number x, .number y => (x.isNaN && y.isNaN) || x.equals y
  | .text s, .text t => s == t
  | .array _ xs, .array _ ys => sameItems xs ys
  | .object _ xs, .object _ ys => sameFields xs ys
  | .record r, .record s => r.id == s.id
  | .collection r, .collection s => r.id == s.id
  | _, _ => false

def sameItems : List Value → List Value → Bool
  | [], [] => true
  | x :: xs, y :: ys => same x y && sameItems xs ys
  | _, _ => false

def sameFields : List (String × Value) → List (String × Value) → Bool
  | [], [] => true
  | (k, x) :: xs, (l, y) :: ys => k == l && same x y && sameFields xs ys
  | _, _ => false
end

mutual
/-- The places of the observable values that a value holds. -/
def places : Value → List Nat
  | .record r | .collection r => [r.loc]
  | .array _ items => placesOfItems items
  | .object _ fields => placesOfFields fields
  | _ => []

def placesOfItems : List Value → List Nat
  | [] => []
  | v :: vs => places v ++ placesOfItems vs

def placesOfFields : List (String × Value) → List Nat
  | [] => []
  | (_, v) :: vs => places v ++ placesOfFields vs
end

end Value

end ReactiveQuery
