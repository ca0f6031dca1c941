import ReactiveQuery.Double.Arithmetic
import ReactiveQuery.Text.Numeral
import ReactiveQuery.Value.Basic

/-! Primitives: values without containers, with the operators that convert their operands. -/

namespace ReactiveQuery

inductive Primitive where
  | null
  | bool (b : Bool)
  | number (x : Double)
  | text (s : String)
  deriving DecidableEq

namespace Primitive

def toValue : Primitive → Value
  | .null => .null
  | .bool b => .bool b
  | .number x => .number x
  | .text s => .text s

/-- Null and false count as zero, true as one, a text as the number it denotes. -/
def toNumber : Primitive → Double
  | .null => .zero
  | .bool b => if b then .one else .zero
  | .number x => x
  | .text s => Numeral.read s

def toText : Primitive → String
  | .null => "null"
  | .bool b => if b then "true" else "false"
  | .number x => Numeral.write x
  | .text s => s

/-- Equality under conversion: null equals only itself, two texts are compared as texts and all
else as numbers. -/
def looseEq : Primitive → Primitive → Bool
  | .null, .null => true
  | .null, _ | _, .null => false
  | .text s, .text t => s == t
  | a, b => a.toNumber.equals b.toNumber

/-- Two texts are ordered by their characters, all else by number; NaN is not ordered. -/
def compare? : Primitive → Primitive → Option Ordering
  | .text s, .text t => some (compare s t)
  | a, b => a.toNumber.compare? b.toNumber

/-- A text on either side joins texts; otherwise numbers are added. -/
def add : Primitive → Primitive → Primitive
  | .text s, b => .text (s ++ b.toText)
  | a, .text t => .text (a.toText ++ t)
  | a, b => .number (a.toNumber.add b.toNumber)

end Primitive

end ReactiveQuery
