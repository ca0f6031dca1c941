import ReactiveQuery.Double.Basic

/-! Arithmetic on binary64 numbers: the exact result of each operation, rounded once. -/

namespace ReactiveQuery.Double

open Magnitude (unitsPerOne)

def neg : Double → Double
  | .nan => .nan
  | .signed s m => .signed (!s) m

/-- Sum of finite magnitudes with signs; equal magnitudes of opposite sign cancel to `+0`. -/
def addFinite (s : Bool) (a : Magnitude) (t : Bool) (b : Magnitude) : Double :=
  if s = t then .signed s (.nearest (a.units + b.units) 1)
  else match compare a.units b.units with
    | .gt => .signed s (.nearest (a.units - b.units) 1)
    | .lt => .signed t (.nearest (b.units - a.units) 1)
    | .eq => zero

/-- Infinities of opposite sign have no sum. -/
def add : Double → Double → Double
  | .signed s a, .signed t b =>
    match a.isInfinite, b.isInfinite with
    | true, true => if s = t then .signed s a else .nan
    | true, false => .signed s a
    | false, true => .signed t b
    | false, false => addFinite s a t b
  | _, _ => .nan

def sub (x y : Double) : Double := add x (neg y)

/-- Infinity times zero is NaN. -/
def mul : Double → Double → Double
  | .signed s a, .signed t b =>
    if a.isInfinite || b.isInfinite then
      if a.isZero || b.isZero then .nan else infinity (s != t)
    else .signed (s != t) (.nearest (a.units * b.units) unitsPerOne)
  | _, _ => .nan

/-- `0 / 0` and infinity by infinity are NaN; any other number divided by zero is infinite. -/
def div : Double → Double → Double
  | .signed s a, .signed t b =>
    match a.isInfinite, b.isInfinite with
    | true, true => .nan
    | true, false => infinity (s != t)
    | false, true => .signed (s != t) .zero
    | false, false =>
      if b.isZero then if a.isZero then .nan else infinity (s != t)
      else .signed (s != t) (.nearest (a.units * unitsPerOne) b.units)
  | _, _ => .nan

/-- Remainder with the sign of the dividend. -/
def rem : Double → Double → Double
  | .signed s a, .signed _ b =>
    if a.isInfinite || b.isZero then .nan
    else if b.isInfinite then .signed s a
    else .signed s (.nearest (a.units % b.units) 1)
  | _, _ => .nan

@[simp] theorem neg_neg (x : Double) : neg (neg x) = x := by
  cases x <;> simp [neg]

end ReactiveQuery.Double
