import ReactiveQuery.Double.Basic

/-! Decimals: the double nearest to a decimal, and the decimal with the fewest digits that reads
back as a given double. -/

namespace ReactiveQuery

/-- The positive or zero decimal `coefficient * 10 ^ exponent`. -/
structure Decimal where
  coefficient : Nat
  exponent : Int
  deriving DecidableEq

namespace Decimal

/-- The digits of a coefficient without the zeros at its end. -/
def digits (d : Decimal) : List Char :=
  ((Nat.toDigits 10 d.coefficient).reverse.dropWhile (· == '0')).reverse

/-- Where the decimal point stands, counted from before the first digit. -/
def point (d : Decimal) : Int :=
  d.exponent + (Nat.toDigits 10 d.coefficient).length

/-- Numerator and denominator of a decimal. -/
def ratio (d : Decimal) : Nat × Nat :=
  match d.exponent with
  | .ofNat e => (d.coefficient * Nat.pow 10 e, 1)
  | .negSucc e => (d.coefficient, Nat.pow 10 (e + 1))

/-- A power of ten that a positive decimal reaches: `10 ^ 3 ≤ 2 ^ 10`. -/
def lowerPower (d : Decimal) : Int := d.exponent + 3 * d.coefficient.log2 / 10

/-- A power of ten that a positive decimal stays below: `2 ^ 3 ≤ 10`. -/
def upperPower (d : Decimal) : Int := d.exponent + d.coefficient.log2 / 3 + 1

/-- The magnitude nearest to a decimal.  What stays below `10 ^ -330` rounds to zero and what
reaches `10 ^ 310` to infinity, whatever its digits. -/
def nearest (d : Decimal) : Magnitude :=
  if d.coefficient = 0 then .zero
  else if d.upperPower < -330 then .zero
  else if 310 ≤ d.lowerPower then .infinity
  else
    let (p, q) := d.ratio
    .nearest (p * Magnitude.unitsPerOne) q

end Decimal

namespace Magnitude

/-- The exponent `k` with `10 ^ (k - 1) ≤ m < 10 ^ k`, for finite positive `m`. -/
def decimalPoint (m : Magnitude) : Int :=
  if 0 < m.floor then (Nat.toDigits 10 m.floor).length
  else (Nat.toDigits 10 (m.units * Nat.pow 10 400 / unitsPerOne)).length - 400

/-- Does a decimal read back as `m`?  It does when it lies between the midpoints to the
neighbouring words, the midpoints included when the word is even. -/
def readsBack (m : Magnitude) (d : Decimal) : Bool :=
  let (p, q) := d.ratio
  let here := 2 * p * unitsPerOne
  let below := (unitsOfWord (m.word - 1) + m.units) * q
  let above := (m.units + unitsOfWord (m.word + 1)) * q
  if m.word % 2 == 0 then below ≤ here && here ≤ above else below < here && here < above

/-- The two neighbours of `m` on the grid of multiples of `10 ^ grid`. -/
def neighbours (m : Magnitude) (grid : Int) : Decimal × Decimal :=
  let (p, q) := match grid with
    | .ofNat e => (m.units, unitsPerOne * Nat.pow 10 e)
    | .negSucc e => (m.units * Nat.pow 10 (e + 1), unitsPerOne)
  (⟨p / q, grid⟩, ⟨p / q + 1, grid⟩)

/-- Is `m` nearer to the lower of its two neighbours on a grid? -/
def nearerBelow (m : Magnitude) (below above : Decimal) : Bool :=
  let (p, q) := below.ratio
  let (r, _) := above.ratio
  2 * m.units * q < (p + r) * unitsPerOne

/-- The neighbour on the grid that reads back, the nearer one when both do. -/
def onGrid? (m : Magnitude) (grid : Int) : Option Decimal :=
  let (below, above) := m.neighbours grid
  match m.readsBack below, m.readsBack above with
  | true, true => some (if m.nearerBelow below above then below else above)
  | true, false => some below
  | false, true => some above
  | false, false => none

/-- The decimal with the fewest digits that reads back as the finite positive `m`, the nearest of
those; seventeen digits always suffice. -/
def shortest (m : Magnitude) : Decimal :=
  let grids := (List.range 17).map fun (n : Nat) => m.decimalPoint - (n + 1)
  (grids.findSome? m.onGrid?).getD (m.neighbours (m.decimalPoint - 17)).1

end Magnitude

end ReactiveQuery
