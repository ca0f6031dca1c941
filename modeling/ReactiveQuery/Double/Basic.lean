/-! Binary64 numbers named by their magnitude words: words are ordered as the magnitudes they name,
and every finite magnitude is a whole number of units `2 ^ -1074`. -/

namespace ReactiveQuery

namespace Magnitude

/-- The word of infinity; every smaller word is finite. -/
def topWord : Nat := 0x7FF0000000000000

/-- How many words follow one another with one spacing: `2 ^ 52`. -/
def stride : Nat := 0x10000000000000

/-- How many units make one: `2 ^ 1074`. -/
def unitsPerOne : Nat := 1 <<< 1074

end Magnitude

/-- A magnitude, named by the bits of a binary64 word below the sign. -/
structure Magnitude where
  word : Nat
  le_top : word ≤ Magnitude.topWord
  deriving DecidableEq

namespace Magnitude

def zero : Magnitude := ⟨0, Nat.zero_le _⟩

def infinity : Magnitude := ⟨topWord, Nat.le_refl _⟩

def isInfinite (m : Magnitude) : Bool := m.word == topWord

def isZero (m : Magnitude) : Bool := m.word == 0

/-- The words above infinity name nothing, so infinity stands for them. -/
def clamp (word : Nat) : Magnitude := ⟨min word topWord, Nat.min_le_right _ _⟩

/-- Units named by a word: words below the stride count units, and the spacing doubles with every
further stride from the second one on. -/
def unitsOfWord (word : Nat) : Nat :=
  if word < stride then word else (stride + word % stride) <<< (word / stride - 1)

/-- The size of a finite magnitude in units. -/
def units (m : Magnitude) : Nat := unitsOfWord m.word

/-- The magnitude nearest to `p / q` units, a tie going to the even word.  Words are consecutive
across a change of spacing, so rounding up is adding one, also from the last finite word. -/
def nearest (p q : Nat) : Magnitude :=
  let shift := (p / q).log2 - 52
  let step := q <<< shift
  let floor := p / step
  let rest := 2 * (p % step)
  let up := step < rest || (step == rest && floor % 2 == 1)
  clamp (shift * stride + floor + up.toNat)

def ofNat (n : Nat) : Magnitude := nearest (n * unitsPerOne) 1

/-- Whole part of a finite magnitude. -/
def floor (m : Magnitude) : Nat := m.units / unitsPerOne

def isWhole (m : Magnitude) : Bool := !m.isInfinite && m.units % unitsPerOne == 0

end Magnitude

/-- Whole numbers of 64 bits stay below this. -/
def bound64 : Nat := 0x10000000000000000

/-- A binary64 number; all NaNs are one value. -/
inductive Double where
  | nan
  | signed (negative : Bool) (magnitude : Magnitude)
  deriving DecidableEq

namespace Double

instance : Inhabited Double := ⟨.nan⟩

def zero : Double := .signed false .zero

def one : Double := .signed false (.ofNat 1)

def infinity (negative : Bool) : Double := .signed negative .infinity

def isNaN : Double → Bool
  | .nan => true
  | .signed .. => false

def ofNat (n : Nat) : Double := .signed false (.ofNat n)

def ofInt (n : Int) : Double := .signed (n < 0) (.ofNat n.natAbs)

/-- Position on the number line in words; both zeros stand at `0`. -/
def rank : Double → Option Int
  | .nan => none
  | .signed negative m => some (if negative then -(m.word : Int) else m.word)

/-- Numeric comparison; NaN compares with nothing. -/
def compare? (x y : Double) : Option Ordering :=
  match x.rank, y.rank with
  | some i, some j => some (compare i j)
  | _, _ => none

/-- Numeric equality: NaN differs from itself and the two zeros are equal. -/
def equals (x y : Double) : Bool :=
  match x.rank, y.rank with
  | some i, some j => i == j
  | _, _ => false

/-- Neither NaN nor a zero. -/
def isTruthy : Double → Bool
  | .nan => false
  | .signed _ m => !m.isZero

/-- The whole number that a whole, finite double stands for. -/
def toInt? : Double → Option Int
  | .nan => none
  | .signed negative m =>
    if m.isWhole then some (if negative then -(m.floor : Int) else m.floor) else none

/-- The position that a number names in a list: whole, not negative and below `2 ^ 64`. -/
def toIndex? (x : Double) : Option Nat :=
  match x.toInt? with
  | some (.ofNat n) => if n < bound64 then some n else none
  | _ => none

/-- The sign as a bit above the word. -/
def signBit : Nat := 0x8000000000000000

/-- The 64 bits of the interchange format; a word above infinity is NaN. -/
def ofBits (bits : Nat) : Double :=
  let word := bits % signBit
  if h : word ≤ Magnitude.topWord then .signed (bits / signBit % 2 == 1) ⟨word, h⟩ else .nan

def toBits? : Double → Option Nat
  | .nan => none
  | .signed negative m => some (negative.toNat * signBit + m.word)

theorem equals_symm (x y : Double) : x.equals y = y.equals x := by
  unfold equals
  cases x.rank <;> cases y.rank <;> simp [Bool.beq_comm]

theorem ofBits_toBits {x : Double} {bits : Nat} (h : x.toBits? = some bits) :
    ofBits bits = x := by
  cases x with
  | nan => simp [toBits?] at h
  | signed s m =>
    obtain ⟨w, hw⟩ := m
    simp only [toBits?, Option.some.injEq] at h
    subst h
    have small : w < signBit := Nat.lt_of_le_of_lt hw (by decide)
    have low : (s.toNat * signBit + w) % signBit = w := by
      rw [Nat.mul_comm, Nat.mul_add_mod, Nat.mod_eq_of_lt small]
    have high : (s.toNat * signBit + w) / signBit = s.toNat := by
      rw [Nat.mul_comm, Nat.mul_add_div (by decide), Nat.div_eq_of_lt small, Nat.add_zero]
    simp only [ofBits, low, high, hw, dite_true]
    cases s <;> rfl

end Double

end ReactiveQuery
