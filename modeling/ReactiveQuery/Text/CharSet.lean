/-! Sets of characters by ranges of code points. -/

namespace ReactiveQuery

/-- A set of characters as ranges of code points, both ends included.  The ranges ascend; in a
canonical set they do not touch either. -/
abbrev CharSet := List (Nat × Nat)

namespace CharSet

def hasCode : CharSet → Nat → Bool
  | [], _ => false
  | (low, high) :: rest, code => low ≤ code && (code ≤ high || hasCode rest code)

def has (set : CharSet) (c : Char) : Bool := set.hasCode c.toNat

/-- The set given by the lengths of the gaps and runs of members that alternate from `start` on. -/
def ofRuns (start : Nat) : List Nat → CharSet
  | gap :: run :: rest => (start + gap, start + gap + run - 1) :: ofRuns (start + gap + run) rest
  | _ => []

def single (c : Char) : CharSet := [(c.toNat, c.toNat)]

/-- The last code point. -/
def last : Nat := 0x10FFFF

/-- Ordered ranges from a first one on, where those that overlap or touch become one. -/
def joined (low high : Nat) : CharSet → CharSet
  | [] => [(low, high)]
  | (l, h) :: rest =>
    if l ≤ high + 1 then joined low (max high h) rest else (low, high) :: joined l h rest

/-- The canonical set with the members of some ranges, which may come in any order. -/
def canonical (ranges : List (Nat × Nat)) : CharSet :=
  match ranges.mergeSort fun a b => a.1 ≤ b.1 with
  | [] => []
  | (low, high) :: rest => joined low high rest

/-- The character after one; the surrogates between U+D7FF and U+E000 are no characters. -/
def next (code : Nat) : Nat := if code == 0xD7FF then 0xE000 else code + 1

/-- The character before one. -/
def previous (code : Nat) : Nat := if code == 0xE000 then 0xD7FF else code - 1

/-- The ends of what a set leaves out after a member and up to `last`.  Between ranges that meet
across the surrogates the ends stand in reverse. -/
def spacesAfter (last code : Nat) : CharSet → List (Nat × Nat)
  | [] => if code < last then [(next code, last)] else []
  | (low, high) :: rest => (next code, previous low) :: spacesAfter last high rest

/-- The ends of what a canonical set leaves out up to `last`. -/
def spaces (last : Nat) : CharSet → List (Nat × Nat)
  | [] => [(0, last)]
  | (low, high) :: rest =>
    let after := spacesAfter last high rest
    if 0 < low then (0, previous low) :: after else after

/-- All characters up to `last` that a canonical set leaves out.  Of ranges that meet across the
surrogates the two characters at the ends count as left out. -/
def complementUpTo (last : Nat) (set : CharSet) : CharSet :=
  (set.spaces last).map fun (a, b) => (min a b, max a b)

def complement (set : CharSet) : CharSet := set.complementUpTo last

def inter (a b : CharSet) : CharSet :=
  a.flatMap fun (l, h) => b.filterMap fun (l', h') =>
    if max l l' ≤ min h h' then some (max l l', min h h') else none

def diff (a b : CharSet) : CharSet := inter a ((b.spaces last).filter fun (low, high) => low ≤ high)

def union (a b : CharSet) : CharSet := canonical (a ++ b)

def symmDiff (a b : CharSet) : CharSet := diff (union a b) (inter a b)

theorem hasCode_single (c : Char) (code : Nat) :
    (single c).hasCode code = true ↔ code = c.toNat := by
  simp only [single, hasCode, Bool.or_false, Bool.and_eq_true, decide_eq_true_eq]
  omega

end CharSet

end ReactiveQuery
