import ReactiveQuery.Text.CharSet

/-! The bytes of characters in UTF-8, by ranges: a set of characters as sequences of byte ranges. -/

namespace ReactiveQuery.Text

/-- A range of bytes, both ends included. -/
abbrev ByteRange := Nat × Nat

/-- The byte sequences of the numbers from `low` to `high`, which end in so many bytes of six bits
after a first byte counted from `lead`.  Each is the product of its ranges, and they ascend. -/
def byteSequences : Nat → Nat → Nat → Nat → List (List ByteRange)
  | 0, lead, low, high => [[(lead + low, lead + high)]]
  | more + 1, lead, low, high =>
    let unit := 1 <<< (6 * (more + 1))
    let first := low / unit
    let last := high / unit
    let under (top low high : Nat) :=
      (byteSequences more 0x80 low high).map ((lead + top, lead + top) :: ·)
    if first == last then under first (low % unit) (high % unit)
    else
      let ragged := low % unit != 0
      let cut := high % unit != unit - 1
      let firstFull := if ragged then first + 1 else first
      let pastFull := if cut then last else last + 1
      let full :=
        if firstFull < pastFull then
          [(lead + firstFull, lead + pastFull - 1) :: List.replicate (more + 1) (0x80, 0xBF)]
        else []
      (if ragged then under first (low % unit) (unit - 1) else []) ++ full ++
        if cut then under last 0 (high % unit) else []

/-- The characters by the number of their bytes: the first and the last, what the first byte is
counted from, and how many bytes follow it.  The surrogates are left out. -/
def encodingBlocks : List (Nat × Nat × Nat × Nat) :=
  [(0, 0x7F, 0, 0), (0x80, 0x7FF, 0xC0, 1), (0x800, 0xD7FF, 0xE0, 2), (0xE000, 0xFFFF, 0xE0, 2),
   (0x10000, 0x10FFFF, 0xF0, 3)]

/-- The byte sequences of the characters of a set. -/
def encodings (set : CharSet) : List (List ByteRange) :=
  set.flatMap fun (low, high) => encodingBlocks.flatMap fun (first, last, lead, more) =>
    if max low first ≤ min high last then
      byteSequences more lead (max low first) (min high last)
    else []

end ReactiveQuery.Text
