import ReactiveQuery.Text.Blank
import ReactiveQuery.Double.Decimal

/-! Numerals: the number that a text denotes, and the text of a number. -/

namespace ReactiveQuery

namespace Numeral

def digitValue (c : Char) : Nat := c.toNat - '0'.toNat

def ofDigits (cs : List Char) : Nat := cs.foldl (fun n c => 10 * n + digitValue c) 0

/-- A sign in front of a text, and the rest; no sign means plus. -/
def splitSign : List Char → Bool × List Char
  | '-' :: cs => (true, cs)
  | '+' :: cs => (false, cs)
  | cs => (false, cs)

/-- The digits at the front of a text, and the rest. -/
def splitDigits (cs : List Char) : List Char × List Char :=
  (cs.takeWhile Char.isDigit, cs.dropWhile Char.isDigit)

theorem splitDigits_append (cs : List Char) :
    (splitDigits cs).1 ++ (splitDigits cs).2 = cs :=
  List.takeWhile_append_dropWhile

theorem isDigit_of_mem_splitDigits {cs : List Char} {c : Char} (h : c ∈ (splitDigits cs).1) :
    c.isDigit = true := by
  induction cs with
  | nil => simp [splitDigits] at h
  | cons d rest ih =>
    by_cases digit : d.isDigit = true
    · simp only [splitDigits, List.takeWhile_cons, digit, if_true, List.mem_cons] at h
      rcases h with rfl | h
      · exact digit
      · exact ih h
    · simp [splitDigits, digit] at h

/-- Digits are split off whole when what follows begins with no digit. -/
theorem splitDigits_digits {digits rest : List Char} (all : ∀ c ∈ digits, c.isDigit = true)
    (stop : ∀ c ∈ rest.head?, c.isDigit = false) :
    splitDigits (digits ++ rest) = (digits, rest) := by
  induction digits with
  | nil =>
    cases rest with
    | nil => rfl
    | cons c rest => simp [splitDigits, stop c rfl]
  | cons d digits ih =>
    have split := ih fun c hc => all c (List.mem_cons_of_mem _ hc)
    simp only [splitDigits, Prod.mk.injEq] at split
    simp [splitDigits, all d List.mem_cons_self, split]

/-- The digits after a point, when there is one. -/
def splitFraction : List Char → List Char × List Char
  | '.' :: cs => splitDigits cs
  | cs => ([], cs)

/-- The size of an exponent by its digits, which count only until it reaches 65536. -/
def exponentSize (cs : List Char) : Nat :=
  cs.foldl (fun n c => if n < 0x10000 then 10 * n + digitValue c else n) 0

/-- The exponent that fills the rest of a numeral; no text is exponent zero. -/
def exponent? : List Char → Option Int
  | [] => some 0
  | c :: cs =>
    if c == 'e' || c == 'E' then
      let (negative, ds) := splitSign cs
      if !ds.isEmpty && ds.all Char.isDigit then
        some (if negative then -(exponentSize ds : Int) else exponentSize ds)
      else none
    else none

/-- A numeral without sign: digits around an optional point, at least one of them, and an optional
exponent. -/
def decimal? (cs : List Char) : Option Decimal :=
  let (whole, cs) := splitDigits cs
  let (fraction, cs) := splitFraction cs
  if whole.isEmpty && fraction.isEmpty then none
  else (exponent? cs).map fun e => ⟨ofDigits (whole ++ fraction), e - fraction.length⟩

/-- The number of a decimal numeral with optional sign; NaN for any other text. -/
def ofDecimal (cs : List Char) : Double :=
  let (negative, cs) := splitSign cs
  match decimal? cs with
  | some d => .signed negative d.nearest
  | none => .nan

def hexValue? (c : Char) : Option Nat :=
  if c.isDigit then some (c.toNat - '0'.toNat)
  else if 'a' ≤ c && c ≤ 'f' then some (c.toNat - 'a'.toNat + 10)
  else if 'A' ≤ c && c ≤ 'F' then some (c.toNat - 'A'.toNat + 10)
  else none

/-- The whole number that hexadecimal digits denote; at least one digit. -/
def hex? : List Char → Option Nat
  | [] => none
  | cs => cs.foldlM (fun n c => (hexValue? c).map (16 * n + ·)) 0

/-- The number of hexadecimal digits after an optional plus, as far as it fits 64 bits. -/
def ofHex (cs : List Char) : Double :=
  let digits := match cs with
    | '+' :: cs => cs
    | cs => cs
  match hex? digits with
  | some n => if n < bound64 then .ofNat n else .nan
  | none => .nan

/-- The number that a text denotes.  Blanks around it do not count and no text is zero. -/
def read (text : String) : Double :=
  match Text.trim text.toList with
  | [] => .zero
  | '0' :: 'x' :: cs => ofHex cs
  | '0' :: 'X' :: cs => ofHex cs
  | cs =>
    if cs == "Infinity".toList || cs == "+Infinity".toList then .infinity false
    else if cs == "-Infinity".toList then .infinity true
    else ofDecimal cs

/-- A position in a list: digits after an optional plus, below `2 ^ 64`. -/
def index? (text : String) : Option Nat :=
  let digits := match text.toList with
    | '+' :: cs => cs
    | cs => cs
  if !digits.isEmpty && digits.all Char.isDigit && ofDigits digits < bound64 then
    some (ofDigits digits)
  else none

def zeros (n : Int) : List Char := List.replicate n.toNat '0'

/-- The layout of digits with the point after the first `point` of them: plain while the point is
within 21 places to the right and 5 to the left of the first digit, else with an exponent. -/
def layout (digits : List Char) (point : Int) : List Char :=
  if digits.length ≤ point ∧ point ≤ 21 then
    digits ++ zeros (point - digits.length)
  else if 0 < point ∧ point ≤ 21 then
    digits.take point.toNat ++ '.' :: digits.drop point.toNat
  else if -6 < point ∧ point ≤ 0 then
    '0' :: '.' :: zeros (-point) ++ digits
  else
    let fraction := digits.drop 1
    let mantissa := digits.take 1 ++ if fraction.isEmpty then [] else '.' :: fraction
    let e := point - 1
    mantissa ++ 'e' :: (if e < 0 then '-' else '+') :: Nat.toDigits 10 e.natAbs

/-- The text of a number: the shortest digits that read back. -/
def write : Double → String
  | .nan => "NaN"
  | .signed negative m =>
    if m.isZero then "0"
    else
      let sign := if negative then ['-'] else []
      if m.isInfinite then String.ofList (sign ++ "Infinity".toList)
      else
        let d := m.shortest
        String.ofList (sign ++ layout d.digits d.point)

end Numeral

end ReactiveQuery
