import ReactiveQuery.Proofs.Double.Decimal
import ReactiveQuery.Text.Numeral

/-! The decimal numerals as trees: which texts they are and which decimal they denote.  The reader
takes exactly these texts. -/

namespace ReactiveQuery

namespace Numeral

inductive Sign where
  | none
  | plus
  | minus
  deriving DecidableEq

namespace Sign

def text : Sign → List Char
  | none => []
  | plus => ['+']
  | minus => ['-']

def negative : Sign → Bool
  | minus => true
  | none | plus => false

end Sign

/-- The exponent of a numeral: its letter, an optional sign and at least one digit. -/
structure Exponent where
  capital : Bool
  sign : Sign
  digits : List Char
  some_digit : digits ≠ []
  isDigit : ∀ c ∈ digits, c.isDigit = true

namespace Exponent

def text (e : Exponent) : List Char :=
  (if e.capital then 'E' else 'e') :: (e.sign.text ++ e.digits)

/-- The signed exponent, its digits counted by `size`. -/
def scale (size : List Char → Nat) (e : Exponent) : Int :=
  if e.sign.negative then -(size e.digits : Int) else size e.digits

end Exponent

/-- A decimal numeral: an optional sign, digits around an optional point with at least one of them
on either side, and an optional exponent. -/
structure Spelling where
  sign : Sign
  whole : List Char
  fraction : Option (List Char)
  exponent : Option Exponent
  some_digit : whole ++ fraction.getD [] ≠ []
  isDigit : ∀ c ∈ whole ++ fraction.getD [], c.isDigit = true

namespace Spelling

def pointText : Option (List Char) → List Char
  | none => []
  | some ds => '.' :: ds

def exponentText : Option Exponent → List Char
  | none => []
  | some e => e.text

/-- The power of ten that an exponent names; without one it is zero. -/
def scale (size : List Char → Nat) : Option Exponent → Int
  | none => 0
  | some e => e.scale size

variable (n : Spelling)

def digits : List Char := n.whole ++ n.fraction.getD []

/-- The numeral behind its sign. -/
def body : List Char := n.whole ++ (pointText n.fraction ++ exponentText n.exponent)

def text : List Char := n.sign.text ++ n.body

/-- The decimal behind the sign, the digits of the exponent counted by `size`. -/
def decimal (size : List Char → Nat) : Decimal :=
  ⟨ofDigits n.digits, scale size n.exponent - (n.fraction.getD []).length⟩

/-- What the numeral denotes behind its sign. -/
def value : ℚ := (n.decimal ofDigits).value

/-- What the reader takes the numeral for: the digits of an exponent count only up to 65536. -/
def counted : Decimal := n.decimal exponentSize

end Spelling

/-! ### The letters of a numeral -/

/-- What a decimal numeral is made of. -/
def IsLetter (c : Char) : Prop :=
  c.isDigit = true ∨ c ∈ ['+', '-', '.', 'e', 'E']

instance : DecidablePred IsLetter := fun c =>
  inferInstanceAs (Decidable (c.isDigit = true ∨ c ∈ ['+', '-', '.', 'e', 'E']))

namespace IsLetter

variable {c : Char}

theorem toNat (letter : IsLetter c) :
    48 ≤ c.toNat ∧ c.toNat ≤ 57 ∨ c.toNat ∈ [43, 45, 46, 101, 69] := by
  rcases letter with digit | mark
  · exact .inl (by simpa using Char.isDigit_iff_toNat.mp digit)
  · exact .inr (List.mem_map_of_mem mark)

theorem isBlank (letter : IsLetter c) : Text.isBlank c = false := by
  have code := letter.toNat
  simp only [List.mem_cons, List.not_mem_nil, or_false] at code
  simp [Text.isBlank, Text.blankSet, CharSet.has, CharSet.hasCode]
  omega

end IsLetter

theorem Sign.isLetter (s : Sign) : ∀ c ∈ s.text, IsLetter c := by
  cases s <;> simp [Sign.text, IsLetter]

theorem Exponent.isLetter (e : Exponent) : ∀ c ∈ e.text, IsLetter c := by
  intro c mem
  simp only [Exponent.text, List.mem_cons, List.mem_append] at mem
  rcases mem with rfl | sign | digit
  · cases e.capital <;> exact .inr (by decide)
  · exact e.sign.isLetter c sign
  · exact .inl (e.isDigit c digit)

theorem Spelling.isLetter (n : Spelling) : ∀ c ∈ n.text, IsLetter c := by
  have digit : ∀ c ∈ n.whole ++ n.fraction.getD [], IsLetter c := fun c mem =>
    .inl (n.isDigit c mem)
  intro c mem
  simp only [Spelling.text, Spelling.body, List.mem_append] at mem
  rcases mem with sign | whole | point | exponent
  · exact n.sign.isLetter c sign
  · exact digit c (List.mem_append_left _ whole)
  · cases hf : n.fraction with
    | none => simp [hf, Spelling.pointText] at point
    | some ds =>
      simp only [hf, Spelling.pointText, List.mem_cons] at point
      rcases point with rfl | fraction
      · exact .inr (by decide)
      · exact digit c (List.mem_append_right _ (by simpa [hf] using fraction))
  · cases he : n.exponent with
    | none => simp [he, Spelling.exponentText] at exponent
    | some e => exact e.isLetter c (by simpa [he, Spelling.exponentText] using exponent)

/-! ### The reader takes every numeral -/

theorem splitSign_text (s : Sign) {cs : List Char} (unsigned : ∀ c ∈ cs.head?, c ≠ '-' ∧ c ≠ '+') :
    splitSign (s.text ++ cs) = (s.negative, cs) := by
  cases s with
  | none =>
    cases cs with
    | nil => rfl
    | cons c cs =>
      obtain ⟨minus, plus⟩ := unsigned c rfl
      simp only [Sign.text, List.nil_append]
      unfold splitSign
      split <;> simp_all [Sign.negative]
  | plus => rfl
  | minus => rfl

theorem Spelling.splitFraction_pointText {fraction : Option (List Char)} {rest : List Char}
    (isDigit : ∀ c ∈ fraction.getD [], c.isDigit = true)
    (stop : ∀ c ∈ rest.head?, c.isDigit = false ∧ c ≠ '.') :
    splitFraction (pointText fraction ++ rest) = (fraction.getD [], rest) := by
  cases fraction with
  | some ds => exact splitDigits_digits isDigit fun c head => (stop c head).1
  | none =>
    cases rest with
    | nil => rfl
    | cons c rest =>
      have := (stop c rfl).2
      simp only [pointText, List.nil_append]
      unfold splitFraction
      split <;> simp_all

theorem Exponent.exponent?_text (e : Exponent) :
    exponent? e.text = some (e.scale exponentSize) := by
  have unsigned : ∀ c ∈ e.digits.head?, c ≠ '-' ∧ c ≠ '+' := by
    intro c head
    have digit := e.isDigit c (List.mem_of_mem_head? head)
    constructor <;> rintro rfl <;> simp at digit
  have all : e.digits.all Char.isDigit = true := List.all_eq_true.mpr e.isDigit
  unfold Exponent.text
  cases e.capital <;>
    simp [exponent?, splitSign_text _ unsigned, all, e.some_digit, Exponent.scale]

namespace Spelling

variable (n : Spelling)

theorem exponent?_exponentText (e : Option Exponent) :
    exponent? (exponentText e) = some (scale exponentSize e) := by
  cases e with
  | none => rfl
  | some e => exact e.exponent?_text

theorem head?_exponentText (e : Option Exponent) :
    ∀ c ∈ (exponentText e).head?, c.isDigit = false ∧ c ≠ '.' := by
  cases e with
  | none => simp [exponentText]
  | some e => cases capital : e.capital <;> simp [exponentText, Exponent.text, capital]

theorem head?_pointText : ∀ c ∈ (pointText n.fraction ++ exponentText n.exponent).head?,
    c.isDigit = false := by
  cases n.fraction with
  | none => exact fun c head => (head?_exponentText n.exponent c head).1
  | some ds => simp [pointText]

theorem decimal?_body : decimal? n.body = some n.counted := by
  have whole : ∀ c ∈ n.whole, c.isDigit = true := fun c mem =>
    n.isDigit c (List.mem_append_left _ mem)
  have fraction : ∀ c ∈ n.fraction.getD [], c.isDigit = true := fun c mem =>
    n.isDigit c (List.mem_append_right _ mem)
  have some_digit : ¬(n.whole = [] ∧ n.fraction.getD [] = []) := by
    simpa using n.some_digit
  simp only [decimal?, body, splitDigits_digits whole n.head?_pointText,
    splitFraction_pointText fraction (head?_exponentText n.exponent), exponent?_exponentText,
    Bool.and_eq_true, List.isEmpty_iff, some_digit, if_false, Option.map_some]
  rfl

theorem head?_body : ∀ c ∈ n.body.head?, c ≠ '-' ∧ c ≠ '+' := by
  intro c head
  cases hw : n.whole with
  | cons d ds =>
    obtain rfl : d = c := by simpa [body, hw] using head
    have digit := n.isDigit d (by simp [hw])
    constructor <;> rintro rfl <;> simp at digit
  | nil =>
    cases hf : n.fraction with
    | none => exact absurd (by simp [hw, hf]) n.some_digit
    | some ds =>
      obtain rfl : '.' = c := by simpa [body, hw, hf, pointText] using head
      decide

theorem ofDecimal_text : ofDecimal n.text = .signed n.sign.negative n.counted.nearest := by
  simp only [ofDecimal, text, splitSign_text n.sign n.head?_body, decimal?_body]

end Spelling

/-! ### The reader takes nothing else -/

theorem exists_sign (cs : List Char) :
    ∃ s : Sign, s.text ++ (splitSign cs).2 = cs ∧ s.negative = (splitSign cs).1 := by
  unfold splitSign
  split
  · exact ⟨.minus, rfl, rfl⟩
  · exact ⟨.plus, rfl, rfl⟩
  · exact ⟨.none, rfl, rfl⟩

theorem Exponent.exists_text {cs : List Char} {k : Int} (read : exponent? cs = some k) :
    ∃ e : Option Exponent, Spelling.exponentText e = cs := by
  unfold exponent? at read
  split at read
  · exact ⟨none, rfl⟩
  · rename_i c cs
    split at read
    · rename_i letter
      obtain ⟨s, sign, -⟩ := exists_sign cs
      simp only [Option.ite_none_right_eq_some, Bool.and_eq_true, Bool.not_eq_true',
        List.isEmpty_eq_false_iff, List.all_eq_true] at read
      refine ⟨some ⟨c == 'E', s, (splitSign cs).2, read.1.1, read.1.2⟩, ?_⟩
      rw [Bool.or_eq_true, beq_iff_eq, beq_iff_eq] at letter
      rcases letter with rfl | rfl <;> simp [Spelling.exponentText, Exponent.text, sign]
    · cases read

theorem Spelling.exists_point (cs : List Char) : ∃ fraction : Option (List Char),
    pointText fraction ++ (splitFraction cs).2 = cs ∧ fraction.getD [] = (splitFraction cs).1 ∧
      ∀ c ∈ fraction.getD [], c.isDigit = true := by
  unfold splitFraction
  split
  · rename_i cs
    refine ⟨some (splitDigits cs).1, ?_, rfl, fun c mem => isDigit_of_mem_splitDigits mem⟩
    simp [pointText, splitDigits_append]
  · exact ⟨none, rfl, rfl, by simp⟩

theorem Spelling.exists_body (s : Sign) {cs : List Char} {d : Decimal}
    (read : decimal? cs = some d) : ∃ n : Spelling, n.sign = s ∧ n.body = cs := by
  obtain ⟨fraction, point, same, isDigit⟩ := exists_point (splitDigits cs).2
  simp only [decimal?, ← same] at read
  split at read
  · cases read
  · rename_i some_digit
    obtain ⟨k, read, -⟩ := Option.map_eq_some_iff.mp read
    obtain ⟨exponent, rest⟩ := Exponent.exists_text read
    refine ⟨⟨s, (splitDigits cs).1, fraction, exponent, by simpa using some_digit, ?_⟩, rfl, ?_⟩
    · intro c mem
      exact (List.mem_append.mp mem).elim isDigit_of_mem_splitDigits (isDigit c)
    · simp only [body, rest, point, splitDigits_append]

/-- A text that reads as a number is a numeral. -/
theorem Spelling.exists_text {cs : List Char} (read : ofDecimal cs ≠ .nan) :
    ∃ n : Spelling, n.text = cs := by
  obtain ⟨s, sign, -⟩ := exists_sign cs
  simp only [ofDecimal] at read
  cases decimal : decimal? (splitSign cs).2 with
  | none => simp [decimal] at read
  | some d =>
    obtain ⟨n, rfl, body⟩ := exists_body s decimal
    exact ⟨n, by rw [text, body, sign]⟩

end Numeral

end ReactiveQuery
