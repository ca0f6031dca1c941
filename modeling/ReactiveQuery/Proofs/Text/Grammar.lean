import ReactiveQuery.Proofs.Text.Reading
import ReactiveQuery.Value.Coerce

/-! The texts that denote numbers.  The reader follows the grammar of scripts but for three kinds of
texts: hexadecimal numbers that do not fit 64 bits, hexadecimal digits behind a plus, and decimals
with both more digits and a larger exponent than are counted. -/

namespace ReactiveQuery

namespace Numeral

/-- A hexadecimal literal: its letter and at least one digit. -/
structure HexLiteral where
  capital : Bool
  digits : List Char
  some_digit : digits ≠ []
  isHex : ∀ c ∈ digits, (hexValue? c).isSome = true

namespace HexLiteral

/-- The literal with something between its letter and its digits. -/
def textWith (between : List Char) (l : HexLiteral) : List Char :=
  '0' :: (if l.capital then 'X' else 'x') :: (between ++ l.digits)

def text (l : HexLiteral) : List Char := l.textWith []

/-- The whole number that the digits denote. -/
def number (l : HexLiteral) : Nat :=
  l.digits.foldl (fun n c => 16 * n + (hexValue? c).getD 0) 0

end HexLiteral

/-- The grammar of numbers: no text at all is zero, and the others are infinities, hexadecimal
literals and decimal numerals, each the double nearest to what it spells. -/
inductive Denotes : List Char → Double → Prop where
  | empty : Denotes [] .zero
  | infinity (s : Sign) : Denotes (s.text ++ "Infinity".toList) (.infinity s.negative)
  | hex (l : HexLiteral) {m : Magnitude} (nearest : m.Nearest l.number) :
    Denotes l.text (.signed false m)
  | decimal (n : Spelling) {m : Magnitude} (nearest : m.Nearest n.value) :
    Denotes n.text (.signed n.sign.negative m)

/-- The texts that are read in another way than the grammar says. -/
inductive Irregular : List Char → Prop where
  | large (l : HexLiteral) (large : bound64 ≤ l.number) : Irregular l.text
  | plus (l : HexLiteral) : Irregular (l.textWith ['+'])
  | long (n : Spelling) (long : ¬n.Modest) : Irregular n.text

/-! ### Hexadecimal digits -/

theorem foldlM_hexValue? (cs : List Char) (start n : Nat) :
    cs.foldlM (fun n c => (hexValue? c).map (16 * n + ·)) start = some n ↔
      (∀ c ∈ cs, (hexValue? c).isSome = true) ∧
        cs.foldl (fun n c => 16 * n + (hexValue? c).getD 0) start = n := by
  induction cs generalizing start with
  | nil => simp
  | cons c cs ih => cases digit : hexValue? c <;> simp [digit, ih]

theorem hex?_eq_some {cs : List Char} {n : Nat} : hex? cs = some n ↔
    cs ≠ [] ∧ (∀ c ∈ cs, (hexValue? c).isSome = true) ∧
      cs.foldl (fun n c => 16 * n + (hexValue? c).getD 0) 0 = n := by
  cases cs with
  | nil => simp [hex?]
  | cons c cs => exact (foldlM_hexValue? (c :: cs) 0 n).trans (by simp)

namespace HexLiteral

variable (l : HexLiteral)

theorem hex?_digits : hex? l.digits = some l.number :=
  hex?_eq_some.mpr ⟨l.some_digit, l.isHex, rfl⟩

/-- What is read for a literal with or without a plus. -/
def reading : Double := if l.number < bound64 then .ofNat l.number else .nan

theorem ofHex_digits : ofHex l.digits = l.reading := by
  unfold ofHex
  split
  next cs same => exact absurd (l.isHex '+' (by simp [same])) (by decide)
  next => simp only [hex?_digits, reading]

theorem ofHex_plus : ofHex ('+' :: l.digits) = l.reading := by
  simp only [ofHex, hex?_digits, reading]

end HexLiteral

theorem exists_hexLiteral (capital : Bool) {cs : List Char} (read : ofHex cs ≠ .nan) :
    ∃ l : HexLiteral, l.capital = capital ∧ (cs = l.digits ∨ cs = '+' :: l.digits) := by
  unfold ofHex at read
  extract_lets digits at read
  cases hex : hex? digits with
  | none => simp [hex] at read
  | some n =>
    obtain ⟨some_digit, isHex, -⟩ := hex?_eq_some.mp hex
    refine ⟨⟨capital, digits, some_digit, isHex⟩, rfl, ?_⟩
    unfold digits
    split
    · exact .inr rfl
    · exact .inl rfl

/-! ### Reading what the grammar has -/

theorem read_empty {s : String} (same : Text.trim s.toList = []) : read s = .zero := by
  rw [read, same]

theorem read_infinity (sign : Sign) {s : String}
    (same : Text.trim s.toList = sign.text ++ "Infinity".toList) :
    read s = .infinity sign.negative := by
  rw [read, same]
  cases sign <;> rfl

theorem read_hex {l : HexLiteral} {s : String} (same : Text.trim s.toList = l.text) :
    read s = l.reading := by
  rw [read, same, HexLiteral.text, HexLiteral.textWith, ← l.ofHex_digits]
  cases l.capital <;> rfl

theorem read_hex_plus {l : HexLiteral} {s : String}
    (same : Text.trim s.toList = l.textWith ['+']) : read s = l.reading := by
  rw [read, same, HexLiteral.textWith, ← l.ofHex_plus]
  cases l.capital <;> rfl

/-- A spelled text has one reading, whatever tree it is the text of. -/
theorem read_of_denotes {s : String} {x : Double} (regular : ¬Irregular (Text.trim s.toList))
    (denotes : Denotes (Text.trim s.toList) x) : read s = x := by
  generalize spelled : Text.trim s.toList = t at regular denotes
  cases denotes with
  | empty => exact read_empty spelled
  | infinity sign => exact read_infinity sign spelled
  | hex l nearest =>
    have fits : l.number < bound64 := Nat.lt_of_not_le fun large => regular (.large l large)
    rw [read_hex spelled, HexLiteral.reading, if_pos fits, Double.ofNat,
      (Magnitude.nearest_ofNat l.number).unique nearest]
  | decimal n nearest =>
    have modest : n.Modest := by
      by_contra long
      exact regular (.long n long)
    rw [n.read_of_trim spelled, (n.nearest_counted modest).unique nearest]

/-! ### Reading anything else -/

theorem denotes_hex (capital : Bool) {cs : List Char}
    (regular : ¬Irregular ('0' :: (if capital then 'X' else 'x') :: cs)) (number : ofHex cs ≠ .nan) :
    Denotes ('0' :: (if capital then 'X' else 'x') :: cs) (ofHex cs) := by
  obtain ⟨l, rfl, rfl | rfl⟩ := exists_hexLiteral capital number
  · have fits : l.number < bound64 := Nat.lt_of_not_le fun large => regular (.large l large)
    rw [l.ofHex_digits, HexLiteral.reading, if_pos fits]
    exact .hex l (Magnitude.nearest_ofNat l.number)
  · exact absurd (.plus l) regular

/-- What is read as a number is in the grammar. -/
theorem denotes_read {s : String} (regular : ¬Irregular (Text.trim s.toList))
    (number : read s ≠ .nan) : Denotes (Text.trim s.toList) (read s) := by
  unfold read at number ⊢
  generalize Text.trim s.toList = t at regular number ⊢
  split at number
  · exact .empty
  · exact denotes_hex false regular number
  · exact denotes_hex true regular number
  next rest =>
    split_ifs at number ⊢ with plain minus
    · rw [Bool.or_eq_true, beq_iff_eq, beq_iff_eq] at plain
      rcases plain with rfl | rfl
      · exact .infinity .none
      · exact .infinity .plus
    · rw [beq_iff_eq] at minus
      exact minus ▸ .infinity .minus
    · obtain ⟨n, rfl⟩ := Spelling.exists_text number
      have modest : n.Modest := by
        by_contra long
        exact regular (.long n long)
      rw [n.ofDecimal_text]
      exact .decimal n (n.nearest_counted modest)

theorem Denotes.ne_nan {t : List Char} {x : Double} (denotes : Denotes t x) : x ≠ .nan := by
  cases denotes <;> exact Double.noConfusion

/-- A text converts to the number that it denotes, and to NaN when it denotes none.  Of the texts
that this leaves out, a hexadecimal literal is NaN from `2 ^ 64` on, a plus in front of its digits
changes nothing, and a long decimal with a large exponent is what its digits and its exponent count
for. -/
theorem number_of_text (h : Heap) {s : String} {t : List Char} (trimmed : Text.trim s.toList = t) :
    (¬Irregular t → ∀ x, h.number (.text s) = some x ↔
      Denotes t x ∨ x = .nan ∧ ∀ y, ¬Denotes t y) ∧
    (∀ l : HexLiteral, t = l.text ∨ t = l.textWith ['+'] →
      h.number (.text s) = some (if l.number < bound64 then .ofNat l.number else .nan)) ∧
    ∀ n : Spelling, t = n.text →
      h.number (.text s) = some (.signed n.sign.negative n.counted.nearest) := by
  have number (x : Double) : h.number (.text s) = some x ↔ read s = x := Option.some_inj
  simp only [number]
  subst trimmed
  refine ⟨fun regular x => ⟨?_, ?_⟩, ?_, fun n => n.read_of_trim⟩
  · rintro rfl
    by_cases none : read s = .nan
    · exact .inr ⟨none, fun y denotes => denotes.ne_nan (read_of_denotes regular denotes ▸ none)⟩
    · exact .inl (denotes_read regular none)
  · rintro (denotes | ⟨rfl, none⟩)
    · exact read_of_denotes regular denotes
    · by_contra number
      exact none _ (denotes_read regular number)
  · rintro l (same | same)
    · exact read_hex same
    · exact read_hex_plus same

theorem number_of_text_hex : Heap.number {} (.text " 0x1F ") = some (.ofNat 31) := by
  have ⟨_, hex, _⟩ := number_of_text {} (s := " 0x1F ") (t := "0x1F".toList) (by decide)
  exact hex ⟨false, ['1', 'F'], by decide, List.all_eq_true.mp (by decide)⟩ (.inl (by decide))

/-- The grammar does not hold for `2 ^ 64` in hexadecimal digits. -/
theorem number_of_text_large : ¬∀ (h : Heap) (s : String) (x : Double),
    h.number (.text s) = some x ↔ Denotes (Text.trim s.toList) x ∨
      x = .nan ∧ ∀ y, ¬Denotes (Text.trim s.toList) y := by
  intro grammar
  let l : HexLiteral := ⟨false, '1' :: List.replicate 16 '0', by decide,
    List.all_eq_true.mp (by decide)⟩
  have trimmed : Text.trim "0x10000000000000000".toList = l.text := by decide
  have denotes : Denotes l.text (.ofNat l.number) := .hex l (Magnitude.nearest_ofNat _)
  have expected := (grammar {} "0x10000000000000000" (.ofNat l.number)).mpr
    (.inl (trimmed ▸ denotes))
  have actual : read "0x10000000000000000" = .nan := by
    rw [read_hex trimmed]
    decide
  have : read "0x10000000000000000" = .ofNat l.number := Option.some_inj.mp expected
  cases actual.symm.trans this

end Numeral

end ReactiveQuery
