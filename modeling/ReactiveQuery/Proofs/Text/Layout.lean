import Mathlib.Data.List.TakeWhile
import Mathlib.Tactic.Ring
import ReactiveQuery.Proofs.Double.Shortest
import ReactiveQuery.Proofs.Text.Reading
import ReactiveQuery.Value.Coerce

/-! The text of a number.  Each of the four layouts spells the decimal that its digits and its point
stand for, so that a number is read back from its own text. -/

namespace ReactiveQuery

namespace Numeral

theorem ofDigits_append_zeros (cs : List Char) (k : Nat) :
    ofDigits (cs ++ List.replicate k '0') = ofDigits cs * 10 ^ k := by
  induction k with
  | zero => simp
  | succ k ih =>
    rw [List.replicate_succ', ← List.append_assoc, ofDigits_concat, ih, Nat.pow_succ]
    simp only [digitValue, Char.reduceToNat]
    ring

theorem ofDigits_zeros_append (k : Nat) (cs : List Char) :
    ofDigits (List.replicate k '0' ++ cs) = ofDigits cs := by
  induction k with
  | zero => rfl
  | succ k ih => exact ih

theorem ofDigits_toDigits (n : Nat) : ofDigits (Nat.toDigits 10 n) = n :=
  Nat.ofDigitChars_ten_toDigits

theorem isDigit_zeros {n : Int} {c : Char} (mem : c ∈ zeros n) : c.isDigit = true := by
  obtain rfl := List.eq_of_mem_replicate mem
  rfl

namespace Spelling

/-- A numeral spells digits with the point after the first `point` of them; it has an exponent when
the one of the first digit is out of reach. -/
structure LaysOut (n : Spelling) (digits : List Char) (point : Int) : Prop where
  body : n.body = layout digits point
  value : n.value = ofDigits digits * 10 ^ (point - digits.length)
  exponent : n.exponent.isSome = true ↔ point - 1 < -6 ∨ 21 ≤ point - 1
  far : ∀ e ∈ n.exponent, n.digits = digits ∧ ofDigits e.digits = (point - 1).natAbs

variable (s : Sign) {digits : List Char} {point : Int}

/-- All digits before the point, and zeros up to it. -/
theorem exists_whole (some_digit : digits ≠ []) (isDigit : ∀ c ∈ digits, c.isDigit = true)
    (past : digits.length ≤ point) (near : point ≤ 21) :
    ∃ n : Spelling, n.sign = s ∧ n.LaysOut digits point := by
  refine ⟨⟨s, digits ++ zeros (point - digits.length), none, none, by simp [some_digit], ?_⟩, rfl,
    ?_, ?_, ?_, ?_⟩
  · simp only [Option.getD_none, List.append_nil, List.mem_append]
    exact fun c mem => mem.elim (isDigit c) isDigit_zeros
  · simp [body, pointText, exponentText, layout, past, near]
  · obtain ⟨k, places⟩ := Int.eq_ofNat_of_zero_le (Int.sub_nonneg.mpr past)
    simp [value, decimal, Decimal.value, Spelling.digits, scale, places, zeros,
      ofDigits_append_zeros]
  · have := List.length_pos_iff.mpr some_digit
    simp only [Option.isSome_none, Bool.false_eq_true, false_iff]
    omega
  · simp

/-- The point between two digits. -/
theorem exists_pointed (isDigit : ∀ c ∈ digits, c.isDigit = true) (inside : point < digits.length)
    (positive : 0 < point) (near : point ≤ 21) :
    ∃ n : Spelling, n.sign = s ∧ n.LaysOut digits point := by
  have joined : digits.take point.toNat ++ digits.drop point.toNat = digits :=
    List.take_append_drop ..
  have some_digit : digits ≠ [] := by
    rintro rfl
    simp only [List.length_nil, Nat.cast_zero] at inside
    omega
  refine ⟨⟨s, digits.take point.toNat, some (digits.drop point.toNat), none,
    by simpa only [Option.getD_some, joined] using some_digit,
    by simpa only [Option.getD_some, joined] using isDigit⟩, rfl, ?_, ?_, ?_, ?_⟩
  · simp only [body, pointText, exponentText, layout, List.append_nil, if_neg inside.not_ge,
      positive, near, and_true, if_true]
  · simp only [value, decimal, Decimal.value, Spelling.digits, scale, Option.getD_some, joined,
      List.length_drop]
    congr 2
    omega
  · simp only [Option.isSome_none, Bool.false_eq_true, false_iff]
    omega
  · simp

/-- Zeros between the point and the first digit. -/
theorem exists_shifted (isDigit : ∀ c ∈ digits, c.isDigit = true) (some_digit : digits ≠ [])
    (near : -6 < point) (nonpos : point ≤ 0) :
    ∃ n : Spelling, n.sign = s ∧ n.LaysOut digits point := by
  refine ⟨⟨s, ['0'], some (zeros (-point) ++ digits), none, by simp, ?_⟩, rfl, ?_, ?_, ?_, ?_⟩
  · simp only [Option.getD_some, List.cons_append, List.nil_append, List.mem_cons, List.mem_append]
    rintro c (rfl | zero | digit)
    · rfl
    · exact isDigit_zeros zero
    · exact isDigit c digit
  · have := List.length_pos_iff.mpr some_digit
    simp only [body, pointText, exponentText, layout, List.append_nil, near, nonpos, and_true,
      if_true]
    rw [if_neg (by omega), if_neg (by omega)]
    rfl
  · have padded : ofDigits (['0'] ++ (zeros (-point) ++ digits)) = ofDigits digits :=
      ofDigits_zeros_append ((-point).toNat + 1) digits
    simp only [value, decimal, Decimal.value, Spelling.digits, scale, Option.getD_some]
    rw [padded, List.length_append, zeros, List.length_replicate]
    congr 2
    omega
  · simp only [Option.isSome_none, Bool.false_eq_true, false_iff]
    omega
  · simp

/-- The exponent that stands behind a point out of reach. -/
def exponentOf (k : Int) : Exponent where
  capital := false
  sign := if k < 0 then .minus else .plus
  digits := Nat.toDigits 10 k.natAbs
  some_digit := Nat.toDigits_ne_nil
  isDigit := fun _ mem => Nat.isDigit_of_mem_toDigits (by decide) (by decide) mem

theorem scale_exponentOf (k : Int) : (exponentOf k).scale ofDigits = k := by
  simp only [exponentOf, Exponent.scale, ofDigits_toDigits]
  by_cases negative : k < 0
  · simp only [negative, Sign.negative, if_true]
    omega
  · simp only [negative, Sign.negative, Bool.false_eq_true, if_false]
    omega

theorem layout_scientific (far : point ≤ -6 ∨ 21 < point) (d : Char) (ds : List Char) :
    layout (d :: ds) point =
      d :: ((if ds.isEmpty then [] else '.' :: ds) ++ (exponentOf (point - 1)).text) := by
  simp only [layout, List.length_cons]
  rw [if_neg (by omega), if_neg (by omega), if_neg (by omega)]
  by_cases negative : point - 1 < 0 <;> simp [Exponent.text, exponentOf, Sign.text, negative]

/-- The point behind the first digit, and an exponent. -/
theorem exists_scientific (isDigit : ∀ c ∈ digits, c.isDigit = true) (some_digit : digits ≠ [])
    (far : point ≤ -6 ∨ 21 < point) :
    ∃ n : Spelling, n.sign = s ∧ n.LaysOut digits point := by
  obtain ⟨d, ds, rfl⟩ := List.exists_cons_of_ne_nil some_digit
  obtain ⟨fraction, text, rfl⟩ : ∃ fraction : Option (List Char),
      pointText fraction = (if ds.isEmpty then [] else '.' :: ds) ∧ fraction.getD [] = ds := by
    cases ds with
    | nil => exact ⟨none, rfl, rfl⟩
    | cons c cs => exact ⟨some (c :: cs), rfl, rfl⟩
  refine ⟨⟨s, [d], fraction, some (exponentOf (point - 1)), by simp, isDigit⟩, rfl, ?_, ?_, ?_, ?_⟩
  · rw [layout_scientific far, ← text]
    rfl
  · simp only [value, decimal, Decimal.value, Spelling.digits, scale, scale_exponentOf,
      List.cons_append, List.nil_append, List.length_cons]
    congr 2
    omega
  · simp only [Option.isSome_some, true_iff]
    omega
  · simp only [Option.mem_def, Option.some.injEq]
    rintro e rfl
    exact ⟨rfl, ofDigits_toDigits _⟩

/-- Every layout spells its digits and its point. -/
theorem exists_laysOut (some_digit : digits ≠ []) (isDigit : ∀ c ∈ digits, c.isDigit = true)
    (point : Int) : ∃ n : Spelling, n.sign = s ∧ n.LaysOut digits point := by
  by_cases far : point ≤ -6 ∨ 21 < point
  · exact exists_scientific s isDigit some_digit far
  · by_cases past : digits.length ≤ point
    · exact exists_whole s some_digit isDigit past (by omega)
    · by_cases positive : 0 < point
      · exact exists_pointed s isDigit (by omega) positive (by omega)
      · exact exists_shifted s isDigit some_digit (by omega) (by omega)

/-- What is laid out is counted, unless both its digits and its exponent are more than any double
has. -/
theorem LaysOut.modest {n : Spelling} (laid : n.LaysOut digits point)
    (modest : digits.length ≤ 65000 ∨ point.natAbs ≤ 655000) : n.Modest := by
  cases he : n.exponent with
  | none => exact .inr (by simp [he])
  | some e =>
    obtain ⟨same, size⟩ := laid.far e he
    refine modest.imp (fun few => same ▸ few) fun near => ?_
    simp only [he, Option.mem_def, Option.some.injEq]
    rintro _ rfl
    omega

end Spelling

end Numeral

/-! ### The digits of a decimal -/

namespace Decimal

open Numeral

variable (d : Decimal)

/-- Zeros at the end of a coefficient are left out. -/
theorem exists_zeros : ∃ k, Nat.toDigits 10 d.coefficient = d.digits ++ List.replicate k '0' := by
  let rest := (Nat.toDigits 10 d.coefficient).reverse.takeWhile (· == '0')
  have same : rest = List.replicate rest.length '0' :=
    List.eq_replicate_of_mem fun c mem => by simpa using List.mem_takeWhile_imp mem
  have split : rest ++ (Nat.toDigits 10 d.coefficient).reverse.dropWhile (· == '0') =
      (Nat.toDigits 10 d.coefficient).reverse := List.takeWhile_append_dropWhile
  refine ⟨rest.length, ?_⟩
  rw [← List.reverse_replicate, ← same, digits, ← List.reverse_append, split, List.reverse_reverse]

theorem isDigit_digits : ∀ c ∈ d.digits, c.isDigit = true := by
  obtain ⟨k, split⟩ := d.exists_zeros
  intro c mem
  exact Nat.isDigit_of_mem_toDigits (by decide) (by decide) (split ▸ List.mem_append_left _ mem)

/-- The digits and the point stand for the decimal. -/
theorem ofDigits_digits : (ofDigits d.digits : ℚ) * 10 ^ (d.point - d.digits.length) = d.value := by
  obtain ⟨k, split⟩ := d.exists_zeros
  have coefficient : d.coefficient = ofDigits d.digits * 10 ^ k := by
    rw [← ofDigits_append_zeros, ← split, ofDigits_toDigits]
  have point : d.point - d.digits.length = k + d.exponent := by
    rw [point, split, List.length_append, List.length_replicate]
    omega
  rw [value, coefficient, point, zpow_add₀ (by norm_num), zpow_natCast]
  push_cast
  ring

variable {d} (positive : d.coefficient ≠ 0)

include positive

theorem digits_ne_nil : d.digits ≠ [] := by
  intro empty
  obtain ⟨k, split⟩ := d.exists_zeros
  have zero := congrArg ofDigits split
  rw [empty, ofDigits_toDigits, ofDigits_append_zeros] at zero
  exact positive (zero.trans (Nat.zero_mul _))

theorem pow_pred_point_le : (10 : ℚ) ^ (d.point - 1) ≤ d.value := by
  have reached := Magnitude.pow_pred_length_toDigits_le positive
  have := Nat.length_toDigits_pos (b := 10) (n := d.coefficient)
  rw [show d.point - 1 = d.exponent + ((Nat.toDigits 10 d.coefficient).length - 1 : Nat) by
    unfold point
    omega]
  exact pow_le_value reached

omit positive in
theorem value_lt_pow_point : d.value < (10 : ℚ) ^ d.point :=
  value_lt_pow ((Nat.length_toDigits_le_iff (by decide) (Nat.length_toDigits_pos)).mp le_rfl)

/-- The point of a decimal that rounds neither to zero nor to infinity is near. -/
theorem natAbs_point_le (some : d.nearest ≠ .zero) (finite : d.nearest ≠ .infinity) :
    d.point.natAbs ≤ 330 := by
  have nearest := d.nearest_value
  by_contra far
  rcases Int.lt_or_le d.point 0 with before | after
  · exact some (nearest.unique (zero_nearest (by omega) d.value_lt_pow_point.le))
  · exact finite (nearest.unique (infinity_nearest (by omega) (pow_pred_point_le positive)))

end Decimal

/-! ### Reading the text of a number -/

namespace Numeral

theorem IsLetter.eq_of_isAlpha {c : Char} (letter : IsLetter c) (alpha : c.isAlpha = true) :
    c = 'e' ∨ c = 'E' := by
  rcases letter with digit | mark
  · unfold Char.isAlpha Char.isUpper Char.isLower at alpha
    simp only [Char.isDigit, Bool.or_eq_true, Bool.and_eq_true, decide_eq_true_eq, ge_iff_le,
      UInt32.le_iff_toNat_le, Char.reduceVal, UInt32.reduceToNat] at digit alpha
    omega
  · simp only [List.mem_cons, List.not_mem_nil, or_false] at mark
    rcases mark with rfl | rfl | rfl | rfl | rfl <;> simp_all

theorem read_text (n : Spelling) :
    read (String.ofList n.text) = .signed n.sign.negative n.counted.nearest :=
  n.read_of_trim (by rw [String.toList_ofList, n.trim_text])

/-- The sign that is written. -/
def Sign.ofBool (negative : Bool) : Sign := if negative then .minus else .none

theorem Sign.text_ofBool (negative : Bool) :
    (Sign.ofBool negative).text = if negative then ['-'] else [] := by
  cases negative <;> rfl

theorem Sign.negative_ofBool (negative : Bool) : (Sign.ofBool negative).negative = negative := by
  cases negative <;> rfl

/-- A finite magnitude is read back from its digits. -/
theorem read_layout_shortest {m : Magnitude} (negative : Bool) (some : m.isZero = false)
    (finite : m.isInfinite = false) :
    read (String.ofList ((if negative then ['-'] else []) ++
      layout m.shortest.digits m.shortest.point)) = .signed negative m := by
  have back : m.shortest.nearest = m := m.nearest_shortest (by simpa [Magnitude.isZero] using some)
  have positive := m.coefficient_shortest (by simpa [Magnitude.isZero] using some)
  obtain ⟨n, sign, laid⟩ := Spelling.exists_laysOut (Sign.ofBool negative)
    (Decimal.digits_ne_nil positive) m.shortest.isDigit_digits m.shortest.point
  have near := Decimal.natAbs_point_le positive
    (by rw [back]; rintro rfl; cases some) (by rw [back]; rintro rfl; cases finite)
  have value : n.value = m.shortest.value := laid.value.trans m.shortest.ofDigits_digits
  have same : n.counted.nearest = m := by
    have right := n.nearest_counted (laid.modest (.inr (by omega)))
    rw [value] at right
    have nearest := m.shortest.nearest_value
    rw [back] at nearest
    exact right.unique nearest
  rw [← Sign.text_ofBool, ← laid.body, ← sign]
  rw [show n.sign.text ++ n.body = n.text from rfl, read_text, same, sign, Sign.negative_ofBool]

/-- A number is read back from its text; the text of both zeros is that of zero. -/
theorem read_write (x : Double) : read (write x) = if x.equals .zero then .zero else x := by
  cases x with
  | nan => decide
  | signed negative m =>
    cases none : m.isZero with
    | true =>
      obtain rfl : m = .zero := Magnitude.eq_of_word (beq_iff_eq.mp none)
      cases negative <;> decide
    | false =>
      have other : (Double.signed negative m).equals .zero = false := by
        simp only [Magnitude.isZero, beq_eq_false_iff_ne] at none
        cases negative <;> simp [Double.equals, Double.rank, Double.zero, Magnitude.zero, none]
      rw [other, write]
      cases finite : m.isInfinite with
      | true =>
        obtain rfl : m = .infinity :=
          Magnitude.eq_of_word (beq_iff_eq.mp finite)
        cases negative <;> decide
      | false =>
        simp only [none, Bool.false_eq_true, if_false]
        exact read_layout_shortest negative none finite

theorem equals_self (x : Double) : x.equals x = !x.isNaN := by
  cases x <;> simp [Double.equals, Double.rank, Double.isNaN]

theorem looseEq_write (x : Double) :
    (Primitive.number x).looseEq (.text (write x)) = !x.isNaN := by
  simp only [Primitive.looseEq, Primitive.toNumber, read_write]
  split
  next zero =>
    rw [zero]
    cases x with
    | nan => cases zero
    | signed => rfl
  next => exact equals_self x

/-- The text of a number converts back to the number, a zero to the positive one, so a number
equals its own text unless it is NaN.  The text that is laid out for any digits and point is a
decimal numeral of exactly that value, with an exponent only where that of the first digit is below
-6 or at least 21, and it is read for that value. -/
theorem layout_faithful (h : Heap) (x : Double) (negative : Bool) {digits : List Char}
    (some_digit : digits ≠ []) (isDigit : ∀ c ∈ digits, c.isDigit = true) (point : Int) :
    (h.text (.number x) = some (write x) ∧
      h.number (.text (write x)) = some (if x.equals .zero then .zero else x) ∧
      h.looseEq (.number x) (.text (write x)) = some (!x.isNaN)) ∧
    ∃ n : Spelling, n.text = (if negative then ['-'] else []) ++ layout digits point ∧
      n.sign.negative = negative ∧
      n.value = ofDigits digits * 10 ^ (point - digits.length) ∧
      (n.exponent.isSome = true ↔ point - 1 < -6 ∨ 21 ≤ point - 1) ∧
      Text.trim n.text = n.text ∧ (∀ c ∈ n.text, c.isAlpha = true → c = 'e' ∨ c = 'E') ∧
      ∃ m, read (String.ofList n.text) = .signed negative m ∧
        (digits.length ≤ 65000 ∨ point.natAbs ≤ 655000 → m.Nearest n.value) := by
  refine ⟨⟨rfl, congrArg some (read_write x), congrArg some (looseEq_write x)⟩, ?_⟩
  obtain ⟨n, sign, laid⟩ := Spelling.exists_laysOut (.ofBool negative) some_digit isDigit point
  have sign_negative : n.sign.negative = negative := by rw [sign, Sign.negative_ofBool]
  refine ⟨n, ?_, sign_negative, laid.value, laid.exponent, n.trim_text,
    fun c mem => (n.isLetter c mem).eq_of_isAlpha, n.counted.nearest, ?_,
    fun modest => n.nearest_counted (laid.modest modest)⟩
  · rw [Spelling.text, sign, laid.body, Sign.text_ofBool]
  · rw [read_text, sign_negative]

theorem layout_faithful_sextillion :
    (Heap.text {} (.number .one) = some (write .one) ∧
      Heap.number {} (.text (write .one)) = some .one) ∧
    layout ['1', '5'] 22 = "1.5e+21".toList ∧
    ∃ n : Spelling, n.text = "-1.5e+21".toList ∧ n.value = 15 * 10 ^ (20 : Int) := by
  have digits : ∀ c ∈ ['1', '5'], c.isDigit = true := List.all_eq_true.mp (by decide)
  have ⟨⟨text, number, _⟩, n, spelled, _, value, _⟩ :=
    layout_faithful {} .one true (by decide) digits 22
  exact ⟨⟨text, number.trans (by decide +kernel)⟩, by decide, n, spelled.trans (by decide),
    value.trans (by rw [show ofDigits ['1', '5'] = 15 from rfl]; norm_num)⟩

end Numeral

end ReactiveQuery
