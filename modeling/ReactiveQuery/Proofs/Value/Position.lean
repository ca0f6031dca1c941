import ReactiveQuery.Proofs.Double.Whole
import ReactiveQuery.Proofs.Text.Layout
import ReactiveQuery.Value.Access

/-! Numbers as keys.  A number and its text name the same position below `2 ^ 53`, and neither names
any in a list that is shorter where the other names a position beyond.  So they find the same. -/

namespace ReactiveQuery

namespace Numeral

variable {cs digits : List Char} {point : Int} {i : Nat}

/-- Digits name a position that 64 bits can hold. -/
theorem index?_digits (some_digit : cs ≠ []) (isDigit : ∀ c ∈ cs, c.isDigit = true) :
    index? (String.ofList cs) = if ofDigits cs < bound64 then some (ofDigits cs) else none := by
  obtain ⟨c, rest, rfl⟩ := List.exists_cons_of_ne_nil some_digit
  have unsigned : c ≠ '+' := by
    rintro rfl
    exact absurd (isDigit '+' List.mem_cons_self) (by decide)
  have all : (c :: rest).all Char.isDigit = true := List.all_eq_true.mpr isDigit
  unfold index?
  rw [String.toList_ofList]
  split
  next same => exact absurd (List.cons.inj same).1 unsigned
  next => simp [all]

/-- What holds anything but digits names no position, unless it begins with a plus. -/
theorem index?_eq_none (unsigned : cs.head? ≠ some '+') {d : Char} (member : d ∈ cs)
    (other : d.isDigit = false) : index? (String.ofList cs) = none := by
  have not_all : cs.all Char.isDigit = false :=
    List.all_eq_false.mpr ⟨d, member, by simp [other]⟩
  unfold index?
  rw [String.toList_ofList]
  split
  next rest => exact absurd rfl unsigned
  next => simp [not_all]

/-- The layout of a whole number names it. -/
theorem index?_layout_whole (some_digit : digits ≠ []) (isDigit : ∀ c ∈ digits, c.isDigit = true)
    (past : digits.length ≤ point) (near : point ≤ 21) :
    index? (String.ofList (layout digits point)) =
      if ofDigits digits * 10 ^ (point - digits.length).toNat < bound64 then
        some (ofDigits digits * 10 ^ (point - digits.length).toNat)
      else none := by
  rw [layout, if_pos ⟨past, near⟩, index?_digits (by simp [some_digit])
    fun c member => (List.mem_append.mp member).elim (isDigit c) isDigit_zeros, zeros,
    ofDigits_append_zeros]

/-- Every other layout has a point or an exponent, and names nothing. -/
theorem index?_layout_eq_none (some_digit : digits ≠ []) (isDigit : ∀ c ∈ digits, c.isDigit = true)
    (apart : ¬(digits.length ≤ point ∧ point ≤ 21)) :
    index? (String.ofList (layout digits point)) = none := by
  obtain ⟨c, rest, rfl⟩ := List.exists_cons_of_ne_nil some_digit
  have unsigned : c ≠ '+' := by
    rintro rfl
    exact absurd (isDigit '+' List.mem_cons_self) (by decide)
  rw [layout, if_neg apart]
  split
  next inside =>
    obtain ⟨k, first⟩ := Nat.exists_eq_succ_of_ne_zero (n := point.toNat) (by omega)
    rw [first]
    exact index?_eq_none (d := '.') (by simp [unsigned]) (by simp) rfl
  next =>
    split
    · exact index?_eq_none (d := '.') (by simp) (by simp) rfl
    · exact index?_eq_none (d := 'e') (by simp [unsigned]) (by simp) rfl

end Numeral

open Numeral

/-- With all digits before the point, they and the zeros up to it stand for the decimal. -/
theorem Decimal.ofDigits_digits_of_past (d : Decimal) (past : d.digits.length ≤ d.point) :
    ((ofDigits d.digits * 10 ^ (d.point - d.digits.length).toNat : Nat) : ℚ) = d.value := by
  rw [← d.ofDigits_digits]
  obtain ⟨k, places⟩ := Int.eq_ofNat_of_zero_le (Int.sub_nonneg.mpr past)
  simp [places]

theorem Decimal.digits_past (d : Decimal) (whole : 0 ≤ d.exponent) : d.digits.length ≤ d.point := by
  obtain ⟨k, split⟩ := d.exists_zeros
  rw [point, split, List.length_append, List.length_replicate]
  omega

namespace Magnitude

variable {m : Magnitude} {i : Nat}

/-- What is written for a magnitude names a position below `2 ^ 53` when it is that number. -/
theorem index?_layout_shortest (present : m.word ≠ 0) (small : i < 2 ^ 53) :
    index? (String.ofList (layout m.shortest.digits m.shortest.point)) = some i ↔
      i ≠ 0 ∧ m.value = i := by
  have positive := coefficient_shortest present
  have some_digit := Decimal.digits_ne_nil positive
  have isDigit := m.shortest.isDigit_digits
  constructor
  · intro found
    -- Only a number written with no point and no exponent is read as a position.
    by_cases plain : m.shortest.digits.length ≤ m.shortest.point ∧ m.shortest.point ≤ 21
    · have value := m.shortest.ofDigits_digits_of_past plain.1
      rw [index?_layout_whole some_digit isDigit plain.1 plain.2] at found
      simp only [Option.ite_none_right_eq_some, Option.some.injEq] at found
      rw [found.2] at value
      have nearest := m.shortest.nearest_value
      rw [nearest_shortest present, ← value] at nearest
      refine ⟨?_, (nearest.value_eq_iff small).mpr rfl⟩
      rintro rfl
      have zero : m.shortest.value ≠ 0 := by
        unfold Decimal.value
        positivity
      exact zero value.symm
    · rw [index?_layout_eq_none some_digit isDigit plain] at found
      cases found
  · rintro ⟨nonzero, whole⟩
    obtain ⟨exponent, value⟩ := shortest_of_whole whole nonzero small
    have past := m.shortest.digits_past exponent
    have near : m.shortest.point ≤ 21 := by
      have reached := Decimal.pow_pred_point_le positive
      rw [value] at reached
      by_contra far
      have large : (10 : ℚ) ^ (21 : Int) ≤ 10 ^ (m.shortest.point - 1) :=
        zpow_le_zpow_right₀ (by norm_num) (by omega)
      have small' : (i : ℚ) < 10 ^ (21 : Int) := by
        have less : i < 10 ^ 21 := Nat.lt_trans small (by decide)
        exact_mod_cast less
      linarith
    have same : ofDigits m.shortest.digits *
        10 ^ (m.shortest.point - m.shortest.digits.length).toNat = i := by
      have all := m.shortest.ofDigits_digits_of_past past
      rw [value] at all
      exact_mod_cast all
    rw [index?_layout_whole some_digit isDigit past near, same, if_pos]
    exact Nat.lt_trans small (by decide)

theorem value_eq_iff_floor (finite : m.isInfinite = false) :
    m.value = i ↔ m.isWhole = true ∧ m.floor = i := by
  rw [isWhole, finite, Bool.not_false, Bool.true_and, beq_iff_eq, floor]
  constructor
  · intro whole
    rw [units_of_value whole]
    exact ⟨Nat.mul_mod_left i _, Nat.mul_div_cancel i unitsPerOne_pos⟩
  · rintro ⟨rest, quotient⟩
    have split := Nat.div_add_mod m.units unitsPerOne
    rw [rest, quotient, Nat.add_zero] at split
    rw [value, ← split, Nat.cast_mul]
    exact mul_div_cancel_left₀ _ (by exact_mod_cast unitsPerOne_pos.ne')

end Magnitude

namespace Double

variable {x : Double} {i : Nat}

theorem toIndex?_signed {m : Magnitude} (present : m.word ≠ 0) (finite : m.isInfinite = false)
    (small : i < bound64) (negative : Bool) :
    (Double.signed negative m).toIndex? = some i ↔ negative = false ∧ m.value = i := by
  rw [toIndex?, toInt?]
  by_cases whole : m.isWhole = true
  · have value : m.value = m.floor := (Magnitude.value_eq_iff_floor finite).mpr ⟨whole, rfl⟩
    have positive : 0 < m.units :=
      Magnitude.unitsOfWord_strictMono (Nat.pos_of_ne_zero present)
    rw [Magnitude.units_of_value value] at positive
    obtain ⟨k, floor⟩ := Nat.exists_eq_succ_of_ne_zero (Nat.pos_of_mul_pos_right positive).ne'
    rw [value, if_pos whole, floor, Nat.cast_inj]
    cases negative with
    | true => exact ⟨nofun, nofun⟩
    | false =>
      change (if k.succ < bound64 then some k.succ else none) = _ ↔ _
      split
      · simp
      · simp only [reduceCtorEq, true_and, false_iff]
        omega
  · rw [if_neg whole, Magnitude.value_eq_iff_floor finite]
    simp [whole]

/-- A number and its text name the same positions below `2 ^ 53`. -/
theorem index?_write (x : Double) (small : i < 2 ^ 53) :
    index? (write x) = some i ↔ x.toIndex? = some i := by
  cases x with
  | nan =>
    rw [show index? (write .nan) = none by decide]
    exact ⟨nofun, nofun⟩
  | signed negative m =>
    cases zero : m.isZero with
    | true =>
      obtain rfl : m = .zero := Magnitude.eq_of_word (beq_iff_eq.mp zero)
      have named : (Double.signed negative .zero).toIndex? = some 0 := by
        cases negative <;> decide
      have spelled : index? (write (.signed negative .zero)) = some 0 := by
        cases negative <;> decide
      rw [named, spelled]
    | false =>
      have present : m.word ≠ 0 := beq_eq_false_iff_ne.mp zero
      cases finite : m.isInfinite with
      | true =>
        obtain rfl : m = .infinity := Magnitude.eq_of_word (beq_iff_eq.mp finite)
        have unnamed : (Double.signed negative .infinity).toIndex? = none := by
          cases negative <;> decide
        have spelled : index? (write (.signed negative .infinity)) = none := by
          cases negative <;> decide
        rw [unnamed, spelled]
      | false =>
        rw [toIndex?_signed present finite (Nat.lt_trans small (by decide)), write, zero, finite]
        cases negative with
        | true =>
          have unnamed : index? (String.ofList ('-' ::
              layout m.shortest.digits m.shortest.point)) = none :=
            index?_eq_none (d := '-') (by simp) (by simp) rfl
          change index? (String.ofList ('-' :: layout m.shortest.digits m.shortest.point)) = _ ↔ _
          simp only [unnamed, reduceCtorEq, false_and]
        | false =>
          have named := Magnitude.index?_layout_shortest present small
          simp only [Bool.false_eq_true, if_false, List.nil_append, true_and]
          refine named.trans ⟨And.right, fun whole => ⟨?_, whole⟩⟩
          rintro rfl
          have positive : 0 < m.units :=
            Magnitude.unitsOfWord_strictMono (Nat.pos_of_ne_zero present)
          rw [Magnitude.units_of_value whole, Nat.zero_mul] at positive
          exact Nat.lt_irrefl 0 positive

/-- The text of a number is not the name under which a list tells its length. -/
theorem write_ne_length (x : Double) : write x ≠ "length" := by
  intro same
  have back := read_write x
  rw [same, show read "length" = .nan by decide] at back
  split at back
  · cases back
  · rw [← back] at same
    exact absurd same (by decide)

end Double

namespace Heap

variable {items : List Value}

theorem itemAt_eq {key : Value} (other : key ≠ .text "length") :
    itemAt items key = (key.index?.bind fun i => items[i]?).getD .null := by
  unfold itemAt
  split
  next found => rw [found, Option.bind_some]
  next => exact absurd rfl other
  next unnamed => rw [unnamed, Option.bind_none, Option.getD_none]

/-- In a list of less than `2 ^ 53` items a number finds what its text finds. -/
theorem itemAt_write (small : items.length < 2 ^ 53) (x : Double) :
    itemAt items (.text (write x)) = itemAt items (.number x) := by
  have other : Value.text (write x) ≠ .text "length" := by simpa using x.write_ne_length
  have other' : Value.number x ≠ .text "length" := by simp
  rw [itemAt_eq other, itemAt_eq other']
  congr 1
  refine Option.ext fun v => ?_
  simp only [Option.bind_eq_some_iff, Value.index?]
  refine exists_congr fun i => and_congr_left fun found => x.index?_write ?_
  exact Nat.lt_trans (List.getElem?_eq_some_iff.mp found).1 small

/-- How many positions a value has. -/
def extent (h : Heap) : Value → Nat
  | .array _ items => items.length
  | .collection r => (h.items r).length
  | .text s => s.toList.length
  | _ => 0

/-- In a value with less than `2 ^ 53` positions a number, as a key, finds what its text finds. -/
theorem read_spelled (h : Heap) (v : Value) (x : Double) (small : h.extent v < 2 ^ 53) :
    ∃ s found, h.text (.number x) = some s ∧ h.read v (.number x) = some found ∧
      h.read v (.text s) = some found := by
  have spelled : h.text (.number x) = some (write x) := rfl
  have itself : h.text (.text (write x)) = some (write x) := rfl
  refine ⟨write x, ?_⟩
  cases v with
  | record r =>
    exact ⟨(FieldMap.get? (write x) (h.fields r)).getD .null, spelled, by simp [read, spelled],
      by simp [read, itself]⟩
  | object tag fields =>
    exact ⟨(FieldMap.get? (write x) fields).getD .null, spelled, by simp [read, spelled],
      by simp [read, itself]⟩
  | array tag items => exact ⟨_, spelled, rfl, congrArg some (itemAt_write small x)⟩
  | collection r => exact ⟨_, spelled, rfl, congrArg some (itemAt_write small x)⟩
  | text s =>
    refine ⟨_, spelled, rfl, congrArg some (itemAt_write ?_ x)⟩
    rwa [List.length_map]
  | _ => exact ⟨.null, spelled, rfl, rfl⟩

/-- The second letter of a text, under a number and under its text. -/
theorem read_spelled_letter :
    ({} : Heap).extent (.text "ab") < 2 ^ 53 ∧
      ({} : Heap).read (.text "ab") (.number .one) = some (.text "b") ∧
      ∃ s, ({} : Heap).text (.number .one) = some s ∧
        ({} : Heap).read (.text "ab") (.text s) = some (.text "b") := by
  have short : ({} : Heap).extent (.text "ab") < 2 ^ 53 := by decide
  have second : Double.one.toIndex? = some 1 := by decide +kernel
  have letter : ({} : Heap).read (.text "ab") (.number .one) = some (.text "b") := by
    simp [read, itemAt, Value.index?, second]
  obtain ⟨s, found, spelled, here, there⟩ := read_spelled {} (.text "ab") .one short
  obtain rfl := Option.some.inj (here.symm.trans letter)
  exact ⟨short, letter, s, spelled, there⟩

end Heap

end ReactiveQuery
