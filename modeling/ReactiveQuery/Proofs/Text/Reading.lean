import ReactiveQuery.Proofs.Text.Spelling

/-! What a numeral reads as: the magnitude nearest to the decimal that it denotes, as long as the
exponent or the digits are few enough to be counted. -/

namespace ReactiveQuery

namespace Numeral

theorem ofDigits_concat (cs : List Char) (c : Char) :
    ofDigits (cs ++ [c]) = 10 * ofDigits cs + digitValue c := by
  simp [ofDigits]

theorem exponentSize_concat (cs : List Char) (c : Char) : exponentSize (cs ++ [c]) =
    if exponentSize cs < 0x10000 then 10 * exponentSize cs + digitValue c else exponentSize cs := by
  unfold exponentSize
  rw [List.foldl_append]
  rfl

/-- The digits of an exponent are counted right, or both counts are beyond every magnitude. -/
theorem exponentSize_cases (cs : List Char) : exponentSize cs = ofDigits cs ∨
    0x10000 ≤ exponentSize cs ∧ 655360 ≤ ofDigits cs := by
  induction cs using List.reverseRecOn with
  | nil => exact .inl rfl
  | append_singleton cs c ih =>
    rw [ofDigits_concat, exponentSize_concat]
    split <;> omega

theorem digitValue_lt {c : Char} (digit : c.isDigit = true) : digitValue c < 10 := by
  have := Char.isDigit_iff_toNat.mp digit
  simp only [digitValue, Char.reduceToNat] at this ⊢
  omega

theorem ofDigits_lt {cs : List Char} (isDigit : ∀ c ∈ cs, c.isDigit = true) :
    ofDigits cs < 10 ^ cs.length := by
  induction cs using List.reverseRecOn with
  | nil => exact Nat.one_pos
  | append_singleton cs c ih =>
    have last := digitValue_lt (isDigit c (by simp))
    have rest := ih fun d mem => isDigit d (by simp [mem])
    rw [ofDigits_concat, List.length_append, List.length_singleton, Nat.pow_succ]
    omega

namespace Spelling

variable (n : Spelling)

theorem counted_eq (modest : ∀ e ∈ n.exponent, ofDigits e.digits < 655360) :
    n.counted = n.decimal ofDigits := by
  unfold counted decimal
  cases he : n.exponent with
  | none => rfl
  | some e =>
    have := (exponentSize_cases e.digits).resolve_right fun far => by
      have := modest e he
      omega
    simp only [scale, Exponent.scale, this]

/-- With an exponent of five digits and few digits in front of it, how far it goes beyond makes no
difference. -/
theorem exists_nearest_far {e : Exponent} (he : n.exponent = some e)
    (few : n.digits.length ≤ 65000) : ∃ m : Magnitude, ∀ size : List Char → Nat,
      65536 ≤ size e.digits → m.Nearest (n.decimal size).value := by
  have below : ofDigits n.digits < 10 ^ n.digits.length := ofDigits_lt n.isDigit
  by_cases none : ofDigits n.digits = 0
  · refine ⟨.zero, fun size _ => Decimal.zero_nearest le_rfl ?_⟩
    simp only [Decimal.value, decimal, none, Nat.cast_zero, zero_mul]
    positivity
  cases negative : e.sign.negative with
  | true =>
    refine ⟨.zero, fun size far => Decimal.zero_nearest ?_ (Decimal.value_lt_pow below).le⟩
    simp only [decimal, he, scale, Exponent.scale, negative, if_true]
    omega
  | false =>
    have places : (n.fraction.getD []).length ≤ 65000 := by
      rw [digits, List.length_append] at few
      omega
    refine ⟨.infinity, fun size far =>
      Decimal.infinity_nearest ?_ (Decimal.pow_le_value (k := 0) (Nat.pos_of_ne_zero none))⟩
    simp only [decimal, he, scale, Exponent.scale, negative, Bool.false_eq_true, if_false]
    omega

/-- Not both the digits and the exponent are more than are counted. -/
def Modest : Prop := n.digits.length ≤ 65000 ∨ ∀ e ∈ n.exponent, ofDigits e.digits < 655360

/-- The reader finds the nearest magnitude, however long the numeral or its exponent is. -/
theorem nearest_counted (modest : n.Modest) : n.counted.nearest.Nearest n.value := by
  have counted := n.counted.nearest_value
  by_cases small : ∀ e ∈ n.exponent, ofDigits e.digits < 655360
  · rwa [counted_eq n small] at counted ⊢
  obtain ⟨e, he, far⟩ : ∃ e, n.exponent = some e ∧ 655360 ≤ ofDigits e.digits := by
    simpa using small
  have sizes : 0x10000 ≤ exponentSize e.digits := by
    rcases exponentSize_cases e.digits with same | far
    · omega
    · exact far.1
  obtain ⟨m, nearest⟩ := exists_nearest_far n he (modest.resolve_right small)
  rw [counted.unique (nearest _ sizes)]
  exact nearest _ (by omega)

theorem trim_text : Text.trim n.text = n.text := by
  have blank : ∀ c ∈ n.text, Text.isBlank c = false := fun c mem => (n.isLetter c mem).isBlank
  have trimmed : Text.trim ([] ++ n.text ++ []) = n.text := Text.trim_append (by simp)
    (fun c head => blank c (List.mem_of_mem_head? head))
    (fun c last => blank c (List.mem_of_mem_getLast? last)) (by simp)
  simpa using trimmed

theorem text_ne_nil : n.text ≠ [] := by
  intro empty
  have whole : n.whole = [] := by simp_all [text, body]
  have point : pointText n.fraction = [] := by simp_all [text, body]
  cases hf : n.fraction with
  | none => exact n.some_digit (by simp [whole, hf])
  | some ds => simp [hf, pointText] at point

/-- A numeral between blanks is read as a decimal. -/
theorem read_of_trim {s : String} (spelled : Text.trim s.toList = n.text) :
    read s = .signed n.sign.negative n.counted.nearest := by
  have letter {c : Char} {cs : List Char} (same : n.text = cs) (mem : c ∈ cs) : IsLetter c :=
    n.isLetter c (same ▸ mem)
  rw [← ofDecimal_text, read, spelled]
  split
  next empty => exact absurd empty n.text_ne_nil
  next cs same => exact absurd (letter same (c := 'x') (by simp)) (by decide)
  next cs same => exact absurd (letter same (c := 'X') (by simp)) (by decide)
  next =>
    have finite {cs : List Char} (mem : 'I' ∈ cs) : (n.text == cs) = false :=
      beq_false_of_ne fun same => absurd (letter same mem) (by decide)
    rw [finite (by decide), finite (by decide), finite (by decide)]
    rfl

end Spelling

end Numeral

end ReactiveQuery
