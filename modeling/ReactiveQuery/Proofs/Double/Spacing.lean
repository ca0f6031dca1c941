import Mathlib.Algebra.Order.Ring.Nat
import Mathlib.Data.Nat.Log
import ReactiveQuery.Double.Basic

/-! The spacing of magnitudes.  Words count steps: one word further is one step further in units, and
steps grow with the words, so that every magnitude is at most `2 ^ 53` of the steps before it. -/

namespace ReactiveQuery.Magnitude

/-- How many units the next word is away. -/
def spacing (word : Nat) : Nat := 2 ^ (word / stride - 1)

theorem spacing_pos (word : Nat) : 0 < spacing word := Nat.two_pow_pos _

theorem spacing_mono {v w : Nat} (le : v ≤ w) : spacing v ≤ spacing w :=
  Nat.pow_le_pow_right (by decide) (Nat.sub_le_sub_right (Nat.div_le_div_right le) 1)

/-- Up to two strides from the beginning of its spacing a word counts steps. -/
theorem unitsOfWord_steps {shift steps : Nat} (normal : shift = 0 ∨ stride ≤ steps)
    (inside : steps ≤ 2 * stride) : unitsOfWord (shift * stride + steps) = steps * 2 ^ shift := by
  unfold unitsOfWord
  rcases Nat.lt_or_ge (shift * stride + steps) stride with small | large
  · have first : shift = 0 := by
      rcases Nat.eq_zero_or_pos shift with first | later
      · exact first
      · have := Nat.le_mul_of_pos_left stride later
        omega
    rw [if_pos small, first, Nat.zero_mul, Nat.zero_add, Nat.pow_zero, Nat.mul_one]
  rw [if_neg (Nat.not_lt.mpr large), Nat.shiftLeft_eq]
  rcases Nat.lt_or_ge steps (2 * stride) with within | past
  · have split : shift * stride + steps = stride * (shift + 1) + (steps - stride) := by
      rw [Nat.mul_add_one, Nat.mul_comm]
      rcases normal with rfl | normal <;> omega
    have rest : steps - stride < stride := by omega
    have reached : stride ≤ steps := by
      rcases normal with rfl | normal
      · simpa using large
      · exact normal
    rw [split, Nat.mul_add_div (by decide), Nat.mul_add_mod, Nat.mod_eq_of_lt rest,
      Nat.div_eq_of_lt rest, Nat.add_zero, Nat.add_sub_cancel, Nat.add_sub_cancel' reached]
  · obtain rfl := Nat.le_antisymm inside past
    have split : shift * stride + 2 * stride = stride * (shift + 2) := by
      rw [Nat.mul_comm, Nat.mul_comm 2, ← Nat.mul_add]
    rw [split, Nat.mul_div_cancel_left _ (by decide), Nat.mul_mod_right, Nat.add_zero,
      show shift + 2 - 1 = shift + 1 from rfl, Nat.pow_succ, Nat.mul_comm 2, Nat.mul_assoc,
      Nat.mul_comm 2]

/-- The spacing of a word and its place among those with this spacing. -/
theorem exists_steps (word : Nat) : ∃ steps, (word / stride - 1 = 0 ∨ stride ≤ steps) ∧
    steps < 2 * stride ∧ word = (word / stride - 1) * stride + steps := by
  have split := Nat.div_add_mod word stride
  have rest : word % stride < stride := Nat.mod_lt _ (by decide)
  cases here : word / stride with
  | zero =>
    rw [here] at split
    exact ⟨word, .inl rfl, by omega, by simp⟩
  | succ n =>
    rw [here, Nat.mul_comm, Nat.add_one_mul] at split
    exact ⟨stride + word % stride, .inr (Nat.le_add_right ..), by omega, by
      rw [Nat.add_sub_cancel]; omega⟩

theorem unitsOfWord_succ (word : Nat) :
    unitsOfWord (word + 1) = unitsOfWord word + spacing word := by
  obtain ⟨steps, normal, inside, split⟩ := exists_steps word
  have next : word + 1 = (word / stride - 1) * stride + (steps + 1) := by omega
  have later : word / stride - 1 = 0 ∨ stride ≤ steps + 1 := normal.imp_right Nat.le_succ_of_le
  rw [next, unitsOfWord_steps later inside, Nat.add_one_mul]
  conv_rhs => rw [split, unitsOfWord_steps normal (Nat.le_of_lt inside), ← split]
  rfl

theorem unitsOfWord_strictMono : StrictMono unitsOfWord :=
  strictMono_nat_of_lt_succ fun word => by
    rw [unitsOfWord_succ]
    exact Nat.lt_add_of_pos_right (spacing_pos word)

/-- The next magnitude is at most `2 ^ 53` steps of the spacing. -/
theorem unitsOfWord_succ_le (word : Nat) :
    unitsOfWord (word + 1) ≤ 2 * stride * spacing word := by
  obtain ⟨steps, normal, inside, split⟩ := exists_steps word
  have here : unitsOfWord word = steps * spacing word := by
    conv_lhs => rw [split, unitsOfWord_steps normal (Nat.le_of_lt inside)]
    rfl
  calc unitsOfWord (word + 1) = (steps + 1) * spacing word := by
        rw [unitsOfWord_succ, here, Nat.add_one_mul]
    _ ≤ 2 * stride * spacing word := Nat.mul_le_mul_right _ inside

end ReactiveQuery.Magnitude
