import Mathlib.Algebra.Order.Field.Basic
import Mathlib.Algebra.Order.Field.Rat
import Mathlib.Data.Rat.Cast.Order
import Mathlib.Tactic.Linarith
import Mathlib.Tactic.Ring
import ReactiveQuery.Proofs.Double.Spacing

/-! Rounding.  A number rounds to the magnitude that is nearest to it, and from the middle between two
of them to the one with the even word.  Infinity stands where the number after the last finite one
would stand, so what is nearer to that place is too large. -/

namespace ReactiveQuery.Magnitude

/-- The number that a magnitude stands for. -/
def value (m : Magnitude) : ℚ := m.units / unitsPerOne

/-- The magnitude that a number rounds to: none is nearer, and when another one is as near, the word
is even. -/
structure Nearest (m : Magnitude) (x : ℚ) : Prop where
  near : ∀ n : Magnitude, |x - m.value| ≤ |x - n.value|
  even : ∀ n : Magnitude, n ≠ m → |x - n.value| = |x - m.value| → m.word % 2 = 0

theorem unitsPerOne_pos : 0 < unitsPerOne := by decide

section
variable {m n : Magnitude} {x : ℚ}

/-- Distances in units. -/
theorem abs_sub_value (m : Magnitude) (x : ℚ) :
    |x - m.value| = |x * unitsPerOne - m.units| / unitsPerOne := by
  have pos : (0 : ℚ) < unitsPerOne := by exact_mod_cast unitsPerOne_pos
  rw [← abs_of_pos pos, ← abs_div, abs_of_pos pos, sub_div, mul_div_cancel_right₀ _ pos.ne', value]

theorem nearest_iff : m.Nearest x ↔
    (∀ n : Magnitude, |x * unitsPerOne - m.units| ≤ |x * unitsPerOne - n.units|) ∧
      ∀ n : Magnitude, n ≠ m → |x * unitsPerOne - n.units| = |x * unitsPerOne - m.units| →
        m.word % 2 = 0 := by
  have pos : (0 : ℚ) < unitsPerOne := by exact_mod_cast unitsPerOne_pos
  constructor
  · rintro ⟨near, even⟩
    refine ⟨fun n => ?_, fun n other same => even n other ?_⟩
    · have := near n
      rwa [abs_sub_value, abs_sub_value, div_le_div_iff_of_pos_right pos] at this
    · rw [abs_sub_value, abs_sub_value, same]
  · rintro ⟨near, even⟩
    refine ⟨fun n => ?_, fun n other same => even n other ?_⟩
    · rw [abs_sub_value, abs_sub_value, div_le_div_iff_of_pos_right pos]
      exact near n
    · rwa [abs_sub_value, abs_sub_value, div_left_inj' pos.ne'] at same

theorem eq_of_word (same : m.word = n.word) : m = n := by
  cases m
  cases n
  cases same
  rfl

theorem units_lt (less : m.word < n.word) : m.units < n.units := unitsOfWord_strictMono less

/-- Of two magnitudes to which one number rounds neither comes first: they are no neighbours, as both
have even words, and what lies between them is nearer. -/
theorem Nearest.not_lt (left : m.Nearest x) (right : n.Nearest x) : ¬m.word < n.word := by
  intro less
  obtain ⟨near, even⟩ := nearest_iff.mp left
  obtain ⟨near', even'⟩ := nearest_iff.mp right
  have same := le_antisymm (near n) (near' m)
  have different : n ≠ m := fun h => absurd less (by rw [h]; exact Nat.lt_irrefl _)
  have parity := even n different same.symm
  have parity' := even' m different.symm same
  let between : Magnitude := ⟨m.word + 1, by have := n.le_top; omega⟩
  have first : (m.units : ℚ) < between.units := by
    exact_mod_cast units_lt (n := between) (Nat.lt_succ_self m.word)
  have second : (between.units : ℚ) < n.units := by
    exact_mod_cast units_lt (m := between) (by change m.word + 1 < n.word; omega)
  have nearer := near between
  rcases abs_eq_abs.mp same with same | same
  · linarith
  · rw [abs_of_pos (by linarith), le_abs] at nearer
    rcases nearer with nearer | nearer <;> linarith

/-- A number rounds to one magnitude. -/
theorem Nearest.unique (left : m.Nearest x) (right : n.Nearest x) : m = n :=
  eq_of_word (Nat.le_antisymm (Nat.le_of_not_lt (right.not_lt left))
    (Nat.le_of_not_lt (left.not_lt right)))

end

/-- `p / q` units lie between the midpoints of a word and its neighbours; on a midpoint the word is
even.  Nothing lies above infinity. -/
structure Between (word p q : Nat) : Prop where
  above : (unitsOfWord (word - 1) + unitsOfWord word) * q ≤ 2 * p
  below : word = topWord ∨ 2 * p ≤ (unitsOfWord word + unitsOfWord (word + 1)) * q
  even : 2 * p = (unitsOfWord (word - 1) + unitsOfWord word) * q ∨
    2 * p = (unitsOfWord word + unitsOfWord (word + 1)) * q → word % 2 = 0

section
variable {m : Magnitude} {p q : Nat} {x : ℚ}

/-- Nothing on the far side of a midpoint is as near. -/
theorem near_of_midpoint {a b c y : ℚ} (far : a ≤ b) (less : b < c) (middle : b + c ≤ 2 * y) :
    |y - c| ≤ |y - a| ∧ (|y - a| = |y - c| → 2 * y = b + c) := by
  have right : |y - a| = y - a := abs_of_nonneg (by linarith)
  rw [right]
  rcases le_or_gt c y with beyond | before
  · rw [abs_of_nonneg (by linarith)]
    exact ⟨by linarith, fun _ => by linarith⟩
  · rw [abs_of_neg (by linarith)]
    exact ⟨by linarith, fun _ => by linarith⟩

section
variable (pos : (0 : ℚ) < q)
include pos

theorem cast_le_twice_div (n : Nat) : (n : ℚ) ≤ 2 * (p / q) ↔ n * q ≤ 2 * p := by
  rw [← mul_div_assoc, le_div_iff₀ pos]
  exact_mod_cast Iff.rfl

theorem twice_div_le_cast (n : Nat) : 2 * ((p : ℚ) / q) ≤ n ↔ 2 * p ≤ n * q := by
  rw [← mul_div_assoc, div_le_iff₀ pos]
  exact_mod_cast Iff.rfl

theorem twice_div_eq_cast (n : Nat) : 2 * ((p : ℚ) / q) = n ↔ 2 * p = n * q := by
  rw [← mul_div_assoc, div_eq_iff pos.ne']
  exact_mod_cast Iff.rfl

/-- Magnitudes below lie beyond the lower midpoint. -/
theorem Between.nearer_than_less (between : Between m.word p q) {n : Magnitude}
    (less : n.word < m.word) : |(p / q : ℚ) - m.units| ≤ |(p / q : ℚ) - n.units| ∧
      (|(p / q : ℚ) - n.units| = |(p / q : ℚ) - m.units| → m.word % 2 = 0) := by
  have far : (n.units : ℚ) ≤ unitsOfWord (m.word - 1) := by
    exact_mod_cast unitsOfWord_strictMono.monotone (Nat.le_sub_one_of_lt less)
  have step : (unitsOfWord (m.word - 1) : ℚ) < m.units := by
    exact_mod_cast unitsOfWord_strictMono (Nat.sub_one_lt_of_lt less)
  have above := (cast_le_twice_div pos _).mpr between.above
  rw [Nat.cast_add] at above
  obtain ⟨nearer, tie⟩ := near_of_midpoint far step above
  refine ⟨nearer, fun equal => between.even (.inl ((twice_div_eq_cast pos _).mp ?_))⟩
  rw [Nat.cast_add]
  exact tie equal

/-- Magnitudes above lie beyond the upper midpoint, which there is below infinity. -/
theorem Between.nearer_than_more (between : Between m.word p q) {n : Magnitude}
    (more : m.word < n.word) : |(p / q : ℚ) - m.units| ≤ |(p / q : ℚ) - n.units| ∧
      (|(p / q : ℚ) - n.units| = |(p / q : ℚ) - m.units| → m.word % 2 = 0) := by
  have far : (unitsOfWord (m.word + 1) : ℚ) ≤ n.units := by
    exact_mod_cast unitsOfWord_strictMono.monotone more
  have step : (m.units : ℚ) < unitsOfWord (m.word + 1) := by
    exact_mod_cast unitsOfWord_strictMono (Nat.lt_succ_self m.word)
  have finite : m.word ≠ topWord := fun top => by
    have := n.le_top
    omega
  have below := (twice_div_le_cast pos _).mpr (between.below.resolve_left finite)
  have parts : ((unitsOfWord m.word + unitsOfWord (m.word + 1) : Nat) : ℚ) =
      m.units + unitsOfWord (m.word + 1) := Nat.cast_add ..
  rw [parts] at below
  -- The same as below, seen from the other side.
  obtain ⟨nearer, tie⟩ := near_of_midpoint (neg_le_neg far) (neg_lt_neg step)
    (y := -((p : ℚ) / q)) (by linarith)
  simp only [← neg_sub', abs_neg] at nearer tie
  refine ⟨nearer, fun equal => between.even (.inr ((twice_div_eq_cast pos _).mp ?_))⟩
  rw [parts]
  linarith [tie equal]

end

theorem Between.nearest (between : Between m.word p q) (pos : 0 < q)
    (same : x * unitsPerOne = p / q) : m.Nearest x := by
  have pos : (0 : ℚ) < q := by exact_mod_cast pos
  rw [nearest_iff, same]
  constructor
  · intro n
    rcases Nat.lt_trichotomy n.word m.word with less | equal | more
    · exact (between.nearer_than_less pos less).1
    · rw [units, units, equal]
    · exact (between.nearer_than_more pos more).1
  · intro n other equal
    rcases Nat.lt_or_gt_of_ne (fun words => other (eq_of_word words)) with less | more
    · exact (between.nearer_than_less pos less).2 equal
    · exact (between.nearer_than_more pos more).2 equal

/-- A word at whose lower end or beyond `p / q` units begin, with the steps that fit under them. -/
theorem steps_of_log (p q : Nat) :
    let shift := (p / q).log2 - 52
    let floor := p / (q <<< shift)
    (shift = 0 ∨ stride ≤ floor) ∧ floor < 2 * stride := by
  dsimp only
  have halves : 2 * stride = 2 ^ 53 := by decide
  rw [Nat.shiftLeft_eq, ← Nat.div_div_eq_div_mul]
  have upper : p / q < 2 ^ ((p / q).log2 + 1) := Nat.lt_log2_self
  rcases Nat.lt_or_ge 52 (p / q).log2 with large | small
  · obtain ⟨k, here⟩ := Nat.exists_eq_add_of_lt large
    have lower : 2 ^ (p / q).log2 ≤ p / q := Nat.log2_self_le fun zero => by simp [zero] at large
    rw [show (p / q).log2 - 52 = k + 1 by omega]
    rw [here] at upper lower
    refine ⟨.inr ((Nat.le_div_iff_mul_le (Nat.two_pow_pos _)).mpr ?_),
      (Nat.div_lt_iff_lt_mul (Nat.two_pow_pos _)).mpr ?_⟩
    · rw [show stride = 2 ^ 52 by decide, ← Nat.pow_add]
      exact lower
    · rw [halves, ← Nat.pow_add]
      exact Nat.lt_of_lt_of_le upper (Nat.pow_le_pow_right (by decide) (by omega))
  · rw [Nat.sub_eq_zero_of_le small, Nat.pow_zero, Nat.div_one, halves]
    exact ⟨.inl rfl, Nat.lt_of_lt_of_le upper (Nat.pow_le_pow_right (by decide) (by omega))⟩

/-- Words beyond infinity stand for it, as what lies between their midpoints lies above infinity. -/
theorem Between.clamp {word : Nat} (above : (unitsOfWord (word - 1) + unitsOfWord word) * q ≤ 2 * p)
    (below : 2 * p ≤ (unitsOfWord word + unitsOfWord (word + 1)) * q)
    (even : 2 * p = (unitsOfWord (word - 1) + unitsOfWord word) * q ∨
      2 * p = (unitsOfWord word + unitsOfWord (word + 1)) * q → word % 2 = 0) :
    Between (clamp word).word p q := by
  rcases Nat.le_total word topWord with inside | beyond
  · rw [show (Magnitude.clamp word).word = word from Nat.min_eq_left inside]
    exact ⟨above, .inr below, even⟩
  · rw [show (Magnitude.clamp word).word = topWord from Nat.min_eq_right beyond]
    have mono := unitsOfWord_strictMono.monotone
    refine ⟨Nat.le_trans (Nat.mul_le_mul_right q ?_) above, .inl rfl, fun _ => by decide⟩
    exact Nat.add_le_add (mono (Nat.sub_le_sub_right beyond 1)) (mono beyond)

/-- Rounding finds a word between whose midpoints the number lies. -/
theorem between_nearest (p : Nat) {q : Nat} (pos : 0 < q) : Between (nearest p q).word p q := by
  unfold nearest
  obtain ⟨normal, inside⟩ := steps_of_log p q
  dsimp only at normal inside ⊢
  generalize (p / q).log2 - 52 = shift at *
  rw [Nat.shiftLeft_eq] at *
  have split := Nat.div_add_mod p (q * 2 ^ shift)
  have rest := Nat.mod_lt p (Nat.mul_pos pos (Nat.two_pow_pos shift))
  generalize p / (q * 2 ^ shift) = floor at *
  generalize p % (q * 2 ^ shift) = r at *
  have here : unitsOfWord (shift * stride + floor) * q = q * 2 ^ shift * floor := by
    rw [unitsOfWord_steps normal (Nat.le_of_lt inside)]
    ring
  have next : unitsOfWord (shift * stride + floor + 1) * q =
      q * 2 ^ shift * floor + q * 2 ^ shift := by
    rw [Nat.add_assoc, unitsOfWord_steps (normal.imp_right (Nat.le_add_right_of_le ·)) inside]
    ring
  have parity : (shift * stride + floor) % 2 = floor % 2 := by
    rw [Nat.add_mod, Nat.mul_mod, show stride % 2 = 0 from rfl, Nat.mul_zero, Nat.zero_mod,
      Nat.zero_add, Nat.mod_mod]
  generalize shift * stride + floor = word at *
  generalize q * 2 ^ shift * floor = low at *
  generalize q * 2 ^ shift = step at *
  cases up : step < 2 * r || step == 2 * r && floor % 2 == 1 with
  | false =>
    obtain ⟨small, tie⟩ : 2 * r ≤ step ∧ (step = 2 * r → floor % 2 = 0) := by
      simp only [Bool.or_eq_false_iff, Bool.and_eq_false_iff, decide_eq_false_iff_not,
        beq_eq_false_iff_ne] at up
      omega
    have before : unitsOfWord (word - 1) * q ≤ low := by
      rw [← here]
      exact Nat.mul_le_mul_right q (unitsOfWord_strictMono.monotone (Nat.sub_le word 1))
    refine Between.clamp ?_ ?_ ?_ <;>
      simp only [Bool.toNat_false, Nat.add_zero, Nat.add_mul, here, next]
    · omega
    · omega
    · rintro (middle | middle)
      · rcases Nat.eq_zero_or_pos word with zero | later
        · rw [zero]
        · have less := Nat.mul_lt_mul_of_pos_right
            (unitsOfWord_strictMono (Nat.sub_one_lt_of_lt later)) pos
          omega
      · omega
  | true =>
    obtain ⟨large, tie⟩ : step ≤ 2 * r ∧ (step = 2 * r → floor % 2 = 1) := by
      simp only [Bool.or_eq_true, Bool.and_eq_true, decide_eq_true_eq, beq_iff_eq] at up
      omega
    have after : unitsOfWord (word + 1) * q ≤ unitsOfWord (word + 1 + 1) * q :=
      Nat.mul_le_mul_right q (unitsOfWord_strictMono.monotone (Nat.le_succ _))
    refine Between.clamp ?_ ?_ ?_ <;>
      simp only [Bool.toNat_true, Nat.add_sub_cancel, Nat.add_mul, here, next]
    · omega
    · omega
    · rintro (middle | middle) <;> omega

/-- `p / q` units round to what is computed. -/
theorem nearest_nearest (pos : 0 < q) (same : x * unitsPerOne = p / q) :
    (nearest p q).Nearest x :=
  (between_nearest p pos).nearest pos same

/-- A whole number rounds to what is computed. -/
theorem nearest_ofNat (n : Nat) : (ofNat n).Nearest n :=
  nearest_nearest Nat.one_pos (by push_cast; ring)

end

end ReactiveQuery.Magnitude
