import ReactiveQuery.Proofs.Value.Coherence
import ReactiveQuery.Proofs.Value.Tags

/-! Equality by content.  It is an equivalence of all values; what is strictly equal is equal by
content; and no conversion tells apart what is equal by content, as long as one identity is that of
one collection.  Two numbers are equal by content when they have one position on the number line,
NaN having none. -/

namespace ReactiveQuery

namespace Double

variable {x y : Double}

/-- Equality by content, between numbers. -/
theorem same_iff_rank : ((x.isNaN && y.isNaN) || x.equals y) = true ↔ x.rank = y.rank := by
  cases x <;> cases y <;> simp [isNaN, equals, rank]

theorem isTruthy_of_rank (level : x.rank = y.rank) : x.isTruthy = y.isTruthy := by
  obtain _ | ⟨a, m, hm⟩ := x <;> obtain _ | ⟨b, n, hn⟩ := y <;>
    simp only [rank, Option.some.injEq, reduceCtorEq] at level
  · rfl
  · have zeros : m = 0 ↔ n = 0 := by split at level <;> split at level <;> omega
    simp [isTruthy, Magnitude.isZero, Bool.beq_eq_decide_eq, zeros]

theorem compare?_of_rank (level : x.rank = y.rank) (z : Double) :
    x.compare? z = y.compare? z ∧ z.compare? x = z.compare? y := by
  simp [compare?, level]

end Double

theorem Numeral.write_of_rank {x y : Double} (level : x.rank = y.rank) : write x = write y := by
  obtain rfl | ⟨a, b, rfl, rfl⟩ := Double.eq_or_zeros_of_rank level
  · rfl
  · rfl

namespace Value

mutual
theorem same_refl : ∀ v : Value, v.same v = true
  | .null => rfl
  | .bool _ | .text _ | .record _ | .collection _ => by simp [same]
  | .number _ => by rw [same, Double.same_iff_rank]
  | .array _ items => by rw [same, sameItems_refl items]
  | .object _ fields => by rw [same, sameFields_refl fields]

theorem sameItems_refl : ∀ vs : List Value, sameItems vs vs = true
  | [] => rfl
  | v :: vs => by rw [sameItems, same_refl v, sameItems_refl vs]; rfl

theorem sameFields_refl : ∀ fields : List (String × Value), sameFields fields fields = true
  | [] => rfl
  | (k, v) :: fields => by simp [sameFields, same_refl v, sameFields_refl fields]
end

mutual
theorem same_comm : ∀ a b : Value, a.same b = b.same a
  | .null, b => by cases b <;> rfl
  | .bool _, b | .text _, b | .record _, b | .collection _, b => by
    cases b <;> simp [same, Bool.beq_comm]
  | .number x, b => by
    cases b <;> simp [same, Bool.and_comm, Double.equals_symm]
  | .array _ xs, b => by
    cases b <;> simp only [same]
    exact sameItems_comm xs _
  | .object _ xs, b => by
    cases b <;> simp only [same]
    exact sameFields_comm xs _

theorem sameItems_comm : ∀ xs ys : List Value, sameItems xs ys = sameItems ys xs
  | [], [] | [], _ :: _ | _ :: _, [] => rfl
  | x :: xs, y :: ys => by rw [sameItems, sameItems, same_comm x y, sameItems_comm xs ys]

theorem sameFields_comm : ∀ xs ys : List (String × Value), sameFields xs ys = sameFields ys xs
  | [], [] | [], _ :: _ | _ :: _, [] => rfl
  | (k, x) :: xs, (l, y) :: ys => by
    rw [sameFields, sameFields, same_comm x y, sameFields_comm xs ys, Bool.beq_comm]
end

mutual
theorem same_trans : ∀ {a b c : Value}, a.same b = true → b.same c = true → a.same c = true
  | .null, b, c, first, second => by
    cases b <;> simp only [same, Bool.false_eq_true] at first
    exact second
  | .bool _, b, c, first, second | .text _, b, c, first, second => by
    cases b <;> simp only [same, Bool.false_eq_true, beq_iff_eq] at first
    rwa [first]
  | .number x, b, c, first, second => by
    cases b <;> simp only [same, Bool.false_eq_true, Double.same_iff_rank] at first
    cases c <;> simp only [same, Bool.false_eq_true, Double.same_iff_rank] at second ⊢
    exact first.trans second
  | .record _, b, c, first, second | .collection _, b, c, first, second => by
    cases b <;> simp only [same, Bool.false_eq_true, beq_iff_eq] at first
    cases c <;> simp only [same, Bool.false_eq_true, beq_iff_eq] at second ⊢
    exact first.trans second
  | .array _ xs, b, c, first, second => by
    cases b <;> simp only [same, Bool.false_eq_true] at first
    cases c <;> simp only [same, Bool.false_eq_true] at second ⊢
    exact sameItems_trans first second
  | .object _ xs, b, c, first, second => by
    cases b <;> simp only [same, Bool.false_eq_true] at first
    cases c <;> simp only [same, Bool.false_eq_true] at second ⊢
    exact sameFields_trans first second

theorem sameItems_trans : ∀ {xs ys zs : List Value},
    sameItems xs ys = true → sameItems ys zs = true → sameItems xs zs = true
  | [], [], _, _, second => second
  | [], _ :: _, _, first, _ | _ :: _, [], _, first, _ => by simp [sameItems] at first
  | _ :: _, _ :: _, [], _, second => by simp [sameItems] at second
  | x :: xs, y :: ys, z :: zs, first, second => by
    simp only [sameItems, Bool.and_eq_true] at first second ⊢
    exact ⟨same_trans first.1 second.1, sameItems_trans first.2 second.2⟩

theorem sameFields_trans : ∀ {xs ys zs : List (String × Value)},
    sameFields xs ys = true → sameFields ys zs = true → sameFields xs zs = true
  | [], [], _, _, second => second
  | [], _ :: _, _, first, _ | _ :: _, [], _, first, _ => by simp [sameFields] at first
  | _ :: _, _ :: _, [], _, second => by simp [sameFields] at second
  | (k, x) :: xs, (l, y) :: ys, (m, z) :: zs, first, second => by
    simp only [sameFields, Bool.and_eq_true, beq_iff_eq] at first second ⊢
    exact ⟨⟨first.1.1.trans second.1.1, same_trans first.1.2 second.1.2⟩,
      sameFields_trans first.2 second.2⟩
end

/-- Equality by content is an equivalence, at any nesting. -/
theorem same_equivalence : Equivalence fun a b : Value => a.same b = true where
  refl := same_refl
  symm := fun {a b} equal => by rwa [same_comm b a]
  trans := same_trans

variable {a b : Value}

/-- What is one container has one content. -/
theorem same_of_strictEq (arrays : ∀ tag xs ys, a = .array tag xs → b = .array tag ys → xs = ys)
    (objects : ∀ tag xs ys, a = .object tag xs → b = .object tag ys → xs = ys)
    (equal : a.strictEq b = true) : a.same b = true := by
  cases a <;> cases b <;> simp only [strictEq, sameContainer, Bool.false_eq_true] at equal
  case null.null => rfl
  case number.number => rw [same, equal, Bool.or_true]
  case array.array t xs u ys =>
    obtain rfl := eq_of_beq equal
    rw [same, arrays t xs ys rfl rfl, sameItems_refl]
  case object.object t xs u ys =>
    obtain rfl := eq_of_beq equal
    rw [same, objects t xs ys rfl rfl, sameFields_refl]
  all_goals rwa [same]

theorem truthy_of_same (equal : a.same b = true) : a.truthy = b.truthy := by
  cases a <;> cases b <;> simp only [same, Bool.false_eq_true] at equal
  case bool.bool | text.text => rw [eq_of_beq equal]
  case number.number => exact Double.isTruthy_of_rank (Double.same_iff_rank.mp equal)
  all_goals rfl

theorem isNull_of_same (equal : a.same b = true) : a.isNull = b.isNull := by
  cases a <;> cases b <;> simp only [same, Bool.false_eq_true] at equal <;> rfl

mutual
/-- Values equal by content have one text, if collections of one identity have. -/
theorem textWith_of_same {inside : Ref → Option String} : ∀ {a b : Value},
    (∀ r ∈ a.collections, ∀ s ∈ b.collections, r.id = s.id → inside r = inside s) →
      a.same b = true → a.textWith inside = b.textWith inside
  | .null, b, _, equal | .object .., b, _, equal | .record _, b, _, equal => by
    cases b <;> simp_all [same, textWith]
  | .bool _, b, _, equal | .text _, b, _, equal => by
    cases b <;> simp only [same, Bool.false_eq_true] at equal
    rw [eq_of_beq equal]
  | .number _, b, _, equal => by
    cases b <;> simp only [same, Bool.false_eq_true] at equal
    rw [textWith, textWith, Numeral.write_of_rank (Double.same_iff_rank.mp equal)]
  | .collection r, b, one, equal => by
    cases b <;> simp only [same, Bool.false_eq_true] at equal
    rw [textWith, textWith]
    exact one _ List.mem_cons_self _ List.mem_cons_self (eq_of_beq equal)
  | .array _ xs, b, one, equal => by
    cases b <;> simp only [same, Bool.false_eq_true] at equal
    rw [textWith, textWith, partsWith_of_sameItems (by simpa [collections] using one) equal]

theorem partsWith_of_sameItems {inside : Ref → Option String} : ∀ {xs ys : List Value},
    (∀ r ∈ collectionsOfItems xs, ∀ s ∈ collectionsOfItems ys, r.id = s.id →
      inside r = inside s) → sameItems xs ys = true → partsWith inside xs = partsWith inside ys
  | [], [], _, _ => rfl
  | [], _ :: _, _, equal | _ :: _, [], _, equal => by simp [sameItems] at equal
  | x :: xs, y :: ys, one, equal => by
    rw [sameItems, Bool.and_eq_true] at equal
    have first := textWith_of_same (fun r left s right =>
      one r (List.mem_append_left _ left) s (List.mem_append_left _ right)) equal.1
    have rest := partsWith_of_sameItems (fun r left s right =>
      one r (List.mem_append_right _ left) s (List.mem_append_right _ right)) equal.2
    rw [partsWith_cons, partsWith_cons, isNull_of_same equal.1, first, rest]
end

end Value

namespace Primitive

/-- Primitives that no comparison tells apart: one primitive, or numbers of one position. -/
inductive Level : Primitive → Primitive → Prop where
  | refl (p : Primitive) : Level p p
  | number {x y : Double} (level : x.rank = y.rank) : Level (.number x) (.number y)

theorem Level.compare? {p q : Primitive} (level : p.Level q) (o : Primitive) :
    p.compare? o = q.compare? o ∧ o.compare? p = o.compare? q := by
  cases level with
  | refl => exact ⟨rfl, rfl⟩
  | number level => cases o <;> exact Double.compare?_of_rank level _

end Primitive

namespace Heap

variable {h : Heap} {a b : Value}

/-- Values that no conversion tells apart. -/
structure Interchangeable (h : Heap) (a b : Value) : Prop where
  truthy : a.truthy = b.truthy
  text : ∃ s, h.text a = some s ∧ h.text b = some s
  compared : ∀ c : Value, (∀ r ∈ c.collections, h.Shows r) →
    (∃ order, h.looseCompare a c = some order ∧ h.looseCompare b c = some order) ∧
      ∃ order, h.looseCompare c a = some order ∧ h.looseCompare c b = some order

/-- Values equal by content have one text where one identity is that of one collection. -/
theorem Tiered.text_of_same (tiered : h.Tiered) (left : ∀ r ∈ a.collections, h.Shows r)
    (right : ∀ r ∈ b.collections, h.Shows r) (equal : a.same b = true) : h.text a = h.text b := by
  refine Value.textWith_of_same (fun r inside s inside' one => textWithin_of_loc ?_ _) equal
  obtain ⟨c, here, shown⟩ := left r inside
  obtain ⟨d, there, shown'⟩ := right s inside'
  exact tiered.unique r.loc s.loc c d (collection?_eq_some.mp here) (collection?_eq_some.mp there)
    (by rw [shown, shown', one])

theorem Tiered.level_of_same (tiered : h.Tiered) (left : ∀ r ∈ a.collections, h.Shows r)
    (right : ∀ r ∈ b.collections, h.Shows r) (equal : a.same b = true) :
    ∃ p q, h.primitive a = some p ∧ h.primitive b = some q ∧ p.Level q := by
  obtain ⟨s, found⟩ := tiered.exists_text left
  have text := tiered.text_of_same left right equal
  cases a <;> cases b <;> simp only [Value.same, Bool.false_eq_true] at equal
  case null.null => exact ⟨_, _, rfl, rfl, .refl _⟩
  case bool.bool | text.text =>
    obtain rfl := eq_of_beq equal
    exact ⟨_, _, rfl, rfl, .refl _⟩
  case number.number => exact ⟨_, _, rfl, rfl, .number (Double.same_iff_rank.mp equal)⟩
  all_goals
    exact ⟨.text s, .text s, by simp [primitive, found], by simp [primitive, ← text, found],
      .refl _⟩

theorem Tiered.interchangeable (tiered : h.Tiered) (left : ∀ r ∈ a.collections, h.Shows r)
    (right : ∀ r ∈ b.collections, h.Shows r) (equal : a.same b = true) :
    h.Interchangeable a b where
  truthy := Value.truthy_of_same equal
  text := by
    obtain ⟨s, found⟩ := tiered.exists_text left
    exact ⟨s, found, by rw [← tiered.text_of_same left right equal, found]⟩
  compared c shown := by
    obtain ⟨p, q, first, second, level⟩ := tiered.level_of_same left right equal
    obtain ⟨o, third⟩ := tiered.exists_primitive shown
    have one := level.compare? o
    simp only [looseCompare, first, second, third, Option.bind_eq_bind, Option.bind_some, pure]
    exact ⟨⟨_, rfl, by rw [one.1]⟩, _, rfl, by rw [one.2]⟩

/-- Equality by content is an equivalence, follows from strict equality wherever a tag is that of
one container, and what it holds for is interchangeable under every conversion wherever each handle
leads to one collection and none is come to again through what it holds. -/
theorem Tiered.same_congruent (tiered : h.Tiered) :
    (Equivalence fun a b : Value => a.same b = true) ∧
    (∀ a b : Value, (∀ tag xs ys, a = .array tag xs → b = .array tag ys → xs = ys) →
      (∀ tag xs ys, a = .object tag xs → b = .object tag ys → xs = ys) →
        a.strictEq b = true → a.same b = true) ∧
    ∀ a b : Value, (∀ r ∈ a.collections, h.Shows r) → (∀ r ∈ b.collections, h.Shows r) →
      a.same b = true → h.Interchangeable a b :=
  ⟨Value.same_equivalence, fun _ _ => Value.same_of_strictEq,
    fun _ _ => tiered.interchangeable⟩

namespace Nested

/-- Arrays and objects inside one another, with NaN, a zero and a collection. -/
def deep (tag : Nat) (zero : Double) : Value :=
  .array tag [.number .nan, .number zero, outer,
    .object (tag + 1) [("a", .array (tag + 2) [.number zero, .null])]]

theorem same_congruent_nested :
    (deep 1 .zero).same (deep 4 (.signed true .zero)) = true ∧
      heap.Interchangeable (deep 1 .zero) (deep 4 (.signed true .zero)) ∧
      heap.text (deep 1 .zero) = some "NaN,0,a,,1,[object Object],[object Object]" ∧
      (deep 1 .zero).strictEq (deep 1 .zero) = true ∧
      (deep 1 .zero).same (deep 1 .zero) = true := by
  obtain ⟨-, identical, interchangeable⟩ := tiered.same_congruent
  have shown : ∀ r ∈ [(⟨0, 1⟩ : Ref)], heap.Shows r := List.forall_mem_singleton.mpr ⟨_, rfl, rfl⟩
  have equal : (deep 1 .zero).same (deep 4 (.signed true .zero)) = true := by decide +kernel
  refine ⟨equal, interchangeable _ _ shown shown equal, by decide +kernel, by decide, ?_⟩
  exact identical _ _ (by simp +contextual [deep]) (by simp [deep]) (by decide)

end Nested

end Heap

end ReactiveQuery
