import ReactiveQuery.Query.Operator

/-! What operators look at in a heap: the cells, and of these none for values that hold no record or
collection.  What is computed from such values is the same in every heap, and so is what it
holds. -/

namespace ReactiveQuery

namespace Value

mutual
/-- The text of a value depends on the collections that the value holds. -/
theorem textWith_congr {f g : Ref → Option String} :
    ∀ v : Value, (∀ r : Ref, r.loc ∈ v.places → f r = g r) → v.textWith f = v.textWith g
  | .null, _ | .bool _, _ | .number _, _ | .text _, _ | .object .., _ | .record _, _ => by
    simp [textWith]
  | .array _ items, h => by
    simp only [textWith]
    rw [partsWith_congr items (by simpa [places] using h)]
  | .collection r, h => by
    simp only [textWith]
    exact h r (by simp [places])

theorem partsWith_congr {f g : Ref → Option String} :
    ∀ vs : List Value, (∀ r : Ref, r.loc ∈ placesOfItems vs → f r = g r) →
      partsWith f vs = partsWith g vs
  | [], _ => by simp [partsWith]
  | v :: vs, h => by
    have first := textWith_congr v fun r inside => h r (by simp [placesOfItems, inside])
    have rest := partsWith_congr vs fun r inside => h r (by simp [placesOfItems, inside])
    cases v <;> simp only [partsWith, first, rest]
end

theorem partsWith_cons (inside : Ref → Option String) (v : Value) (vs : List Value) :
    partsWith inside (v :: vs) = (if v.isNull then some "" else v.textWith inside).bind
      fun first => (partsWith inside vs).map (first :: ·) := by
  cases v <;> simp only [partsWith, isNull, Option.map_eq_bind] <;> rfl

mutual
/-- The collections whose texts are part of the text of a value. -/
def collections : Value → List Ref
  | .collection r => [r]
  | .array _ items => collectionsOfItems items
  | _ => []

def collectionsOfItems : List Value → List Ref
  | [] => []
  | v :: vs => collections v ++ collectionsOfItems vs
end

mutual
/-- A value has a text when the collections in it have texts. -/
theorem exists_textWith {inside : Ref → Option String} :
    ∀ v : Value, (∀ r ∈ v.collections, ∃ s, inside r = some s) → ∃ s, v.textWith inside = some s
  | .null, _ | .bool _, _ | .number _, _ | .text _, _ | .object .., _ | .record _, _ => by
    simp [textWith]
  | .array _ items, texts => by
    obtain ⟨parts, found⟩ := exists_partsWith items (by simpa [collections] using texts)
    exact ⟨_, by rw [textWith, found]; rfl⟩
  | .collection r, texts => by
    rw [textWith]
    exact texts r (by simp [collections])

theorem exists_partsWith {inside : Ref → Option String} :
    ∀ vs : List Value, (∀ r ∈ collectionsOfItems vs, ∃ s, inside r = some s) →
      ∃ parts, partsWith inside vs = some parts
  | [], _ => ⟨[], by rw [partsWith]⟩
  | v :: vs, texts => by
    simp only [collectionsOfItems, List.forall_mem_append] at texts
    obtain ⟨s, first⟩ := exists_textWith v texts.1
    obtain ⟨parts, rest⟩ := exists_partsWith vs texts.2
    cases v <;> exact ⟨_, by simp only [partsWith, first, rest]; rfl⟩
end

theorem mem_placesOfItems {vs : List Value} {l : Nat} :
    l ∈ placesOfItems vs ↔ ∃ v ∈ vs, l ∈ v.places := by
  induction vs with
  | nil => simp [placesOfItems]
  | cons v vs ih => simp [placesOfItems, ih]

theorem mem_placesOfFields {fields : List (String × Value)} {l : Nat} :
    l ∈ placesOfFields fields ↔ ∃ e ∈ fields, l ∈ e.2.places := by
  induction fields with
  | nil => simp [placesOfFields]
  | cons e fields ih => simp [placesOfFields, ih]

end Value

theorem Primitive.places_toValue (p : Primitive) : p.toValue.places = [] := by
  cases p <;> simp [toValue, Value.places]

namespace Heap

variable {v w : Value}

theorem text_plain (plain : v.places = []) (h h' : Heap) : h.text v = h'.text v :=
  Value.textWith_congr v (by simp [plain])

theorem primitive_congr {h h' : Heap} (same : h.text v = h'.text v) :
    h.primitive v = h'.primitive v := by
  cases v <;> simp [primitive, same]

/-- Texts depend on the cells alone. -/
theorem text_cells {g h : Heap} (same : g.cells = h.cells) (v : Value) : g.text v = h.text v := by
  have within : ∀ depth, g.textWithin depth = h.textWithin depth := by
    intro depth
    induction depth with
    | zero => rfl
    | succ depth ih =>
      funext r
      rw [Heap.textWithin, Heap.textWithin, ih]
      simp only [Heap.items, Heap.collection?, Heap.cell?, same]
  rw [Heap.text, Heap.text, within, same]

theorem contains_plain (left : v.places = []) (right : w.places = []) (h h' : Heap) :
    h.contains w v = h'.contains w v := by
  cases w <;> simp_all [contains, hasKey, text_plain left h h', Value.places]

theorem contains_cells {g h : Heap} (same : g.cells = h.cells) (v w : Value) :
    g.contains w v = h.contains w v := by
  cases w <;> simp only [contains, hasKey, text_cells same, Heap.items, Heap.collection?,
    Heap.fields, Heap.record?, Heap.cell?, same]

theorem exists_text_plain (plain : v.places = []) (h : Heap) : ∃ s, h.text v = some s := by
  have texts : ∀ r ∈ v.collections, ∃ s, (fun _ : Ref => some "") r = some s := fun _ _ => ⟨_, rfl⟩
  obtain ⟨s, found⟩ := Value.exists_textWith v texts
  exact ⟨s, (Value.textWith_congr v (by simp [plain])).trans found⟩

theorem exists_primitive_plain (plain : v.places = []) (h : Heap) :
    ∃ p, h.primitive v = some p := by
  obtain ⟨s, found⟩ := exists_text_plain plain h
  cases v <;> simp [primitive, found]

theorem exists_looseEq {h : Heap} {p q : Primitive} (left : h.primitive v = some p)
    (right : h.primitive w = some q) : ∃ b, h.looseEq v w = some b := by
  unfold looseEq
  rw [left, right]
  split
  · exact ⟨_, rfl⟩
  · split <;> exact ⟨_, rfl⟩

end Heap

theorem UnaryOp.apply_congr (op : UnaryOp) {h h' : Heap} {v : Value} (same : h.text v = h'.text v) :
    op.apply h v = op.apply h' v := by
  cases op <;> simp [apply, Heap.neg, Heap.number, Heap.primitive_congr same]

theorem UnaryOp.exists_apply_plain (op : UnaryOp) {v : Value} (plain : v.places = []) (h : Heap) :
    ∃ w, op.apply h v = some w := by
  obtain ⟨p, found⟩ := Heap.exists_primitive_plain plain h
  cases op <;> simp [apply, Heap.neg, Heap.number, found]

theorem UnaryOp.primitive_of_apply {op : UnaryOp} {h : Heap} {v w : Value}
    (applied : op.apply h v = some w) : ∃ p : Primitive, w = p.toValue := by
  cases op with
  | not =>
    simp only [apply, Option.some.injEq] at applied
    exact ⟨.bool !v.truthy, applied.symm⟩
  | neg =>
    simp only [apply, Heap.neg, Option.bind_eq_bind, Option.bind_eq_some_iff, pure,
      Option.some.injEq] at applied
    obtain ⟨x, -, rfl⟩ := applied
    exact ⟨.number x.neg, rfl⟩

theorem UnaryOp.places_apply {op : UnaryOp} {h : Heap} {v w : Value}
    (applied : op.apply h v = some w) : w.places = [] := by
  obtain ⟨p, rfl⟩ := primitive_of_apply applied
  exact p.places_toValue

/-- Operators look at the texts of their operands, and membership at what the right one holds. -/
theorem BinaryOp.apply_congr (op : BinaryOp) {h h' : Heap} {l r : Value}
    (left : h.text l = h'.text l) (right : h.text r = h'.text r)
    (inside : h.contains r l = h'.contains r l) : op.apply h l r = op.apply h' l r := by
  have pl := Heap.primitive_congr left
  have pr := Heap.primitive_congr right
  cases op <;>
    simp only [apply, Heap.add, Heap.arith, Heap.number, Heap.looseEq, Heap.greater, Heap.less,
      Heap.atLeast, Heap.atMost, Heap.looseCompare, pl, pr, inside]

theorem BinaryOp.exists_apply_plain (op : BinaryOp) {l r : Value} (left : l.places = [])
    (right : r.places = []) (h : Heap) : ∃ v, op.apply h l r = some v := by
  obtain ⟨p, first⟩ := Heap.exists_primitive_plain left h
  obtain ⟨q, second⟩ := Heap.exists_primitive_plain right h
  obtain ⟨s, text⟩ := Heap.exists_text_plain left h
  obtain ⟨b, equal⟩ := Heap.exists_looseEq first second
  cases op
  case isIn =>
    cases r <;> simp only [apply, Heap.contains, Heap.hasKey, text, Option.bind_eq_bind,
      Option.bind_some, Option.map_some, pure] <;> exact ⟨_, rfl⟩
  all_goals
    simp [apply, Heap.add, Heap.arith, Heap.number, Heap.greater, Heap.less, Heap.atLeast,
      Heap.atMost, Heap.looseCompare, first, second, equal]

/-- What an operator gives is one of its operands, or a primitive. -/
theorem BinaryOp.of_apply {op : BinaryOp} {h : Heap} {l r v : Value}
    (applied : op.apply h l r = some v) : v = l ∨ v = r ∨ ∃ p : Primitive, v = p.toValue := by
  cases op <;>
    simp only [apply, Heap.add, Heap.arith, Option.map_eq_some_iff, Option.bind_eq_bind,
      Option.bind_eq_some_iff, Option.some.injEq, pure] at applied
  case and | or => split at applied <;> simp_all
  case add =>
    obtain ⟨a, -, b, -, rfl⟩ := applied
    exact .inr (.inr ⟨a.add b, rfl⟩)
  case sub | mul | div | mod =>
    obtain ⟨x, -, y, -, rfl⟩ := applied
    exact .inr (.inr ⟨.number _, rfl⟩)
  case regex => exact .inr (.inr ⟨.bool false, applied.symm⟩)
  all_goals
    obtain ⟨b, -, rfl⟩ := applied
    exact .inr (.inr ⟨.bool _, rfl⟩)

end ReactiveQuery
