import ReactiveQuery.Proofs.Responses
import ReactiveQuery.Proofs.Value.Tags

/-! Heaps that agree on some places, and at those on the fields that are read.  Reading, comparing
and computing there come to the same in both, also when tags are renamed on the way. -/

namespace ReactiveQuery

namespace Value

mutual
/-- The text of a value is known where the texts of its collections are. -/
theorem textWith_responses {lax : Prop} {f g : Ref → Option String} : ∀ {v : Value},
    (∀ r : Ref, r.loc ∈ v.places → Responses lax Eq (f r) (g r)) →
      Responses lax Eq (v.textWith f) (v.textWith g)
  | .null, _ | .bool _, _ | .number _, _ | .text _, _ | .object .., _ | .record _, _ => by
    simp only [textWith]
    exact .refl _
  | .array _ items, alike => by
    simp only [textWith]
    exact (partsWith_responses (by simpa [places] using alike)).map_same _
  | .collection r, alike => by
    simp only [textWith]
    exact alike r (by simp [places])

theorem partsWith_responses {lax : Prop} {f g : Ref → Option String} : ∀ {vs : List Value},
    (∀ r : Ref, r.loc ∈ placesOfItems vs → Responses lax Eq (f r) (g r)) →
      Responses lax Eq (partsWith f vs) (partsWith g vs)
  | [], _ => by
    simp only [partsWith]
    exact .refl _
  | v :: vs, alike => by
    have first : Responses lax Eq (v.textWith f) (v.textWith g) :=
      textWith_responses fun r inside => alike r (by simp [placesOfItems, inside])
    have rest : Responses lax Eq (partsWith f vs) (partsWith g vs) :=
      partsWith_responses fun r inside => alike r (by simp [placesOfItems, inside])
    cases v <;> simp only [partsWith]
    case null => exact (Responses.refl _).bind_same fun _ => rest.bind_same fun _ => .refl _
    all_goals exact first.bind_same fun _ => rest.bind_same fun _ => .refl _
end

end Value

/-- All the places of a value are among those given, and renaming leaves its tags. -/
structure Value.Inside (P : Nat → Prop) (ρ : Nat → Nat) (v : Value) : Prop where
  places : ∀ l ∈ v.places, P l
  tags : v.retag ρ = v

/-- A heap agrees with another on places, and there on the fields to be read.  What is found there
leads to no other place and holds no container that is renamed.  Where `lax`, the other heap may be
larger, so that a text that is not found in the first may be found in it. -/
structure Heap.Agree (lax : Prop) (P : Nat → Prop) (F : Nat → String → Prop) (ρ : Nat → Nat)
    (h k : Heap) : Prop where
  size : h.cells.size = k.cells.size ∨ lax ∧ h.cells.size ≤ k.cells.size
  items : ∀ r : Ref, P r.loc → k.items r = h.items r
  names : ∀ (r : Ref) key, P r.loc →
    FieldMap.contains key (k.fields r) = FieldMap.contains key (h.fields r)
  field : ∀ (r : Ref) key, P r.loc → F r.loc key →
    FieldMap.get? key (k.fields r) = FieldMap.get? key (h.fields r)
  itemsInside : ∀ r : Ref, P r.loc → ∀ v ∈ h.items r, v.Inside P ρ
  fieldInside : ∀ (r : Ref) key v, P r.loc → F r.loc key →
    FieldMap.get? key (h.fields r) = some v → v.Inside P ρ

/-- The second value is the first one with its tags renamed, and lies within the places. -/
def Value.Mirror (P : Nat → Prop) (ρ : Nat → Nat) (a b : Value) : Prop :=
  b = a.retag ρ ∧ ∀ l ∈ a.places, P l

theorem Value.Inside.mirror {P : Nat → Prop} {ρ : Nat → Nat} {v : Value} (h : v.Inside P ρ) :
    v.Mirror P ρ v := ⟨h.tags.symm, h.places⟩

/-- A value without places or containers is its own mirror. -/
theorem Primitive.mirror_toValue (p : Primitive) {P : Nat → Prop} {ρ : Nat → Nat} :
    p.toValue.Mirror P ρ p.toValue :=
  ⟨by simp, by simp [p.places_toValue]⟩

namespace Heap.Agree

variable {lax : Prop} {P : Nat → Prop} {F : Nat → String → Prop} {ρ : Nat → Nat} {h k : Heap}
  {a b a' b' : Value}

theorem textWithin (agree : h.Agree lax P F ρ k) {depth depth' : Nat}
    (enough : depth = depth' ∨ lax ∧ depth ≤ depth') {r : Ref} (inside : P r.loc) :
    Responses lax Eq (h.textWithin depth r) (k.textWithin depth' r) := by
  induction depth generalizing depth' r with
  | zero =>
    rcases enough with rfl | ⟨free, -⟩
    · exact .none
    · exact .free free
  | succ depth ih =>
    obtain ⟨depth', rfl⟩ : ∃ d, depth' = d + 1 :=
      ⟨depth' - 1, by rcases enough with rfl | ⟨-, more⟩ <;> omega⟩
    simp only [Heap.textWithin, agree.items r inside]
    refine (Value.partsWith_responses fun r' held => ?_).map_same _
    obtain ⟨v, member, held⟩ := Value.mem_placesOfItems.mp held
    exact ih (enough.imp (by omega) (And.imp_right (by omega)))
      ((agree.itemsInside r inside v member).places _ held)

theorem text (agree : h.Agree lax P F ρ k) (mirror : a.Mirror P ρ a') :
    Responses lax Eq (h.text a) (k.text a') := by
  obtain ⟨rfl, inside⟩ := mirror
  rw [Heap.text, Heap.text, Value.textWith_retag]
  exact Value.textWith_responses fun r held => agree.textWithin agree.size (inside _ held)

theorem primitive (agree : h.Agree lax P F ρ k) (mirror : a.Mirror P ρ a') :
    Responses lax Eq (h.primitive a) (k.primitive a') := by
  have text := agree.text mirror
  obtain ⟨rfl, -⟩ := mirror
  cases a <;> simp only [Heap.primitive, Value.retag_null, Value.retag_bool, Value.retag_number,
    Value.retag_text, Value.retag_array, Value.retag_object, Value.retag_record,
    Value.retag_collection] at text ⊢
  case null | bool | number | text => exact .refl _
  all_goals exact text.map_same _

theorem number (agree : h.Agree lax P F ρ k) (mirror : a.Mirror P ρ a') :
    Responses lax Eq (h.number a) (k.number a') :=
  (agree.primitive mirror).map_same _

theorem looseEq (agree : h.Agree lax P F ρ k) (inj : Function.Injective ρ)
    (left : a.Mirror P ρ a') (right : b.Mirror P ρ b') :
    Responses lax Eq (h.looseEq a b) (k.looseEq a' b') := by
  have first := agree.primitive left
  have second := agree.primitive right
  obtain ⟨rfl, -⟩ := left
  obtain ⟨rfl, -⟩ := right
  simp only [Heap.looseEq, Value.isNull_retag, Value.isContainer_retag,
    Value.sameContainer_retag inj]
  split
  · exact .refl _
  · split
    · exact .refl _
    · exact first.bind_same fun _ => second.bind_same fun _ => .refl _

theorem looseCompare (agree : h.Agree lax P F ρ k) (left : a.Mirror P ρ a')
    (right : b.Mirror P ρ b') : Responses lax Eq (h.looseCompare a b) (k.looseCompare a' b') :=
  (agree.primitive left).bind_same fun _ => (agree.primitive right).bind_same fun _ => .refl _

/-- A question that is answered by the loose order of two values. -/
theorem ordered (agree : h.Agree lax P F ρ k) (left : a.Mirror P ρ a') (right : b.Mirror P ρ b')
    {α : Type} (judge : Option Ordering → α) :
    Responses lax Eq (do return judge (← h.looseCompare a b))
      (do return judge (← k.looseCompare a' b')) :=
  (agree.looseCompare left right).bind_same fun _ => .refl _

/-- The renaming is not seen in what a position names. -/
theorem mirror_itemAt {items : List Value} (key : Value)
    (inside : ∀ v ∈ items, ∀ l ∈ v.places, P l) :
    (itemAt items key).Mirror P ρ (itemAt (items.map (Value.retag ρ)) (key.retag ρ)) := by
  unfold itemAt
  rw [Value.index?_retag]
  cases key.index? with
  | some i =>
    cases found : items[i]? with
    | none => simp [found, Value.Mirror, Value.places]
    | some v =>
      simpa [found, Value.Mirror] using inside v (List.mem_of_getElem? found)
  | none =>
    cases key <;> simp [Value.Mirror, Value.places]
    split <;> simp_all [Value.places, Value.ofNat]

theorem mirror_get? {fields : List (String × Value)} (key : String)
    (inside : ∀ e ∈ fields, ∀ l ∈ e.2.places, P l) :
    ((FieldMap.get? key fields).getD .null).Mirror P ρ
      ((FieldMap.get? key (fields.map fun e => (e.1, e.2.retag ρ))).getD .null) := by
  induction fields with
  | nil => simp [FieldMap.get?, Value.Mirror, Value.places]
  | cons e fields ih =>
    obtain ⟨name, v⟩ := e
    by_cases here : name = key
    · simpa [FieldMap.get?, here, Value.Mirror] using inside (name, v) (by simp)
    · simpa [FieldMap.get?, here] using ih fun e member => inside e (by simp [member])

/-- What stays as it is when tags are renamed is read in the same way. -/
theorem map_retag {items : List Value} (inside : ∀ v ∈ items, v.Inside P ρ) :
    items.map (Value.retag ρ) = items :=
  (List.map_congr_left fun v member => (inside v member).tags).trans (List.map_id _)

theorem read (agree : h.Agree lax P F ρ k) (value : a.Mirror P ρ a') (key : b.Mirror P ρ b')
    (covered : ∀ r, a = .record r → ∀ s, h.text b = some s → F r.loc s) :
    Responses lax (Value.Mirror P ρ) (h.read a b) (k.read a' b') := by
  obtain ⟨rfl, inside⟩ := value
  have text := agree.text key
  cases a with
  | record r =>
    have here : P r.loc := inside _ (by simp [Value.places])
    simp only [Heap.read, Value.retag_record]
    refine text.bind_found fun s named => .some ?_
    have reads := covered r rfl s named
    rw [agree.field r s here reads]
    cases found : FieldMap.get? s (h.fields r) with
    | none => simp [Value.Mirror, Value.places]
    | some v => exact (agree.fieldInside r s v here reads found).mirror
  | object t fields =>
    simp only [Heap.read, Value.retag_object]
    refine text.bind_same fun s => .some (mirror_get? s fun e member l held => ?_)
    exact inside l (by rw [Value.places, Value.mem_placesOfFields]; exact ⟨e, member, held⟩)
  | array t items =>
    simp only [Heap.read, Value.retag_array, key.1]
    refine .some (mirror_itemAt b fun v member l held => ?_)
    exact inside l (by rw [Value.places, Value.mem_placesOfItems]; exact ⟨v, member, held⟩)
  | collection r =>
    have here : P r.loc := inside _ (by simp [Value.places])
    have items := mirror_itemAt (P := P) (ρ := ρ) b fun v member =>
      (agree.itemsInside r here v member).places
    rw [map_retag (agree.itemsInside r here)] at items
    simp only [Heap.read, Value.retag_collection, key.1, agree.items r here]
    exact .some items
  | text s =>
    have plain : ∀ v ∈ s.toList.map fun c => Value.text c.toString, ∀ l ∈ v.places, P l :=
      fun v member => by
        obtain ⟨c, -, rfl⟩ := List.mem_map.mp member
        simp [Value.places]
    have items := mirror_itemAt (ρ := ρ) b plain
    simp only [Heap.read, Value.retag_text, key.1]
    exact .some (by simpa [Function.comp_def] using items)
  | _ =>
    simp only [Heap.read, Value.retag_null, Value.retag_bool, Value.retag_number]
    exact .some (by simp [Value.Mirror, Value.places])

theorem contains_map_retag (key : String) (fields : List (String × Value)) :
    FieldMap.contains key (fields.map fun e => (e.1, e.2.retag ρ)) =
      FieldMap.contains key fields := by
  unfold FieldMap.contains
  induction fields with
  | nil => rfl
  | cons e fields ih => by_cases here : e.1 = key <;> simp_all [FieldMap.get?]

theorem hasKey (agree : h.Agree lax P F ρ k) (value : a.Mirror P ρ a') (key : b.Mirror P ρ b') :
    Responses lax Eq (h.hasKey a b) (k.hasKey a' b') := by
  have text := agree.text key
  obtain ⟨rfl, inside⟩ := value
  cases a with
  | record s =>
    simp only [Heap.hasKey, Value.retag_record]
    refine text.bind_same fun name => .some ?_
    exact (agree.names s name (inside _ (by simp [Value.places]))).symm
  | object t fields =>
    simp only [Heap.hasKey, Value.retag_object]
    exact text.bind_same fun name => .some (contains_map_retag name fields).symm
  | _ =>
    simp only [Heap.hasKey, Value.retag_null, Value.retag_bool, Value.retag_number,
      Value.retag_text, Value.retag_array, Value.retag_collection]
    exact .refl _

theorem contains (agree : h.Agree lax P F ρ k) (inj : Function.Injective ρ)
    (value : a.Mirror P ρ a') (sought : b.Mirror P ρ b') :
    Responses lax Eq (h.contains a b) (k.contains a' b') := by
  have named := agree.hasKey value sought
  obtain ⟨rfl, inside⟩ := value
  obtain ⟨rfl, -⟩ := sought
  cases a with
  | array t items =>
    simp only [Heap.contains, Value.retag_array, List.any_map, Function.comp_def,
      Value.strictEq_retag inj]
    exact .refl _
  | collection s =>
    have here : P s.loc := inside _ (by simp [Value.places])
    have fixed := map_retag (agree.itemsInside s here)
    simp only [Heap.contains, Value.retag_collection, agree.items s here]
    refine .some ?_
    conv => rhs; rw [← fixed]
    simp only [List.any_map, Function.comp_def, Value.strictEq_retag inj]
  | record s => exact named
  | object t fields =>
    simp only [Heap.contains, Value.retag_object] at named ⊢
    exact named
  | _ =>
    simp only [Heap.contains, Value.retag_null, Value.retag_bool, Value.retag_number,
      Value.retag_text]
    exact .refl _

theorem compareKeys (agree : h.Agree lax P F ρ k) (inj : Function.Injective ρ)
    (left : a.Mirror P ρ a') (right : b.Mirror P ρ b') (ascending : Bool) :
    Responses lax Eq (h.compareKeys ascending a b) (k.compareKeys ascending a' b') := by
  refine (agree.looseEq inj left right).bind_same fun equal => ?_
  split
  · exact .refl _
  · cases ascending
    · exact (agree.ordered left right (· == some .lt)).bind_same fun _ => .refl _
    · exact (agree.ordered left right (· == some .gt)).bind_same fun _ => .refl _

theorem unary (agree : h.Agree lax P F ρ k) (operand : a.Mirror P ρ a') (op : UnaryOp) :
    Responses lax (Value.Mirror P ρ) (op.apply h a) (op.apply k a') := by
  cases op with
  | not =>
    simp only [UnaryOp.apply, operand.1, Value.truthy_retag]
    exact .some (Primitive.bool _).mirror_toValue
  | neg =>
    exact (agree.number operand).bind_same fun x => .some (Primitive.number x.neg).mirror_toValue

/-- An answer of yes or no is seen alike. -/
theorem answer {q q' : Option Bool} (judge : Bool → Bool) (same : Responses lax Eq q q') :
    Responses lax (Value.Mirror P ρ) (q.map fun r => .bool (judge r))
      (q'.map fun r => .bool (judge r)) :=
  same.map fun r _ equal => equal ▸ (Primitive.bool (judge r)).mirror_toValue

theorem arith (agree : h.Agree lax P F ρ k) (left : a.Mirror P ρ a') (right : b.Mirror P ρ b')
    (op : Double → Double → Double) :
    Responses lax (Value.Mirror P ρ) (h.arith op a b) (k.arith op a' b') :=
  (agree.number left).bind_same fun x => (agree.number right).bind_same fun y =>
    .some (Primitive.number (op x y)).mirror_toValue

theorem add (agree : h.Agree lax P F ρ k) (left : a.Mirror P ρ a') (right : b.Mirror P ρ b') :
    Responses lax (Value.Mirror P ρ) (h.add a b) (k.add a' b') :=
  (agree.primitive left).bind_same fun p => (agree.primitive right).bind_same fun q =>
    .some (p.add q).mirror_toValue

/-- An operator gives one of its operands or a primitive, and it converts and compares its operands
in the same way. -/
theorem binary (agree : h.Agree lax P F ρ k) (inj : Function.Injective ρ)
    (left : a.Mirror P ρ a') (right : b.Mirror P ρ b') (op : BinaryOp) :
    Responses lax (Value.Mirror P ρ) (op.apply h a b) (op.apply k a' b') := by
  have loose := agree.looseEq inj left right
  cases op <;> simp only [BinaryOp.apply]
  case and | or =>
    have deciding : a'.truthy = a.truthy := by rw [left.1, Value.truthy_retag]
    refine .some ?_
    rw [deciding]
    cases a.truthy <;> assumption
  case add => exact agree.add left right
  case sub | mul | div | mod => exact agree.arith left right _
  case eq => exact answer id loose
  case ne => exact answer (!·) loose
  case gt => exact answer id (agree.ordered left right (· == some .gt))
  case lt => exact answer id (agree.ordered left right (· == some .lt))
  case ge => exact answer id (agree.ordered left right fun o => o == some .gt || o == some .eq)
  case le => exact answer id (agree.ordered left right fun o => o == some .lt || o == some .eq)
  case isIn => exact answer id (agree.contains inj right left)
  case regex => exact .some (Primitive.bool false).mirror_toValue

end Heap.Agree

end ReactiveQuery
