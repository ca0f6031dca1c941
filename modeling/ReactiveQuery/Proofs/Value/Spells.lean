import ReactiveQuery.Proofs.Value.Plain

/-! The text of a value by rules, without a bound on how deep collections hold one another.  A text
is found within some depth exactly when the rules give it. -/

namespace ReactiveQuery

mutual
/-- The text of a value: arrays and collections join the texts of their items, and records and
objects are not looked into. -/
inductive Heap.Spells (h : Heap) : Value → String → Prop where
  | null : Spells h .null "null"
  | bool (b : Bool) : Spells h (.bool b) (if b then "true" else "false")
  | number (x : Double) : Spells h (.number x) (Numeral.write x)
  | text (s : String) : Spells h (.text s) s
  | object (tag : Nat) (fields : List (String × Value)) :
    Spells h (.object tag fields) "[object Object]"
  | record (r : Ref) : Spells h (.record r) "[object Object]"
  | array {tag : Nat} {items : List Value} {parts : List String} (each : SpellsAll h items parts) :
    Spells h (.array tag items) (String.intercalate "," parts)
  | collection {r : Ref} {parts : List String} (each : SpellsAll h (h.items r) parts) :
    Spells h (.collection r) (String.intercalate "," parts)

/-- The texts of items one by one; null gives no text. -/
inductive Heap.SpellsAll (h : Heap) : List Value → List String → Prop where
  | nil : SpellsAll h [] []
  | null {vs : List Value} {parts : List String} (rest : SpellsAll h vs parts) :
    SpellsAll h (.null :: vs) ("" :: parts)
  | cons {v : Value} {s : String} {vs : List Value} {parts : List String}
    (present : v.isNull = false) (first : Spells h v s) (rest : SpellsAll h vs parts) :
    SpellsAll h (v :: vs) (s :: parts)
end

namespace Value

variable {inside deeper : Ref → Option String}

theorem partsWith_null (inside : Ref → Option String) (vs : List Value) :
    partsWith inside (.null :: vs) = (partsWith inside vs).map ("" :: ·) := by
  rw [partsWith_cons, isNull, if_pos rfl, Option.bind_some]

theorem partsWith_present (inside : Ref → Option String) {v : Value} (present : v.isNull = false)
    (vs : List Value) : partsWith inside (v :: vs) =
      (v.textWith inside).bind fun s => (partsWith inside vs).map (s :: ·) := by
  rw [partsWith_cons, present, if_neg Bool.false_ne_true]

mutual
/-- What is found with some texts of collections is found with more of them. -/
theorem textWith_mono (more : ∀ r t, inside r = some t → deeper r = some t) :
    ∀ (v : Value) {s : String}, v.textWith inside = some s → v.textWith deeper = some s
  | .null, _, found | .bool _, _, found | .number _, _, found | .text _, _, found
  | .object .., _, found | .record _, _, found => by simpa [textWith] using found
  | .array _ items, _, found => by
    rw [textWith, Option.map_eq_some_iff] at found ⊢
    obtain ⟨parts, each, same⟩ := found
    exact ⟨parts, partsWith_mono more items each, same⟩
  | .collection r, s, found => by
    rw [textWith] at found ⊢
    exact more r s found

theorem partsWith_mono (more : ∀ r t, inside r = some t → deeper r = some t) :
    ∀ (vs : List Value) {parts : List String}, partsWith inside vs = some parts →
      partsWith deeper vs = some parts
  | [], _, found => by simpa [partsWith] using found
  | v :: vs, _, found => by
    cases none : v.isNull with
    | true =>
      cases v <;> cases none
      rw [partsWith_null, Option.map_eq_some_iff] at found ⊢
      obtain ⟨parts, rest, same⟩ := found
      exact ⟨parts, partsWith_mono more vs rest, same⟩
    | false =>
      rw [partsWith_present _ none, Option.bind_eq_some_iff] at found ⊢
      obtain ⟨s, first, found⟩ := found
      obtain ⟨parts, rest, same⟩ := Option.map_eq_some_iff.mp found
      exact ⟨s, textWith_mono more v first, Option.map_eq_some_iff.mpr
        ⟨parts, partsWith_mono more vs rest, same⟩⟩
end

mutual
/-- What is found with texts of collections that the rules give is given by them. -/
theorem spells_of_textWith {h : Heap}
    (sound : ∀ r t, inside r = some t → h.Spells (.collection r) t) :
    ∀ (v : Value) {s : String}, v.textWith inside = some s → h.Spells v s
  | .null, _, found => by
    rw [textWith] at found
    exact Option.some.inj found ▸ .null
  | .bool b, _, found => by
    rw [textWith] at found
    exact Option.some.inj found ▸ .bool b
  | .number x, _, found => by
    rw [textWith] at found
    exact Option.some.inj found ▸ .number x
  | .text s, _, found => by
    rw [textWith] at found
    exact Option.some.inj found ▸ .text s
  | .object tag fields, _, found => by
    rw [textWith] at found
    exact Option.some.inj found ▸ .object tag fields
  | .record r, _, found => by
    rw [textWith] at found
    exact Option.some.inj found ▸ .record r
  | .array _ items, _, found => by
    rw [textWith] at found
    obtain ⟨parts, each, rfl⟩ := Option.map_eq_some_iff.mp found
    exact .array (spellsAll_of_partsWith sound items each)
  | .collection r, s, found => by
    rw [textWith] at found
    exact sound r s found

theorem spellsAll_of_partsWith {h : Heap}
    (sound : ∀ r t, inside r = some t → h.Spells (.collection r) t) :
    ∀ (vs : List Value) {parts : List String}, partsWith inside vs = some parts →
      h.SpellsAll vs parts
  | [], _, found => by
    rw [partsWith] at found
    exact Option.some.inj found ▸ .nil
  | v :: vs, _, found => by
    cases none : v.isNull with
    | true =>
      cases v <;> cases none
      rw [partsWith_null] at found
      obtain ⟨parts, rest, rfl⟩ := Option.map_eq_some_iff.mp found
      exact .null (spellsAll_of_partsWith sound vs rest)
    | false =>
      rw [partsWith_present _ none] at found
      obtain ⟨s, first, found⟩ := Option.bind_eq_some_iff.mp found
      obtain ⟨parts, rest, rfl⟩ := Option.map_eq_some_iff.mp found
      exact .cons none (spells_of_textWith sound v first) (spellsAll_of_partsWith sound vs rest)
end

end Value

namespace Heap

variable {h : Heap} {v : Value} {s t : String}

theorem textWithin_mono {depth : Nat} {r : Ref} (found : h.textWithin depth r = some t) :
    h.textWithin (depth + 1) r = some t := by
  induction depth generalizing r t with
  | zero => cases found
  | succ depth ih =>
    rw [textWithin, Option.map_eq_some_iff] at found ⊢
    obtain ⟨parts, each, same⟩ := found
    exact ⟨parts, Value.partsWith_mono (fun r t => ih) (h.items r) each, same⟩

theorem textWithin_le {depth more : Nat} (le : depth ≤ more) {r : Ref}
    (found : h.textWithin depth r = some t) : h.textWithin more r = some t := by
  induction le with
  | refl => exact found
  | step _ ih => exact textWithin_mono ih

theorem spells_of_textWithin {depth : Nat} {r : Ref} (found : h.textWithin depth r = some t) :
    h.Spells (.collection r) t := by
  induction depth generalizing r t with
  | zero => cases found
  | succ depth ih =>
    rw [textWithin, Option.map_eq_some_iff] at found
    obtain ⟨parts, each, rfl⟩ := found
    exact .collection (Value.spellsAll_of_partsWith (fun r t => ih) (h.items r) each)

mutual
/-- What the rules give is found from some depth on. -/
theorem Spells.exists_depth : ∀ {v : Value} {s : String}, h.Spells v s →
    ∃ depth, v.textWith (h.textWithin depth) = some s
  | _, _, .null => ⟨0, by rw [Value.textWith]⟩
  | _, _, .bool b => ⟨0, by rw [Value.textWith]; rfl⟩
  | _, _, .number x => ⟨0, by rw [Value.textWith]⟩
  | _, _, .text s => ⟨0, by rw [Value.textWith]⟩
  | _, _, .object .. => ⟨0, by rw [Value.textWith]⟩
  | _, _, .record _ => ⟨0, by rw [Value.textWith]⟩
  | _, _, .array each => by
    obtain ⟨depth, found⟩ := each.exists_depth
    exact ⟨depth, by rw [Value.textWith, found]; rfl⟩
  | _, _, .collection each => by
    obtain ⟨depth, found⟩ := each.exists_depth
    exact ⟨depth + 1, by rw [Value.textWith, textWithin, found]; rfl⟩

theorem SpellsAll.exists_depth : ∀ {vs : List Value} {parts : List String}, h.SpellsAll vs parts →
    ∃ depth, Value.partsWith (h.textWithin depth) vs = some parts
  | _, _, .nil => ⟨0, by rw [Value.partsWith]⟩
  | _, _, .null rest => by
    obtain ⟨depth, found⟩ := rest.exists_depth
    exact ⟨depth, by rw [Value.partsWith_null, found]; rfl⟩
  | v :: vs, _, .cons present first rest => by
    obtain ⟨depth, found⟩ := first.exists_depth
    obtain ⟨depth', found'⟩ := rest.exists_depth
    refine ⟨max depth depth', ?_⟩
    have left :=
      Value.textWith_mono (fun _ _ => textWithin_le (Nat.le_max_left depth depth')) v found
    have right :=
      Value.partsWith_mono (fun _ _ => textWithin_le (Nat.le_max_right depth depth')) vs found'
    rw [Value.partsWith_present _ present, left, right]
    rfl
end

theorem spells_of_text (found : h.text v = some s) : h.Spells v s :=
  Value.spells_of_textWith (fun _ _ => spells_of_textWithin) v found

/-- The rules give a text exactly when it is found within some depth. -/
theorem spells_iff : h.Spells v s ↔ ∃ depth, v.textWith (h.textWithin depth) = some s :=
  ⟨Spells.exists_depth, fun ⟨_, found⟩ =>
    Value.spells_of_textWith (fun _ _ => spells_of_textWithin) v found⟩

/-- A value has one text. -/
theorem Spells.unique (first : h.Spells v s) (second : h.Spells v t) : s = t := by
  obtain ⟨depth, found⟩ := first.exists_depth
  obtain ⟨depth', found'⟩ := second.exists_depth
  have left :=
    Value.textWith_mono (fun _ _ => textWithin_le (Nat.le_max_left depth depth')) v found
  have right :=
    Value.textWith_mono (fun _ _ => textWithin_le (Nat.le_max_right depth depth')) v found'
  exact Option.some.inj (left.symm.trans right)

end Heap

end ReactiveQuery
