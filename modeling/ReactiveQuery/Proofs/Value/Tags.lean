import Mathlib.Data.List.Forall2
import ReactiveQuery.Proofs.Value.Plain

/-! Tags of containers.  Only whether two tags are equal can be observed, so values in which tags
are renamed are read, compared and computed with in the same way.  In a run every tag stands for
one container, and then strictly equal values are one value, but for the two zeros. -/

namespace ReactiveQuery

/-- Numbers of one position on the number line are one number, or both are zeros. -/
theorem Double.eq_or_zeros_of_rank {x y : Double} (level : x.rank = y.rank) :
    x = y ∨ ∃ a b, x = .signed a .zero ∧ y = .signed b .zero := by
  obtain _ | ⟨a, m, hm⟩ := x <;> obtain _ | ⟨b, n, hn⟩ := y <;>
    simp only [rank, Option.some.injEq, reduceCtorEq] at level
  · exact .inl rfl
  · by_cases zero : m = 0
    · obtain rfl : n = 0 := by split at level <;> split at level <;> omega
      subst zero
      exact .inr ⟨a, b, rfl, rfl⟩
    · obtain rfl : a = b := by
        cases a <;> cases b <;>
          first | rfl | (simp only [Bool.false_eq_true, ↓reduceIte] at level; omega)
      obtain rfl : m = n := by split at level <;> omega
      exact .inl rfl

/-- Numbers that are equal are the same one, unless they are zeros of two signs. -/
theorem Double.eq_of_equals {x y : Double} (left : x ≠ .signed true .zero)
    (right : y ≠ .signed true .zero) (equal : x.equals y = true) : x = y := by
  have level : x.rank = y.rank := by
    unfold equals at equal
    split at equal
    · next i j first second => rw [first, second, eq_of_beq equal]
    · cases equal
  obtain same | ⟨a, b, rfl, rfl⟩ := eq_or_zeros_of_rank level
  · exact same
  · cases a <;> cases b <;> simp_all

namespace Value

mutual
/-- A value with the tags of its containers renamed. -/
def retag (ρ : Nat → Nat) : Value → Value
  | .null => .null
  | .bool b => .bool b
  | .number x => .number x
  | .text s => .text s
  | .array t items => .array (ρ t) (retagItems ρ items)
  | .object t fields => .object (ρ t) (retagFields ρ fields)
  | .record r => .record r
  | .collection r => .collection r

def retagItems (ρ : Nat → Nat) : List Value → List Value
  | [] => []
  | v :: vs => retag ρ v :: retagItems ρ vs

def retagFields (ρ : Nat → Nat) : List (String × Value) → List (String × Value)
  | [] => []
  | (k, v) :: vs => (k, retag ρ v) :: retagFields ρ vs
end

section
variable (ρ : Nat → Nat)

theorem retagItems_eq (vs : List Value) : retagItems ρ vs = vs.map (retag ρ) := by
  induction vs with
  | nil => rfl
  | cons v vs ih => exact congrArg (v.retag ρ :: ·) ih

theorem retagFields_eq (fields : List (String × Value)) :
    retagFields ρ fields = fields.map fun e => (e.1, e.2.retag ρ) := by
  induction fields with
  | nil => rfl
  | cons e fields ih => exact congrArg ((e.1, e.2.retag ρ) :: ·) ih

@[simp] theorem retag_array (t : Nat) (items : List Value) :
    (array t items).retag ρ = .array (ρ t) (items.map (retag ρ)) :=
  congrArg (array (ρ t)) (retagItems_eq ρ items)

@[simp] theorem retag_object (t : Nat) (fields : List (String × Value)) :
    (object t fields).retag ρ = .object (ρ t) (fields.map fun e => (e.1, e.2.retag ρ)) :=
  congrArg (object (ρ t)) (retagFields_eq ρ fields)

@[simp] theorem retag_record (r : Ref) : (record r).retag ρ = .record r := rfl

@[simp] theorem retag_collection (r : Ref) : (collection r).retag ρ = .collection r := rfl

@[simp] theorem retag_null : null.retag ρ = .null := rfl

@[simp] theorem retag_bool (b : Bool) : (bool b).retag ρ = .bool b := rfl

@[simp] theorem retag_number (x : Double) : (number x).retag ρ = .number x := rfl

@[simp] theorem retag_text (s : String) : (text s).retag ρ = .text s := rfl

@[simp] theorem retag_primitive (p : Primitive) : p.toValue.retag ρ = p.toValue := by
  cases p <;> simp [Primitive.toValue]

@[simp] theorem kind_retag (v : Value) : (v.retag ρ).kind = v.kind := by cases v <;> simp [kind]

@[simp] theorem isContainer_retag (v : Value) : (v.retag ρ).isContainer = v.isContainer := by
  simp [isContainer]

@[simp] theorem isNull_retag (v : Value) : (v.retag ρ).isNull = v.isNull := by
  cases v <;> simp [isNull]

@[simp] theorem truthy_retag (v : Value) : (v.retag ρ).truthy = v.truthy := by
  cases v <;> simp [truthy]

@[simp] theorem index?_retag (v : Value) : (v.retag ρ).index? = v.index? := by
  cases v <;> simp [index?]

mutual
/-- Texts do not show tags. -/
@[simp] theorem textWith_retag (inside : Ref → Option String) :
    ∀ v : Value, (v.retag ρ).textWith inside = v.textWith inside
  | .null | .bool _ | .number _ | .text _ | .record _ | .collection _ => by simp [textWith]
  | .object _ fields => by rw [retag, textWith, textWith]
  | .array _ items => by rw [retag, textWith, textWith, partsWith_retag inside items]

theorem partsWith_retag (inside : Ref → Option String) :
    ∀ vs : List Value, partsWith inside (retagItems ρ vs) = partsWith inside vs
  | [] => rfl
  | v :: vs => by
    have first := textWith_retag inside v
    have rest := partsWith_retag inside vs
    rw [retagItems]
    cases v <;> simp only [retag] at first ⊢ <;> simp only [partsWith, rest, first]
end

mutual
/-- Renaming twice is renaming by both renamings in a row. -/
theorem retag_retag (σ : Nat → Nat) : ∀ v : Value, (v.retag ρ).retag σ = v.retag (σ ∘ ρ)
  | .null | .bool _ | .number _ | .text _ | .record _ | .collection _ => by simp
  | .array _ items => by
    rw [retag, retag, retag, retagItems_retagItems σ items, Function.comp_apply]
  | .object _ fields => by
    rw [retag, retag, retag, retagFields_retagFields σ fields, Function.comp_apply]

theorem retagItems_retagItems (σ : Nat → Nat) :
    ∀ vs : List Value, retagItems σ (retagItems ρ vs) = retagItems (σ ∘ ρ) vs
  | [] => rfl
  | v :: vs => by
    rw [retagItems, retagItems, retagItems, retag_retag σ v, retagItems_retagItems σ vs]

theorem retagFields_retagFields (σ : Nat → Nat) :
    ∀ fields : List (String × Value),
      retagFields σ (retagFields ρ fields) = retagFields (σ ∘ ρ) fields
  | [] => rfl
  | (k, v) :: fields => by
    rw [retagFields, retagFields, retagFields, retag_retag σ v, retagFields_retagFields σ fields]
end

end

mutual
/-- The tags of a value and of the containers in it. -/
def tags : Value → List Nat
  | .array t items => t :: tagsOfItems items
  | .object t fields => t :: tagsOfFields fields
  | _ => []

def tagsOfItems : List Value → List Nat
  | [] => []
  | v :: vs => v.tags ++ tagsOfItems vs

def tagsOfFields : List (String × Value) → List Nat
  | [] => []
  | (_, v) :: fields => v.tags ++ tagsOfFields fields
end

theorem tags_primitive (p : Primitive) : p.toValue.tags = [] := by cases p <;> rfl

mutual
/-- Renaming that keeps the tags of a value keeps the value. -/
theorem retag_eq {ρ : Nat → Nat} : ∀ {v : Value}, (∀ t ∈ v.tags, ρ t = t) → v.retag ρ = v
  | .null, _ | .bool _, _ | .number _, _ | .text _, _ | .record _, _ | .collection _, _ => by simp
  | .array t items, keeps => by
    rw [retag, keeps t List.mem_cons_self,
      retagItems_eq_self fun s used => keeps s (List.mem_cons_of_mem t used)]
  | .object t fields, keeps => by
    rw [retag, keeps t List.mem_cons_self,
      retagFields_eq_self fun s used => keeps s (List.mem_cons_of_mem t used)]

theorem retagItems_eq_self {ρ : Nat → Nat} :
    ∀ {vs : List Value}, (∀ t ∈ tagsOfItems vs, ρ t = t) → retagItems ρ vs = vs
  | [], _ => rfl
  | _ :: _, keeps => by
    rw [retagItems, retag_eq fun t used => keeps t (List.mem_append_left _ used),
      retagItems_eq_self fun t used => keeps t (List.mem_append_right _ used)]

theorem retagFields_eq_self {ρ : Nat → Nat} :
    ∀ {fields : List (String × Value)}, (∀ t ∈ tagsOfFields fields, ρ t = t) →
      retagFields ρ fields = fields
  | [], _ => rfl
  | (_, _) :: _, keeps => by
    rw [retagFields, retag_eq fun t used => keeps t (List.mem_append_left _ used),
      retagFields_eq_self fun t used => keeps t (List.mem_append_right _ used)]
end

/-- Lists of values are alike when they differ in nothing but tags. -/
def Alike (xs ys : List Value) : Prop :=
  xs.map (retag fun _ => 0) = ys.map (retag fun _ => 0)

namespace Alike

variable {xs ys zs : List Value}

theorem symm (h : Alike xs ys) : Alike ys xs := Eq.symm h

theorem trans (h : Alike xs ys) (h' : Alike ys zs) : Alike xs zs := Eq.trans h h'

theorem retag (ρ : Nat → Nat) (xs : List Value) : Alike (xs.map (Value.retag ρ)) xs := by
  simp [Alike, retag_retag, Function.comp_def]

end Alike

mutual
theorem same_of_retag_eq {ρ : Nat → Nat} :
    ∀ {a b : Value}, a.retag ρ = b.retag ρ → same a b = true
  | .null, b, h | .bool _, b, h | .text _, b, h | .record _, b, h | .collection _, b, h => by
    cases b <;> simp_all [same]
  | .number x, b, h => by
    cases b <;> simp at h
    subst h
    cases x <;> simp [same, Double.isNaN, Double.equals, Double.rank]
  | .array _ xs, b, h => by
    cases b <;> simp only [retag] at h <;> try exact Value.noConfusion h
    simp only [array.injEq] at h
    rw [same]
    exact sameItems_of_retag_eq h.2
  | .object _ xs, b, h => by
    cases b <;> simp only [retag] at h <;> try exact Value.noConfusion h
    simp only [object.injEq] at h
    rw [same]
    exact sameFields_of_retag_eq h.2

theorem sameItems_of_retag_eq {ρ : Nat → Nat} :
    ∀ {xs ys : List Value}, retagItems ρ xs = retagItems ρ ys → sameItems xs ys = true
  | [], [], _ => rfl
  | [], _ :: _, h | _ :: _, [], h => by simp [retagItems] at h
  | x :: xs, y :: ys, h => by
    simp only [retagItems, List.cons.injEq] at h
    rw [sameItems, same_of_retag_eq h.1, sameItems_of_retag_eq h.2]
    rfl

theorem sameFields_of_retag_eq {ρ : Nat → Nat} :
    ∀ {xs ys : List (String × Value)}, retagFields ρ xs = retagFields ρ ys →
      sameFields xs ys = true
  | [], [], _ => rfl
  | [], _ :: _, h | _ :: _, [], h => by simp [retagFields] at h
  | (k, x) :: xs, (l, y) :: ys, h => by
    simp only [retagFields, List.cons.injEq, Prod.mk.injEq] at h
    rw [sameFields, same_of_retag_eq h.1.2, sameFields_of_retag_eq h.2]
    simp [h.1.1]
end

theorem sameItems_of_forall₂ {xs ys : List Value}
    (all : List.Forall₂ (fun x y => same x y = true) xs ys) : sameItems xs ys = true := by
  induction all with
  | nil => rfl
  | cons first _ ih => rw [sameItems, first, ih, Bool.and_self]

/-- Lists that are alike are equal by content. -/
theorem Alike.sameItems {xs ys : List Value} (h : Alike xs ys) : sameItems xs ys = true :=
  sameItems_of_retag_eq (by rwa [retagItems_eq, retagItems_eq])

section
variable {ρ : Nat → Nat}

theorem sameContainer_retag (inj : Function.Injective ρ) (a b : Value) :
    (a.retag ρ).sameContainer (b.retag ρ) = a.sameContainer b := by
  cases a <;> cases b <;> simp [sameContainer, inj.eq_iff, Bool.beq_eq_decide_eq]

theorem strictEq_retag (inj : Function.Injective ρ) (a b : Value) :
    (a.retag ρ).strictEq (b.retag ρ) = a.strictEq b := by
  have same := sameContainer_retag inj a b
  cases a <;> cases b <;> simp_all [strictEq]

end

/-- Negative zero, which equals zero and is not zero. -/
def isNegativeZero : Value → Bool
  | .number x => x == .signed true .zero
  | _ => false

mutual
/-- A value fits a run when each of its tags stands for one container and each of its records and
collections carries the number of its place. -/
def Fits (containers : List Value) (size : Nat) : Value → Prop
  | .array t items => containers[t]? = some (.array t items) ∧ FitsItems containers size items
  | .object t fields => containers[t]? = some (.object t fields) ∧ FitsFields containers size fields
  | .record r | .collection r => r.id = r.loc + 1 ∧ r.loc < size
  | .null | .bool _ | .number _ | .text _ => True

def FitsItems (containers : List Value) (size : Nat) : List Value → Prop
  | [] => True
  | v :: vs => Fits containers size v ∧ FitsItems containers size vs

def FitsFields (containers : List Value) (size : Nat) : List (String × Value) → Prop
  | [] => True
  | (_, v) :: vs => Fits containers size v ∧ FitsFields containers size vs
end

section
variable {containers : List Value} {size : Nat}

theorem fitsItems_iff {vs : List Value} :
    FitsItems containers size vs ↔ ∀ v ∈ vs, v.Fits containers size := by
  induction vs with
  | nil => simp [FitsItems]
  | cons v vs ih => simp [FitsItems, ih]

theorem fitsFields_iff {fields : List (String × Value)} :
    FitsFields containers size fields ↔ ∀ e ∈ fields, e.2.Fits containers size := by
  induction fields with
  | nil => simp [FitsFields]
  | cons e fields ih => simp [FitsFields, ih]

theorem fits_primitive (p : Primitive) : p.toValue.Fits containers size := by
  cases p <;> simp [Primitive.toValue, Fits]

theorem getElem?_of_grown {xs ys : List Value} (more : xs <+: ys) {i : Nat} {v : Value}
    (h : xs[i]? = some v) : ys[i]? = some v := by
  obtain ⟨rest, rfl⟩ := more
  rw [List.getElem?_append_left (List.getElem?_eq_some_iff.mp h).1, h]

mutual
/-- What fits a run fits it later. -/
theorem Fits.later {containers' : List Value} {size' : Nat} (more : containers <+: containers')
    (grown : size ≤ size') : ∀ {v : Value}, v.Fits containers size → v.Fits containers' size'
  | .null, _ | .bool _, _ | .number _, _ | .text _, _ => by simp [Fits]
  | .record _, h | .collection _, h => by
    simp only [Fits] at h ⊢
    omega
  | .array _ items, h => by
    rw [Fits] at h ⊢
    exact ⟨getElem?_of_grown more h.1, FitsItems.later more grown h.2⟩
  | .object _ fields, h => by
    rw [Fits] at h ⊢
    exact ⟨getElem?_of_grown more h.1, FitsFields.later more grown h.2⟩

theorem FitsItems.later {containers' : List Value} {size' : Nat}
    (more : containers <+: containers') (grown : size ≤ size') :
    ∀ {vs : List Value}, FitsItems containers size vs → FitsItems containers' size' vs
  | [], _ => trivial
  | _ :: _, h => ⟨h.1.later more grown, FitsItems.later more grown h.2⟩

theorem FitsFields.later {containers' : List Value} {size' : Nat}
    (more : containers <+: containers') (grown : size ≤ size') :
    ∀ {fields : List (String × Value)},
      FitsFields containers size fields → FitsFields containers' size' fields
  | [], _ => trivial
  | (_, _) :: _, h => ⟨h.1.later more grown, FitsFields.later more grown h.2⟩
end

mutual
/-- The tags in what fits are those of containers. -/
theorem Fits.tags_lt : ∀ {v : Value}, v.Fits containers size → ∀ t ∈ v.tags, t < containers.length
  | .null, _, _, used | .bool _, _, _, used | .number _, _, _, used | .text _, _, _, used
  | .record _, _, _, used | .collection _, _, _, used => by simp [tags] at used
  | .array _ items, h, t, used => by
    rw [Fits] at h
    rcases List.mem_cons.mp used with rfl | used
    · exact (List.getElem?_eq_some_iff.mp h.1).1
    · exact FitsItems.tags_lt h.2 t used
  | .object _ fields, h, t, used => by
    rw [Fits] at h
    rcases List.mem_cons.mp used with rfl | used
    · exact (List.getElem?_eq_some_iff.mp h.1).1
    · exact FitsFields.tags_lt h.2 t used

theorem FitsItems.tags_lt : ∀ {vs : List Value}, FitsItems containers size vs →
    ∀ t ∈ tagsOfItems vs, t < containers.length
  | [], _, _, used => absurd used List.not_mem_nil
  | _ :: _, h, t, used => (List.mem_append.mp used).elim (h.1.tags_lt t) (FitsItems.tags_lt h.2 t)

theorem FitsFields.tags_lt : ∀ {fields : List (String × Value)},
    FitsFields containers size fields → ∀ t ∈ tagsOfFields fields, t < containers.length
  | [], _, _, used => absurd used List.not_mem_nil
  | (_, _) :: _, h, t, used =>
    (List.mem_append.mp used).elim (h.1.tags_lt t) (FitsFields.tags_lt h.2 t)
end

/-- In a run strict equality tells values apart, but for the two zeros. -/
theorem Fits.eq_of_strictEq {a b : Value} (ha : a.Fits containers size)
    (hb : b.Fits containers size) (left : a.isNegativeZero = false)
    (right : b.isNegativeZero = false) (equal : a.strictEq b = true) : a = b := by
  cases a <;> cases b <;> simp only [strictEq, sameContainer, Bool.false_eq_true] at equal
  case null.null => rfl
  case bool.bool | text.text => rw [eq_of_beq equal]
  case number.number x y =>
    rw [Double.eq_of_equals (by simpa [isNegativeZero] using left)
      (by simpa [isNegativeZero] using right) equal]
  case array.array | object.object =>
    have tags := eq_of_beq equal
    subst tags
    rw [Fits] at ha hb
    exact Option.some.inj (ha.1.symm.trans hb.1)
  case record.record r s | collection.collection r s =>
    simp only [Fits] at ha hb
    have same : r.loc = s.loc := by
      have := eq_of_beq equal
      omega
    obtain ⟨l, i⟩ := r
    obtain ⟨m, j⟩ := s
    simp_all

end

end Value

/-- The renaming of tags from `n` on to tags from `m` on. -/
def shiftTags (n m t : Nat) : Nat := if t < n then t else t - n + m

theorem shiftTags_of_lt {n m t : Nat} (old : t < n) : shiftTags n m t = t := if_pos old

theorem shiftTags_add (n m i : Nat) : shiftTags n m (n + i) = m + i := by
  unfold shiftTags
  split <;> omega

theorem shiftTags_injective {n m : Nat} (later : n ≤ m) : Function.Injective (shiftTags n m) := by
  intro s t same
  unfold shiftTags at same
  split at same <;> split at same <;> omega

end ReactiveQuery
