import Mathlib.Data.List.Forall2
import ReactiveQuery.Proofs.Value.Plain
import ReactiveQuery.Query.Evaluate

/-! The order of sort keys.  Equality under conversion is symmetric and the order of a pair is that
of the swapped pair turned around, so of two rows of keys never both are the greater one.  Neither
is transitive over values of several kinds; among values of one kind the order of rows is. -/

namespace ReactiveQuery

open Std (LawfulEqOrd OrientedCmp TransCmp)

theorem Double.compare?_swap (x y : Double) :
    y.compare? x = (x.compare? y).map Ordering.swap := by
  unfold compare?
  cases x.rank with
  | none => cases y.rank <;> rfl
  | some i =>
    cases y.rank with
    | none => rfl
    | some j => simp only [Option.map_some, ← OrientedCmp.eq_swap]

namespace Primitive

theorem looseEq_symm (p q : Primitive) : p.looseEq q = q.looseEq p := by
  cases p <;> cases q <;> simp [looseEq, Double.equals_symm, Bool.beq_comm]

theorem compare?_swap (p q : Primitive) : q.compare? p = (p.compare? q).map Ordering.swap := by
  cases p <;> cases q <;> simp only [compare?, Option.map_some, ← OrientedCmp.eq_swap] <;>
    exact Double.compare?_swap _ _

end Primitive

namespace Heap

variable {h : Heap} {ascending : Bool} {a b : Value}

theorem looseEq_symm (h : Heap) (a b : Value) : h.looseEq a b = h.looseEq b a := by
  unfold looseEq
  rw [Bool.or_comm, Bool.and_comm a.isNull, Bool.and_comm a.isContainer, Value.sameContainer_symm]
  cases h.primitive a with
  | none => cases h.primitive b <;> rfl
  | some p =>
    cases h.primitive b with
    | none => rfl
    | some q => simp only [Option.bind_eq_bind, Option.bind_some, Primitive.looseEq_symm p q]

theorem looseCompare_swap (h : Heap) (a b : Value) :
    h.looseCompare b a = (h.looseCompare a b).map (·.map Ordering.swap) := by
  unfold looseCompare
  cases h.primitive a with
  | none => cases h.primitive b <;> rfl
  | some p =>
    cases h.primitive b with
    | none => rfl
    | some q =>
      simp only [Option.bind_eq_bind, Option.bind_some, Option.map_some, pure,
        Primitive.compare?_swap p q]

/-- Is the first key greater, in the direction that is asked for? -/
def keyGreater (h : Heap) (ascending : Bool) (a b : Value) : Option Bool :=
  if ascending then h.greater a b else h.less a b

/-- Of two keys never both are the greater one. -/
theorem keyGreater_swap (greater : h.keyGreater ascending a b = some true) :
    h.keyGreater ascending b a = some false := by
  cases ascending <;>
    simp only [keyGreater, Heap.greater, Heap.less, if_true, Bool.false_eq_true, if_false,
      looseCompare_swap h a b, Option.bind_eq_bind, Option.bind_eq_some_iff, pure,
      Option.some.injEq, beq_iff_eq] at greater ⊢
  all_goals
    obtain ⟨order, found, rfl⟩ := greater
    exact ⟨_, by rw [found]; rfl, rfl⟩

/-- Keys are equal, or else the greater one is behind in the direction that is asked for. -/
theorem compareKeys_iff {order : Ordering} : h.compareKeys ascending a b = some order ↔
    h.looseEq a b = some true ∧ order = .eq ∨
      h.looseEq a b = some false ∧
        ∃ greater, h.keyGreater ascending a b = some greater ∧
          order = if greater then .gt else .lt := by
  unfold compareKeys keyGreater
  rcases h.looseEq a b with _ | _ | _
  · simp
  · rcases ascending with _ | _
    · rcases h.less a b with _ | _ | _ <;> simp [eq_comm]
    · rcases h.greater a b with _ | _ | _ <;> simp [eq_comm]
  · simp [eq_comm]

theorem compareKeys_symm (equal : h.compareKeys ascending a b = some .eq) :
    h.compareKeys ascending b a = some .eq := by
  rw [compareKeys_iff] at equal ⊢
  obtain ⟨equal, -⟩ | ⟨-, greater, -, other⟩ := equal
  · exact .inl ⟨by rw [looseEq_symm, equal], rfl⟩
  · cases greater <;> cases other

theorem compareKeys_swap (greater : h.compareKeys ascending a b = some .gt) :
    h.compareKeys ascending b a = some .lt := by
  rw [compareKeys_iff] at greater ⊢
  obtain ⟨-, ⟨⟩⟩ | ⟨apart, behind, found, order⟩ := greater
  cases behind with
  | true => exact .inr ⟨by rw [looseEq_symm, apart], false, keyGreater_swap found, rfl⟩
  | false => cases order

/-- Keys that can be converted can be compared. -/
theorem isSome_compareKeys (ascending : Bool) (left : (h.primitive a).isSome)
    (right : (h.primitive b).isSome) : (h.compareKeys ascending a b).isSome := by
  obtain ⟨p, left⟩ := Option.isSome_iff_exists.mp left
  obtain ⟨q, right⟩ := Option.isSome_iff_exists.mp right
  obtain ⟨e, equal⟩ := exists_looseEq left right
  simp only [compareKeys, equal, Heap.greater, Heap.less, looseCompare, left, right,
    Option.bind_eq_bind, Option.bind_some, pure]
  cases e <;> cases ascending <;> rfl

/-- Keys whose order is known come in it or, downwards, in the order turned around. -/
theorem compareKeys_of_order {order : Ordering} (ascending : Bool)
    (equal : h.looseEq a b = some (order == .eq))
    (found : h.looseCompare a b = some (some order)) :
    h.compareKeys ascending a b = some (if ascending then order else order.swap) := by
  unfold compareKeys
  rw [equal, Heap.greater, Heap.less, found]
  cases order <;> cases ascending <;> rfl

end Heap

/-- Keys that are in order among themselves: texts, and numbers with booleans. -/
inductive Scale where
  | text
  | number

namespace Scale

def letters : Value → Option String
  | .text s => some s
  | _ => none

/-- A number, or a boolean as one. -/
def numeral : Value → Option Double
  | .bool b => some (Primitive.bool b).toNumber
  | .number x => some x
  | _ => none

/-- The place on the number line; NaN has none. -/
def rank (a : Value) : Option Int := (numeral a).bind Double.rank

/-- Has a value a place on the scale? -/
def holds : Scale → Value → Bool
  | .text, a => (letters a).isSome
  | .number, a => (rank a).isSome

def order : Scale → Value → Value → Ordering
  | .text => compareOn letters
  | .number => compareOn rank

instance : (scale : Scale) → TransCmp scale.order
  | .text => inferInstanceAs (TransCmp (compareOn letters))
  | .number => inferInstanceAs (TransCmp (compareOn rank))

variable {scale : Scale} {h : Heap} {a b : Value}

theorem beq_compare {α : Type} [Ord α] [DecidableEq α] [LawfulEqOrd α] (x y : α) :
    (x == y) = (compare x y == .eq) := by
  rw [Bool.eq_iff_iff, beq_iff_eq, beq_iff_eq, LawfulEqOrd.compare_eq_iff_eq]

theorem loose_numeral {x y : Double} (left : numeral a = some x) (right : numeral b = some y) :
    h.looseEq a b = some (x.equals y) ∧ h.looseCompare a b = some (x.compare? y) := by
  cases a <;> cases left <;> cases b <;> cases right <;> exact ⟨rfl, rfl⟩

/-- Among the values on a scale, equality and order under conversion are those of the scale. -/
theorem loose_order (left : scale.holds a) (right : scale.holds b) :
    h.looseEq a b = some (scale.order a b == .eq) ∧
      h.looseCompare a b = some (some (scale.order a b)) := by
  cases scale with
  | text =>
    cases a <;> cases left
    cases b <;> cases right
    exact ⟨congrArg some (beq_compare _ _), rfl⟩
  | number =>
    obtain ⟨i, left⟩ := Option.isSome_iff_exists.mp left
    obtain ⟨j, right⟩ := Option.isSome_iff_exists.mp right
    have place : order .number a b = compare i j := by
      simp only [order, compareOn, left, right]
      rfl
    obtain ⟨x, left, onLeft⟩ := Option.bind_eq_some_iff.mp left
    obtain ⟨y, right, onRight⟩ := Option.bind_eq_some_iff.mp right
    have loose := loose_numeral (h := h) left right
    rw [Double.equals, Double.compare?, onLeft, onRight] at loose
    rw [place, ← beq_compare]
    exact loose

/-- In either direction the keys on a scale are in a total order. -/
theorem exists_compareKeys (h : Heap) (scale : Scale) (ascending : Bool) :
    ∃ order : Value → Value → Ordering, TransCmp order ∧ ∀ a b, scale.holds a → scale.holds b →
      h.compareKeys ascending a b = some (order a b) := by
  have ordered := fun {a b} (left : scale.holds a) (right : scale.holds b) =>
    (loose_order left right).elim (Heap.compareKeys_of_order (h := h) ascending)
  cases ascending with
  | true => exact ⟨scale.order, inferInstance, fun a b => ordered⟩
  | false =>
    refine ⟨fun a b => scale.order b a, inferInstance, fun a b left right => ?_⟩
    rw [ordered left right, ← (OrientedCmp.eq_swap : scale.order b a = _)]
    rfl

end Scale

section
variable {h : Heap} {flags : List Bool} {as bs cs : List Value}

/-- Of two rows never both are the greater one. -/
theorem compareRows_swap (greater : compareRows h flags as bs = some .gt) :
    compareRows h flags bs as = some .lt := by
  induction flags generalizing as bs with
  | nil => cases as <;> cases bs <;> simp [compareRows] at greater
  | cons ascending flags ih =>
    match as, bs with
    | [], _ | _ :: _, [] => simp [compareRows] at greater
    | a :: as, b :: bs =>
      simp only [compareRows, Option.bind_eq_bind, Option.bind_eq_some_iff] at greater ⊢
      obtain ⟨order, first, rest⟩ := greater
      cases order with
      | eq => exact ⟨.eq, Heap.compareKeys_symm first, ih rest⟩
      | gt => exact ⟨.lt, Heap.compareKeys_swap first, rfl⟩
      | lt => cases rest

/-- Rows of keys that can be converted can be compared. -/
theorem isSome_compareRows (left : ∀ a ∈ as, (h.primitive a).isSome)
    (right : ∀ b ∈ bs, (h.primitive b).isSome) : (compareRows h flags as bs).isSome := by
  induction flags generalizing as bs with
  | nil => cases as <;> cases bs <;> rfl
  | cons ascending flags ih =>
    match as, bs with
    | [], _ | _ :: _, [] => simp [compareRows]
    | a :: as, b :: bs =>
      obtain ⟨order, first⟩ := Option.isSome_iff_exists.mp
        (Heap.isSome_compareKeys ascending (left a (by simp)) (right b (by simp)))
      simp only [compareRows, Option.bind_eq_bind, first, Option.bind_some]
      cases order with
      | eq => exact ih (fun a ha => left a (by simp [ha])) fun b hb => right b (by simp [hb])
      | lt | gt => rfl

/-- Among rows whose keys are on the same scales, what is not greater than a row is not greater than
any row that this one is not greater than. -/
theorem compareRows_trans {scales : List Scale} (first : List.Forall₂ (·.holds ·) scales as)
    (second : List.Forall₂ (·.holds ·) scales bs) (third : List.Forall₂ (·.holds ·) scales cs)
    (left : compareRows h flags as bs ≠ some .gt) (right : compareRows h flags bs cs ≠ some .gt) :
    compareRows h flags as cs ≠ some .gt := by
  induction flags generalizing scales as bs cs with
  | nil => cases as <;> cases cs <;> simp [compareRows]
  | cons ascending flags ih =>
    cases first with
    | nil => cases cs <;> simp [compareRows]
    | @cons scale a scales as first firsts =>
      cases second with
      | @cons _ b _ bs second seconds =>
        cases third with
        | @cons _ c _ cs third thirds =>
          obtain ⟨order, _, keys⟩ := Scale.exists_compareKeys h scale ascending
          simp only [compareRows, keys a b first second, keys b c second third,
            keys a c first third, Option.bind_eq_bind, Option.bind_some] at left right ⊢
          cases ab : order a b with
          | gt => simp [ab] at left
          | eq =>
            cases bc : order b c with
            | gt => simp [bc] at right
            | eq =>
              rw [TransCmp.eq_trans ab bc]
              exact ih firsts seconds thirds (by simpa [ab] using left) (by simpa [bc] using right)
            | lt => simp [TransCmp.lt_of_eq_of_lt ab bc]
          | lt =>
            cases bc : order b c with
            | gt => simp [bc] at right
            | eq => simp [TransCmp.lt_of_lt_of_eq ab bc]
            | lt => simp [TransCmp.lt_trans ab bc]

end

end ReactiveQuery
