import ReactiveQuery.Proofs.Change.Net
import ReactiveQuery.Proofs.Value.Membership
import ReactiveQuery.Proofs.Value.Order

/-! How equality, equality under conversion and order under conversion fit together.  Equality is
decided kind by kind and order by what values convert to, and the two agree on what is equal as
long as one container converts to one text. -/

namespace ReactiveQuery

theorem Double.compare?_of_equals {x y : Double} (equal : x.equals y = true) :
    x.compare? y = some .eq := by
  obtain ⟨i, left, right⟩ := equals_iff.mp equal
  simp only [compare?, left, right]
  exact congrArg some (Std.LawfulEqOrd.compare_eq_iff_eq.mpr rfl)

theorem Primitive.compare?_of_looseEq {p q : Primitive} (equal : p.looseEq q = true) :
    p.compare? q = some .eq := by
  cases p <;> cases q
  case null.null => rfl
  case text.text s t =>
    obtain rfl := eq_of_beq equal
    exact congrArg some (Std.LawfulEqOrd.compare_eq_iff_eq.mpr rfl)
  all_goals first
    | cases equal
    | exact Double.compare?_of_equals equal

namespace Heap

variable {h : Heap} {a b : Value}

/-- The text of a collection is that of its place. -/
theorem textWithin_of_loc {r s : Ref} (same : r.loc = s.loc) (depth : Nat) :
    h.textWithin depth r = h.textWithin depth s := by
  cases depth with
  | zero => rfl
  | succ depth => rw [textWithin, textWithin, items, items, collection?, collection?, same]

theorem primitive_of_isContainer (container : a.isContainer = true) :
    h.primitive a = (h.text a).map .text := by
  cases a <;> first | rfl | cases container

/-- One container has one text. -/
theorem Tiered.text_of_sameContainer (tiered : h.Tiered) (left : ∀ r ∈ a.collections, h.Shows r)
    (right : ∀ r ∈ b.collections, h.Shows r)
    (tagged : ∀ tag xs ys, a = .array tag xs → b = .array tag ys → xs = ys)
    (one : a.sameContainer b = true) : h.text a = h.text b := by
  cases a <;> cases b <;> simp only [Value.sameContainer, Bool.false_eq_true, beq_iff_eq] at one
  case array.array s xs t ys =>
    obtain rfl := one
    rw [tagged s xs ys rfl rfl]
  case object.object | record.record => simp [text, Value.textWith]
  case collection.collection r s =>
    obtain ⟨c, here, shown⟩ := left r (by simp [Value.collections])
    obtain ⟨d, there, shown'⟩ := right s (by simp [Value.collections])
    have place : r.loc = s.loc := tiered.unique r.loc s.loc c d (collection?_eq_some.mp here)
      (collection?_eq_some.mp there) (by rw [shown, shown', one])
    simp only [text, Value.textWith]
    exact textWithin_of_loc place _

/-- What is equal without conversion is equal under conversion. -/
theorem looseEq_of_strictEq (equal : a.strictEq b = true) : h.looseEq a b = some true := by
  cases a <;> cases b <;>
    simp_all [Value.strictEq, Value.sameContainer, looseEq, Value.isNull, Value.isContainer,
      Value.kind, Kind.isContainer, primitive, Primitive.looseEq, Primitive.toNumber]
  case bool.bool => split <;> decide +kernel

/-- How two values compare: whether they are equal, with conversion or without, and which of them
comes first, as values and as sort keys of either direction. -/
structure Coherent (h : Heap) (a b : Value) : Prop where
  converts : (∃ equal, h.looseEq a b = some equal) ∧ ∃ order, h.looseCompare a b = some order
  loose_symm : h.looseEq b a = h.looseEq a b
  strict_symm : b.strictEq a = a.strictEq b
  strict_trans : ∀ c, a.strictEq b = true → b.strictEq c = true → a.strictEq c = true
  loose_of_strict : a.strictEq b = true → h.looseEq a b = some true
  level_of_loose : h.looseEq a b = some true →
    h.looseCompare a b = some (some .eq) ∧
      h.greater a b = some false ∧ h.less a b = some false ∧
      h.atLeast a b = some true ∧ h.atMost a b = some true
  compare_swap : h.looseCompare b a = (h.looseCompare a b).map (·.map Ordering.swap)
  mirrored : h.greater b a = h.less a b ∧ h.less b a = h.greater a b
  exclusive : ¬(h.greater a b = some true ∧ h.less a b = some true)
  keys : ∀ ascending, ∃ order, h.compareKeys ascending a b = some order
  keys_turned : h.compareKeys false a b = h.compareKeys true b a
  keys_exclusive : ∀ ascending,
    ¬(h.compareKeys ascending a b = some .gt ∧ h.compareKeys ascending b a = some .gt)

theorem less_swap (h : Heap) (a b : Value) : h.less b a = h.greater a b := by
  rw [less, greater, looseCompare_swap h a b]
  cases h.looseCompare a b with
  | none => rfl
  | some order => rcases order with _ | _ | _ | _ <;> rfl

theorem not_greater_and_less : ¬(h.greater a b = some true ∧ h.less a b = some true) := by
  rw [greater, less]
  cases h.looseCompare a b with
  | none => simp
  | some order => rcases order with _ | _ | _ | _ <;> simp

theorem compareKeys_turned (h : Heap) (a b : Value) :
    h.compareKeys false a b = h.compareKeys true b a := by
  simp only [compareKeys, looseEq_symm h b a, ← less_swap h b a, if_true, Bool.false_eq_true,
    if_false]

/-- Values that are equal under conversion are level in the order under conversion: two primitives
that are equal are, and one container has one text. -/
theorem Tiered.looseCompare_of_looseEq (tiered : h.Tiered)
    (left : ∀ r ∈ a.collections, h.Shows r) (right : ∀ r ∈ b.collections, h.Shows r)
    (tagged : ∀ tag xs ys, a = .array tag xs → b = .array tag ys → xs = ys)
    (equal : h.looseEq a b = some true) : h.looseCompare a b = some (some .eq) := by
  obtain ⟨p, first⟩ := tiered.exists_primitive left
  obtain ⟨q, second⟩ := tiered.exists_primitive right
  have ends : h.looseCompare a b = some (p.compare? q) := by
    simp only [looseCompare, first, second, Option.bind_eq_bind, Option.bind_some, pure]
  rw [ends]
  unfold looseEq at equal
  split at equal
  · have nulls : a.isNull = true ∧ b.isNull = true := by simpa using equal
    cases a <;> cases nulls.1
    cases b <;> cases nulls.2
    cases first
    cases second
    rfl
  · split at equal
    · next containers =>
      rw [Bool.and_eq_true] at containers
      have same := tiered.text_of_sameContainer left right tagged (Option.some.inj equal)
      rw [primitive_of_isContainer containers.1] at first
      rw [primitive_of_isContainer containers.2, ← same] at second
      obtain ⟨s, found, rfl⟩ := Option.map_eq_some_iff.mp first
      rw [found] at second
      cases second
      exact congrArg some (Primitive.compare?_of_looseEq (beq_self_eq_true s))
    · rw [first, second] at equal
      exact congrArg some (Primitive.compare?_of_looseEq (Option.some.inj equal))

/-- Equality and order of values fit together, wherever each handle leads to one collection, a tag
is that of one array, and no collection is come to again through what it holds. -/
theorem Tiered.coherent (tiered : h.Tiered) (left : ∀ r ∈ a.collections, h.Shows r)
    (right : ∀ r ∈ b.collections, h.Shows r)
    (tagged : ∀ tag xs ys, a = .array tag xs → b = .array tag ys → xs = ys) : h.Coherent a b := by
  obtain ⟨p, first⟩ := tiered.exists_primitive left
  obtain ⟨q, second⟩ := tiered.exists_primitive right
  exact {
    converts :=
      ⟨exists_looseEq first second, p.compare? q, by rw [looseCompare, first, second]; rfl⟩
    loose_symm := looseEq_symm h b a
    strict_symm := Value.strictEq_symm b a
    strict_trans := fun _ => Value.strictEq_trans
    loose_of_strict := looseEq_of_strictEq
    level_of_loose := fun equal => by
      have level := tiered.looseCompare_of_looseEq left right tagged equal
      refine ⟨level, ?_, ?_, ?_, ?_⟩
      · rw [greater, level]; rfl
      · rw [less, level]; rfl
      · rw [atLeast, level]; rfl
      · rw [atMost, level]; rfl
    compare_swap := looseCompare_swap h a b
    mirrored := ⟨(less_swap h b a).symm, less_swap h a b⟩
    exclusive := not_greater_and_less
    keys := fun ascending => Option.isSome_iff_exists.mp (isSome_compareKeys ascending
      (Option.isSome_iff_exists.mpr ⟨p, first⟩) (Option.isSome_iff_exists.mpr ⟨q, second⟩))
    keys_turned := compareKeys_turned h a b
    keys_exclusive := fun ascending => by
      rintro ⟨before, after⟩
      rw [compareKeys_swap before] at after
      cases after }

namespace Nested

/-- A collection that holds another one in an array, and a record. -/
def heap : Heap where
  cells := #[
    some (.collection
      ⟨1, [.text "a", .array 0 [.null, .collection ⟨1, 2⟩], .record ⟨2, 3⟩], .bus, {}⟩),
    some (.collection ⟨2, [.number .one], .bus, {}⟩),
    some (.record ⟨3, [], .bus⟩)]
  nextTag := 1

def outer : Value := .collection ⟨0, 1⟩

def label : Value := .text "a,,1,[object Object]"

theorem cell_cases {l : Nat} {c : CollectionCell} (here : heap.cell? l = some (.collection c)) :
    (l = 0 ∧ c.id = 1 ∧ Value.collectionsOfItems c.items = [⟨1, 2⟩]) ∨
      (l = 1 ∧ c.id = 2 ∧ Value.collectionsOfItems c.items = []) := by
  match l with
  | 0 =>
    cases here
    exact .inl ⟨rfl, rfl, rfl⟩
  | 1 =>
    cases here
    exact .inr ⟨rfl, rfl, rfl⟩
  | 2 => cases here
  | l + 3 => simp [cell?, heap] at here

theorem nests {l m : Nat} (nested : heap.Nests l m) : l < m := by
  obtain ⟨c, here, r, member, rfl⟩ := nested
  obtain ⟨rfl, -, items⟩ | ⟨-, -, items⟩ := cell_cases here
  · obtain rfl : r = ⟨1, 2⟩ := by simpa [items] using member
    decide
  · simp [items] at member

theorem tiered : heap.Tiered where
  acyclic l again := by
    have down : Relation.TransGen (· < ·) l l := Relation.TransGen.mono (fun _ _ => nests) l l again
    rw [Relation.transGen_eq_self] at down
    exact Nat.lt_irrefl l down
  shown l c here r member := by
    obtain ⟨-, -, items⟩ | ⟨-, -, items⟩ := cell_cases here
    · obtain rfl : r = ⟨1, 2⟩ := by simpa [items] using member
      exact ⟨_, rfl, rfl⟩
    · simp [items] at member
  unique l m c d here there same := by
    obtain ⟨rfl, first, -⟩ | ⟨rfl, first, -⟩ := cell_cases here <;>
      obtain ⟨rfl, second, -⟩ | ⟨rfl, second, -⟩ := cell_cases there <;> simp_all

theorem coherent_nested : heap.looseEq outer label = some true ∧ outer.strictEq label = false ∧
    heap.Coherent outer label :=
  ⟨by decide +kernel, rfl, tiered.coherent
    (List.forall_mem_singleton.mpr ⟨_, rfl, rfl⟩) (fun _ => (absurd · List.not_mem_nil))
    (by simp [outer])⟩

end Nested

end Heap

end ReactiveQuery
