import ReactiveQuery.Proofs.Value.Tags
import ReactiveQuery.Value.Term

/-! Reading written values that make no records and no collections.  It takes tags and changes
nothing else, and what is read fits the run and leads only where the names lead. -/

namespace ReactiveQuery

namespace Term

mutual
/-- Does a written value make no record and no collection? -/
def isPlain : Term → Bool
  | .null | .bool _ | .number _ | .text _ | .copies .. | .named _ => true
  | .array items => allPlain items
  | .object pairs => pairsPlain pairs
  | .record .. | .collection .. => false

def allPlain : List Term → Bool
  | [] => true
  | t :: ts => isPlain t && allPlain ts

def pairsPlain : List (String × Term) → Bool
  | [] => true
  | (_, t) :: ts => isPlain t && pairsPlain ts
end

section
variable (names : FieldMap Value)

mutual
/-- Where the names in a written value lead. -/
def places : Term → List Nat
  | .null | .bool _ | .number _ | .text _ | .copies .. => []
  | .named name => ((FieldMap.get? name names).getD .null).places
  | .array items | .collection _ items => placesOfAll items
  | .object pairs | .record _ pairs => placesOfPairs pairs

def placesOfAll : List Term → List Nat
  | [] => []
  | t :: ts => places t ++ placesOfAll ts

def placesOfPairs : List (String × Term) → List Nat
  | [] => []
  | (_, t) :: ts => places t ++ placesOfPairs ts
end

end

end Term

/-- A heap of a given size fits a run when all that its cells hold does. -/
structure Heap.Fits (h : Heap) (containers : List Value) (size : Nat) : Prop where
  sized : h.cells.size = size
  tags : containers.length = h.nextTag
  items : ∀ r : Ref, ∀ v ∈ h.items r, v.Fits containers size
  fields : ∀ r : Ref, ∀ e ∈ h.fields r, e.2.Fits containers size

/-- A heap that has gone on to take tags, and is the same otherwise. -/
structure Heap.Advances (h k : Heap) : Prop where
  tags : h.nextTag ≤ k.nextTag
  same : k = { h with nextTag := k.nextTag }

namespace Value

variable {size : Nat} {containers : List Value}

theorem fits_get? {fields : FieldMap Value} (key : String)
    (fits : ∀ e ∈ fields, e.2.Fits containers size) :
    ((FieldMap.get? key fields).getD .null).Fits containers size := by
  cases found : FieldMap.get? key fields with
  | none => trivial
  | some v => exact fits _ (FieldMap.mem_of_get? found)

theorem fits_later {more : List Value} (grown : containers <+: more) (v : Value)
    (fits : v.Fits containers size) : v.Fits more size := fits.later grown (Nat.le_refl _)

end Value

namespace Heap.Advances

theorem refl (h : Heap) : h.Advances h := ⟨Nat.le_refl _, rfl⟩

theorem trans {h k l : Heap} (first : h.Advances k) (second : k.Advances l) : h.Advances l where
  tags := Nat.le_trans first.tags second.tags
  same := by rw [second.same, first.same]

end Heap.Advances

/-- From heaps that fit, a computation only takes tags, to a heap that fits with more containers,
and gives what is told of those. -/
def Heap.Fitting {α : Type} (size : Nat) (containers : List Value) (x : StateM Heap α)
    (Q : List Value → α → Prop) : Prop :=
  ∀ h : Heap, h.Fits containers size →
    ∃ more, containers <+: more ∧ (x.run h).2.Fits more size ∧ h.Advances (x.run h).2 ∧
      Q more (x.run h).1

namespace Heap.Fitting

variable {α β : Type} {size : Nat} {containers : List Value} {Q : List Value → α → Prop}
  {R : List Value → β → Prop}

theorem ret {a : α} (given : Q containers a) : Fitting size containers (pure a) Q :=
  fun h fits => ⟨containers, List.prefix_refl _, fits, .refl h, given⟩

theorem bind {x : StateM Heap α} {f : α → StateM Heap β} (first : Fitting size containers x Q)
    (rest : ∀ more a, containers <+: more → Q more a → Fitting size more (f a) R) :
    Fitting size containers (x >>= f) R := by
  intro h fits
  obtain ⟨more, grown, fits, advances, given⟩ := first h fits
  obtain ⟨most, grown', fits, advances', given⟩ := rest more _ grown given _ fits
  exact ⟨most, grown.trans grown', fits, advances.trans advances', given⟩

/-- A new container takes the next tag. -/
theorem fresh {Q : List Value → Nat → Prop} (make : Nat → Value)
    (fits : ∀ more t, containers <+: more → more[t]? = some (make t) → Q more t) :
    Fitting size containers (modifyGet Heap.freshTag) Q := by
  intro h heap
  have later := List.prefix_append containers [make containers.length]
  refine ⟨containers ++ [make containers.length], later, ⟨heap.sized, ?_, ?_, ?_⟩,
    ⟨Nat.le_succ _, rfl⟩, ?_⟩
  · change (containers ++ _).length = h.nextTag + 1
    simp [heap.tags]
  · exact fun r v member => (heap.items r v member).later later (Nat.le_refl _)
  · exact fun r e member => (heap.fields r e member).later later (Nat.le_refl _)
  · refine fits _ _ later ?_
    change (containers ++ _)[h.nextTag]? = some (make h.nextTag)
    rw [← heap.tags, List.getElem?_append_right (Nat.le_refl _)]
    simp

end Heap.Fitting

namespace Term

mutual
/-- Without names a written value leads nowhere. -/
theorem places_nil : ∀ t : Term, t.places [] = []
  | .null | .bool _ | .number _ | .text _ | .copies .. => by rw [places]
  | .named _ => by simp [places, FieldMap.get?, Value.places]
  | .array items | .collection _ items => by rw [places, placesOfAll_nil items]
  | .object pairs | .record _ pairs => by rw [places, placesOfPairs_nil pairs]

theorem placesOfAll_nil : ∀ ts : List Term, placesOfAll [] ts = []
  | [] => by rw [placesOfAll]
  | t :: ts => by rw [placesOfAll, places_nil t, placesOfAll_nil ts, List.append_nil]

theorem placesOfPairs_nil : ∀ ts : List (String × Term), placesOfPairs [] ts = []
  | [] => by rw [placesOfPairs]
  | (_, t) :: ts => by rw [placesOfPairs, places_nil t, placesOfPairs_nil ts, List.append_nil]
end

variable {size : Nat} {names : FieldMap Value}

/-- A value that fits and leads only to places among those given. -/
def Leads (size : Nat) (places : List Nat) (containers : List Value) (v : Value) : Prop :=
  v.Fits containers size ∧ ∀ l ∈ v.places, l ∈ places

mutual
/-- What a plain term reads as fits, and leads only where its names lead. -/
theorem read_fits : ∀ (t : Term) {containers : List Value}, t.isPlain = true →
    (∀ e ∈ names, e.2.Fits containers size) →
    Heap.Fitting size containers (t.read names) (Leads size (t.places names))
  | .null, _, _, _ | .bool _, _, _, _ | .number _, _, _, _ | .text _, _, _, _
  | .copies .., _, _, _ => by
    rw [read]
    exact Heap.Fitting.ret ⟨trivial, by simp [Value.places]⟩
  | .named name, _, _, fits => by
    rw [read, places]
    exact Heap.Fitting.ret ⟨Value.fits_get? name fits, fun _ => id⟩
  | .array items, containers, plain, fits => by
    rw [isPlain] at plain
    rw [read, places]
    refine (readAll_fits items plain fits).bind fun more values grown leads => ?_
    refine Heap.Fitting.bind
      (Heap.Fitting.fresh (fun t => .array t values) fun most t grown' here =>
        (?_ : Leads size _ most (.array t values))) fun _ _ _ leads => Heap.Fitting.ret leads
    rw [Leads, Value.Fits, Value.fitsItems_iff, Value.places]
    refine ⟨⟨here, fun v member => Value.fits_later grown' v (leads v member).1⟩, fun l held => ?_⟩
    obtain ⟨v, member, held⟩ := Value.mem_placesOfItems.mp held
    exact (leads v member).2 l held
  | .object pairs, containers, plain, fits => by
    rw [isPlain] at plain
    rw [read, places]
    refine (readPairs_fits pairs plain fits).bind fun more values grown leads => ?_
    refine Heap.Fitting.bind (Heap.Fitting.fresh (fun t => .object t (FieldMap.ofPairs values))
      fun most t grown' here => (?_ : Leads size _ most (.object t (FieldMap.ofPairs values))))
      fun _ _ _ leads => Heap.Fitting.ret leads
    rw [Leads, Value.Fits, Value.fitsFields_iff, Value.places]
    refine ⟨⟨here, fun e member => ?_⟩, fun l held => ?_⟩
    · obtain ⟨e', member, same⟩ := FieldMap.mem_ofPairs member
      exact same ▸ Value.fits_later grown' _ (leads e' member).1
    · obtain ⟨e, member, held⟩ := Value.mem_placesOfFields.mp held
      obtain ⟨e', member, same⟩ := FieldMap.mem_ofPairs member
      exact (leads e' member).2 l (same ▸ held)
  | .record .., _, plain, _ | .collection .., _, plain, _ => by simp [isPlain] at plain

theorem readAll_fits : ∀ (ts : List Term) {containers : List Value}, allPlain ts = true →
    (∀ e ∈ names, e.2.Fits containers size) →
    Heap.Fitting size containers (readAll names ts) fun more vs =>
      ∀ v ∈ vs, Leads size (placesOfAll names ts) more v
  | [], _, _, _ => by
    rw [readAll]
    exact Heap.Fitting.ret (by simp)
  | t :: ts, containers, plain, fits => by
    rw [allPlain, Bool.and_eq_true] at plain
    rw [readAll, placesOfAll]
    refine (read_fits t plain.1 fits).bind fun more v grown first => ?_
    refine (readAll_fits ts plain.2 fun e member => Value.fits_later grown _ (fits e member)).bind
      fun most vs grown' rest => Heap.Fitting.ret fun w member => ?_
    rcases List.mem_cons.mp member with rfl | member
    · exact ⟨Value.fits_later grown' _ first.1, fun l held =>
        List.mem_append_left _ (first.2 l held)⟩
    · exact ⟨(rest w member).1, fun l held => List.mem_append_right _ ((rest w member).2 l held)⟩

theorem readPairs_fits : ∀ (ts : List (String × Term)) {containers : List Value},
    pairsPlain ts = true → (∀ e ∈ names, e.2.Fits containers size) →
    Heap.Fitting size containers (readPairs names ts) fun more es =>
      ∀ e ∈ es, Leads size (placesOfPairs names ts) more e.2
  | [], _, _, _ => by
    rw [readPairs]
    exact Heap.Fitting.ret (by simp)
  | (key, t) :: ts, containers, plain, fits => by
    rw [pairsPlain, Bool.and_eq_true] at plain
    rw [readPairs, placesOfPairs]
    refine (read_fits t plain.1 fits).bind fun more v grown first => ?_
    refine (readPairs_fits ts plain.2 fun e member => Value.fits_later grown _ (fits e member)).bind
      fun most es grown' rest => Heap.Fitting.ret fun e member => ?_
    rcases List.mem_cons.mp member with rfl | member
    · exact ⟨Value.fits_later grown' _ first.1, fun l held =>
        List.mem_append_left _ (first.2 l held)⟩
    · exact ⟨(rest e member).1, fun l held => List.mem_append_right _ ((rest e member).2 l held)⟩
end

end Term

end ReactiveQuery
