import ReactiveQuery.Proofs.Live.Refresh
import ReactiveQuery.Session.Perform

/-! Reading the written values of a command.  It takes tags and changes nothing else. -/

namespace ReactiveQuery

namespace Term

variable {names : FieldMap Value}

mutual
/-- The names in a written value lead where the names lead. -/
theorem named_of_mem_places {l : Nat} :
    ∀ t : Term, l ∈ t.places names → l ∈ Value.placesOfItems names.values
  | .null, held | .bool _, held | .number _, held | .text _, held | .copies .., held => by
    simp [places] at held
  | .named name, held => by
    rw [places] at held
    cases found : FieldMap.get? name names with
    | none => simp [found, Value.places] at held
    | some v =>
      rw [found] at held
      exact Value.mem_placesOfItems.mpr
        ⟨v, List.mem_map.mpr ⟨_, FieldMap.mem_of_get? found, rfl⟩, held⟩
  | .array items, held | .collection _ items, held => by
    rw [places] at held
    exact named_of_mem_placesOfAll items held
  | .object pairs, held | .record _ pairs, held => by
    rw [places] at held
    exact named_of_mem_placesOfPairs pairs held

theorem named_of_mem_placesOfAll {l : Nat} :
    ∀ ts : List Term, l ∈ placesOfAll names ts → l ∈ Value.placesOfItems names.values
  | [], held => by simp [placesOfAll] at held
  | t :: ts, held => by
    rw [placesOfAll, List.mem_append] at held
    exact held.elim (named_of_mem_places t) (named_of_mem_placesOfAll ts)

theorem named_of_mem_placesOfPairs {l : Nat} :
    ∀ ts : List (String × Term), l ∈ placesOfPairs names ts → l ∈ Value.placesOfItems names.values
  | [], held => by simp [placesOfPairs] at held
  | (_, t) :: ts, held => by
    rw [placesOfPairs, List.mem_append] at held
    exact held.elim (named_of_mem_places t) (named_of_mem_placesOfPairs ts)
end

/-- Does a written value read as negative zero? -/
def isNegativeZero (names : FieldMap Value) : Term → Bool
  | .number x => (Value.number x).isNegativeZero
  | .named name => ((FieldMap.get? name names).getD .null).isNegativeZero
  | _ => false

/-- What a plain term reads as: a value that fits and leads where the term does.  A name reads as
what it is bound to. -/
structure Reads (names : FieldMap Value) (size : Nat) (t : Term) (containers : List Value)
    (v : Value) : Prop where
  fits : v.Fits containers size
  leads : ∀ l ∈ v.places, l ∈ t.places names
  bound : ∀ name, t = .named name → v = (FieldMap.get? name names).getD .null
  sign : v.isNegativeZero = t.isNegativeZero names

theorem Reads.later {size : Nat} {t : Term} {containers more : List Value} {v : Value}
    (reads : t.Reads names size containers v) (grown : containers <+: more) :
    t.Reads names size more v :=
  ⟨reads.fits.later grown (Nat.le_refl _), reads.leads, reads.bound, reads.sign⟩

end Term

namespace World

variable {M : Nat → Prop} {qs : List LiveQuery} {containers more : List Value} {u v w : World}

/-- A world that has gone on to read values, and still fits. -/
structure Reading (w : World) (qs : List LiveQuery) (containers more : List Value) (v : World) :
    Prop where
  grown : containers <+: more
  fits : v.Fits more qs
  heap : w.heap.Advances v.heap
  same : v = { w with heap := v.heap }

namespace Reading

theorem refl (fits : w.Fits containers qs) : w.Reading qs containers containers w :=
  ⟨List.prefix_refl _, fits, .refl _, rfl⟩

theorem trans {most : List Value} (first : u.Reading qs containers more v)
    (second : v.Reading qs more most w) : u.Reading qs containers most w where
  grown := first.grown.trans second.grown
  fits := second.fits
  heap := first.heap.trans second.heap
  same := by rw [second.same, first.same]

theorem advances (reading : w.Reading qs containers more v) : w.Advances v where
  heap := reading.heap
  read := by
    rw [reading.same]
    exact id
  same := by rw [reading.same]

theorem names (reading : w.Reading qs containers more v) : v.desk.names = w.desk.names := by
  rw [reading.same]

theorem size (reading : w.Reading qs containers more v) :
    v.heap.cells.size = w.heap.cells.size := by
  rw [reading.heap.same]

theorem cell? (reading : w.Reading qs containers more v) : v.heap.cell? = w.heap.cell? := by
  rw [reading.heap.same]
  rfl

theorem sound (reading : w.Reading qs containers more v) (sound : w.Sound M qs) : v.Sound M qs :=
  sound.advances reading.advances ⟨more, reading.fits⟩

theorem queued (reading : w.Reading qs containers more v) (queued : w.Queued qs) : v.Queued qs :=
  queued.of_bus (by rw [reading.same]) (by rw [reading.same])

end Reading

end World

namespace Act

variable {qs : List LiveQuery} {containers : List Value} {u w : World}

theorem gives_read {t : Term} {x : Value} (plain : t.isPlain = true) (fits : w.Fits containers qs)
    (gives : (read t).Gives w x u) : ∃ more, w.Reading qs containers more u ∧
      t.Reads w.desk.names w.heap.cells.size more x := by
  simp only [read, gives_bind, gives_get, gives_onHeap] at gives
  obtain ⟨_, _, ⟨rfl, rfl⟩, rfl, rfl⟩ := gives
  obtain ⟨more, grown, heap, advances, fit, leads⟩ := t.read_fits plain fits.names w.heap fits.heap
  have size : (t.read w.desk.names w.heap).2.cells.size = w.heap.cells.size := heap.sized
  refine ⟨more, ⟨grown, ?_, advances, rfl⟩, fit, leads, fun name same => ?_, ?_⟩
  · refine fits.later grown (by rwa [size]) (Nat.le_of_eq size.symm) ?_ rfl
    exact fits.knows.advances grown ⟨advances, id, rfl⟩
  · subst same
    rfl
  · cases t with
    | record | collection => simp [Term.isPlain] at plain
    | _ => rfl

theorem gives_readAll {ts : List Term} {xs : List Value} (plain : ∀ t ∈ ts, t.isPlain = true)
    (fits : w.Fits containers qs) (gives : (readAll ts).Gives w xs u) :
    ∃ more, w.Reading qs containers more u ∧
      ∀ x ∈ xs, ∃ t ∈ ts, t.Reads w.desk.names w.heap.cells.size more x := by
  unfold readAll at gives
  induction ts generalizing containers w xs with
  | nil =>
    obtain ⟨rfl, rfl⟩ := gives_pure.mp gives
    exact ⟨containers, .refl fits, by simp⟩
  | cons t ts ih =>
    simp only [List.mapM_cons, gives_bind, gives_pure] at gives
    obtain ⟨y, v, first, ys, _, rest, rfl, rfl⟩ := gives
    obtain ⟨more, reading, here⟩ := gives_read (plain t List.mem_cons_self) fits first
    obtain ⟨most, reading', others⟩ :=
      ih (fun t member => plain t (List.mem_cons_of_mem _ member)) reading.fits rest
    rw [reading.names, reading.size] at others
    refine ⟨most, reading.trans reading', List.forall_mem_cons.mpr ⟨?_, fun x member => ?_⟩⟩
    · exact ⟨t, List.mem_cons_self, here.later reading'.grown⟩
    · obtain ⟨t', member', reads⟩ := others x member
      exact ⟨t', List.mem_cons_of_mem _ member', reads⟩

theorem gives_readFields {pairs : List (String × Term)} {fields : FieldMap Value}
    (plain : ∀ p ∈ pairs, p.2.isPlain = true) (fits : w.Fits containers qs)
    (gives : (readFields pairs).Gives w fields u) :
    ∃ more, w.Reading qs containers more u ∧
      ∀ e ∈ fields, ∃ p ∈ pairs, p.2.Reads w.desk.names w.heap.cells.size more e.2 := by
  simp only [readFields, gives_bind, gives_pure] at gives
  obtain ⟨es, v, gives, rfl, rfl⟩ := gives
  suffices all : ∃ more, w.Reading qs containers more v ∧
      ∀ e ∈ es, ∃ p ∈ pairs, p.2.Reads w.desk.names w.heap.cells.size more e.2 by
    obtain ⟨more, reading, reads⟩ := all
    refine ⟨more, reading, fun e member => ?_⟩
    obtain ⟨e', member', same⟩ := FieldMap.mem_ofPairs member
    exact same ▸ reads e' member'
  induction pairs generalizing containers w es with
  | nil =>
    obtain ⟨rfl, rfl⟩ := gives_pure.mp gives
    exact ⟨containers, .refl fits, by simp⟩
  | cons p pairs ih =>
    simp only [List.mapM_cons, gives_bind, gives_pure] at gives
    obtain ⟨_, v, ⟨y, _, first, rfl, rfl⟩, ys, _, rest, rfl, rfl⟩ := gives
    obtain ⟨more, reading, here⟩ := gives_read (plain p List.mem_cons_self) fits first
    obtain ⟨most, reading', others⟩ :=
      ih (fun p member => plain p (List.mem_cons_of_mem _ member)) reading.fits _ rest
    rw [reading.names, reading.size] at others
    refine ⟨most, reading.trans reading', List.forall_mem_cons.mpr ⟨?_, fun x member => ?_⟩⟩
    · exact ⟨p, List.mem_cons_self, here.later reading'.grown⟩
    · obtain ⟨p', member', reads⟩ := others x member
      exact ⟨p', List.mem_cons_of_mem _ member', reads⟩

end Act

end ReactiveQuery
