import ReactiveQuery.Proofs.Bus.Commands
import ReactiveQuery.Proofs.Cell
import ReactiveQuery.Proofs.FieldMap.Finite
import ReactiveQuery.Proofs.Lifetime

/-! The fields that a record declares.  Nothing that an engine does gives a record another field or
takes one from it as long as it lives; and a write fails by itself exactly on a field that is not
declared, before anything has changed. -/

namespace ReactiveQuery

namespace Heap

variable {h k m : Heap}

/-- What never changes of a cell: whether it is a record, and of which fields. -/
def shape? (h : Heap) (l : Nat) : Option (Option (List String)) :=
  (h.cell? l).map fun
    | .record c => some c.fields.keys
    | .collection _ => none

/-- A later heap: a cell that was there has its shape, or is gone. -/
structure Later (h k : Heap) : Prop where
  size : h.cells.size ≤ k.cells.size
  shape : ∀ l < h.cells.size, k.shape? l = none ∨ k.shape? l = h.shape? l

namespace Later

theorem of_cells (size : h.cells.size ≤ k.cells.size)
    (cells : ∀ l < h.cells.size, k.cell? l = none ∨ k.cell? l = h.cell? l) : h.Later k where
  size := size
  shape l inside := (cells l inside).imp (by simp [shape?, ·]) (by simp [shape?, ·])

theorem of_extends (extending : h.Extends k) : h.Later k :=
  of_cells extending.size fun l inside => .inr (extending.old l inside)

theorem refl (h : Heap) : h.Later h := of_extends (.refl h)

theorem trans (first : h.Later k) (second : k.Later m) : h.Later m where
  size := Nat.le_trans first.size second.size
  shape l inside := by
    have rest := second.shape l (Nat.lt_of_lt_of_le inside first.size)
    rcases first.shape l inside with gone | same
    · exact .inl (rest.elim id fun same => by rw [same, gone])
    · exact rest.imp_right fun rest => by rw [rest, same]

/-- A cell of the same shape is put in the place of another. -/
theorem put {loc : Nat} {cell' : Cell}
    (same : (h.put loc (some cell')).shape? loc = h.shape? loc) :
    h.Later (h.put loc (some cell')) where
  size := Nat.le_of_eq (size_put loc _).symm
  shape l _ := by
    by_cases at_ : loc = l
    · exact .inr (at_ ▸ same)
    · exact .inr (by rw [shape?, cell?_put_of_ne at_, shape?])

theorem setField (h : Heap) (r : Ref) (key : String) (v : Value) :
    h.Later (h.setField r key v) := by
  cases found : h.record? r with
  | none =>
    rw [Heap.setField, found]
    exact .refl h
  | some c =>
    have here := record?_eq_some.mp found
    rw [setField_eq_put here]
    exact put (by simp [shape?, cell?_put_self here, here, FieldMap.keys_update])

theorem setItems (h : Heap) (r : Ref) (items : List Value) : h.Later (h.setItems r items) := by
  cases found : h.collection? r with
  | none =>
    rw [Heap.setItems, found]
    exact .refl h
  | some c =>
    have here := collection?_eq_some.mp found
    rw [setItems_eq_put here]
    exact put (by simp [shape?, cell?_put_self here, here])

theorem setRetained (h : Heap) (r : Ref) (retained : Retained) :
    h.Later (h.setRetained r retained) := by
  cases found : h.collection? r with
  | none =>
    rw [Heap.setRetained, found]
    exact .refl h
  | some c =>
    have here := collection?_eq_some.mp found
    rw [Heap.setRetained, found]
    exact put (by simp [shape?, cell?_put_self here, here])

theorem sweep (w : World) : w.heap.Later w.sweep.heap :=
  of_cells (Nat.le_of_eq (World.size_sweep w).symm) fun l _ => by
    cases after : w.sweep.heap.cell? l with
    | none => exact .inl rfl
    | some cell => exact .inr (World.cell?_of_sweep after).symm

end Later

end Heap

/-- Shapes of cells stay. -/
def Act.Shaping {α : Type} (act : Act α) : Prop :=
  ∀ w : World, w.heap.Later (act.on w).2.heap

def Trait.shaping : Trait where
  Has := Act.Shaping
  still still w := .of_extends (still w).heap
  bind {_ _ x _} first rest w := by
    have later := first w
    rw [Act.on_bind]
    rcases outcome : x.on w with ⟨_ | a, u⟩ <;> rw [outcome] at later
    · exact later
    · exact later.trans (rest a u)
  holding values shaping w := shaping { w with held := values ++ w.held }
  attempt {_ x} shaping w := by
    have inner := shaping w
    rw [Act.on_attempt]
    rcases outcome : x.on w with ⟨(_ | _) | _, _⟩ <;> rw [outcome] at inner <;> exact inner
  settle w := .sweep w

namespace Act.Shaping

variable {α : Type}

theorem of_heap {act : Act α} (same : ∀ w, (act.on w).2.heap = w.heap) : act.Shaping :=
  fun w => by rw [same]; exact .refl _

theorem onBus (change : Bus → α × Bus) : (Act.onBus change).Shaping := .of_heap fun _ => rfl

theorem changeBus (change : Bus → Bus) : (Act.changeBus change).Shaping := .of_heap fun _ => rfl

theorem newCollection (items : List Value) : (Act.newCollection items).Shaping :=
  Trait.shaping.bind (onBus _) fun id => Trait.Has.onHeap (T := .shaping) fun h =>
    .allocate h id rfl

theorem enqueueAll (es : List Event) : (Act.enqueueAll es).Shaping := by
  induction es with
  | nil => exact Trait.Has.ret (T := .shaping) ()
  | cons e es ih =>
    have queued : (Act.enqueue e).Shaping := Trait.shaping.bind Trait.shaping.settle fun _ =>
      changeBus _
    exact Trait.shaping.bind (Trait.shaping.holding _ queued) fun _ => ih

theorem registers : Trait.shaping.Registers where
  addListener _ := onBus _
  subscribe _ := onBus _
  unsubscribe _ := onBus _
  changeDesk _ := .of_heap fun _ => rfl
  retain r retained w := .setRetained w.heap r retained

theorem batch {dispatch : Act Unit} {body : Act α} (shaping : dispatch.Shaping)
    (inner : body.Shaping) : (Act.batch dispatch body).Shaping := by
  refine Trait.shaping.bind (Trait.Has.world (T := .shaping)) fun w => ?_
  split
  · exact inner
  · exact Trait.shaping.bind (changeBus _) fun _ => Trait.shaping.bind (Trait.shaping.attempt inner)
      fun result => Trait.shaping.bind (changeBus _) fun _ => Trait.shaping.bind shaping fun _ =>
        Trait.Has.ofExcept (T := .shaping) result

end Act.Shaping

/-- Nothing that an engine does changes the shape of a cell. -/
def Conduct.shaping : Conduct where
  toTrait := .shaping
  inert inert w := .of_extends (inert w).heap
  scope := .any
  dispatches := Act.Shaping
  nextId := .onBus _
  setField r key v w := .setField w.heap r key v
  setItems r items w := .setItems w.heap r items
  keep r values w := .setRetained w.heap r { values }
  attach source d params _ first :=
    Trait.shaping.bind (.newCollection []) fun r => Trait.shaping.bind (Trait.shaping.holding _
      (Trait.shaping.bind (Act.has_attach Act.Shaping.registers r source d params) fun _ =>
        first r)) fun _ => Trait.Has.ret (T := .shaping) _
  tells _ := True
  tells_field _ _ _ _ := trivial
  tells_change _ _ _ _ _ := trivial
  tells_publish _ _ := trivial
  tells_publishAll _ _ := trivial
  publishAll shaping events _ := Trait.shaping.bind (.enqueueAll events) fun _ => shaping
  batch := .batch
  reschedule _ _ := .onBus _
  listen _ handle collection key := Act.has_listen Act.Shaping.registers handle collection key _
  unlisten := Act.has_unlisten Act.Shaping.registers
  subscribe _ again listener target key :=
    Act.has_subscribe Act.Shaping.registers again listener target key _
  unsubscribe := Act.has_unsubscribe Act.Shaping.registers

theorem Act.Shaping.delivers : Conduct.shaping.Delivers where
  scheduler := trivial
  all _ := trivial
  heard _ _ := Act.Shaping.of_heap fun _ => rfl
  flag _ := Act.Shaping.changeBus _
  taken := Act.Shaping.changeBus _
  emptied := Act.Shaping.changeBus _

namespace Ref

variable {dispatch : Act Unit} {r : Ref} {w : World} {c : RecordCell} {key : String} {value : Value}

theorem setField_of_undeclared (here : w.heap.record? r = some c)
    (undeclared : key ∉ c.fields.keys) :
    (r.setField dispatch key value).on w = (.error (.raised (.unknownField key)), w) := by
  have absent : FieldMap.get? key c.fields = none :=
    Option.not_isSome_iff_eq_none.mp (mt (FieldMap.isSome_get? key c.fields).mp undeclared)
  rw [setField, Act.on_bind_ok (Act.on_get w), here]
  simp only [absent, Act.on_raise]

theorem setField_of_level {old : Value} (here : w.heap.record? r = some c)
    (found : FieldMap.get? key c.fields = some old) (level : old.strictEq value = true) :
    (r.setField dispatch key value).on w = (.ok (), w) := by
  rw [setField, Act.on_bind_ok (Act.on_get w), here]
  simp only [found, level, if_true, Act.on_pure]

theorem setField_of_declared {old : Value} (here : w.heap.record? r = some c)
    (found : FieldMap.get? key c.fields = some old) (differs : old.strictEq value = false) :
    (r.setField dispatch key value).on w =
      (Act.report dispatch c.sink [⟨r.id, .field key, value, old⟩]).on
        { w with heap := w.heap.setField r key value } := by
  rw [setField, Act.on_bind_ok (Act.on_get w), here]
  simp only [found, differs, Bool.false_eq_true, if_false]
  rw [Act.on_bind_ok (Act.on_changeHeap ..)]

/-- What writing a field of a record does, whoever receives the change. -/
structure Writes (dispatch : Act Unit) (r : Ref) (w : World) (c : RecordCell) : Prop where
  /-- A field that is not declared is refused, and nothing has changed. -/
  undeclared : ∀ key value, key ∉ c.fields.keys →
    (r.setField dispatch key value).on w = (.error (.raised (.unknownField key)), w)
  /-- A value strictly equal to the one that is there is not written. -/
  level : ∀ key value old, FieldMap.get? key c.fields = some old → old.strictEq value = true →
    (r.setField dispatch key value).on w = (.ok (), w)
  /-- Any other value is written, and then the change is reported. -/
  declared : ∀ key value old, FieldMap.get? key c.fields = some old →
    old.strictEq value = false → (r.setField dispatch key value).on w =
      (Act.report dispatch c.sink [⟨r.id, .field key, value, old⟩]).on
        { w with heap := w.heap.setField r key value }
  /-- Where changes are received, nothing fails but a write to a field that is not declared. -/
  fails : (∀ e v, ∃ u, (Act.report dispatch c.sink [e]).Gives v () u) → ∀ key value,
    (∃ fault v, (r.setField dispatch key value).on w = (.error fault, v)) ↔ key ∉ c.fields.keys

theorem writes (here : w.heap.record? r = some c) : r.Writes dispatch w c where
  undeclared _ _ := setField_of_undeclared here
  level _ _ _ := setField_of_level here
  declared _ _ _ := setField_of_declared here
  fails receives key value := by
    constructor
    · rintro ⟨fault, v, fails⟩ declared
      obtain ⟨old, found⟩ :=
        Option.isSome_iff_exists.mp ((FieldMap.isSome_get? key c.fields).mpr declared)
      cases same : old.strictEq value with
      | true =>
        rw [setField_of_level here found same] at fails
        cases fails
      | false =>
        obtain ⟨u, received⟩ := receives ⟨r.id, .field key, value, old⟩
          { w with heap := w.heap.setField r key value }
        rw [setField_of_declared here found same, received.on] at fails
        cases fails
    · exact fun undeclared => ⟨_, _, setField_of_undeclared here undeclared⟩

end Ref

namespace Declared

/-- Two ways to one map, by other values and in another order. -/
def edits : List (FieldMap.Edit Value) :=
  [.build [("b", .null), ("é", .null), ("b", .number .nan)], .remove "é", .insert "a" (.bool true),
    .update "z" .null]

def others : List (FieldMap.Edit Value) :=
  [.insert "b" (.number .nan), .insert "a" .null, .update "a" (.bool true)]

def record : RecordCell := ⟨1, FieldMap.edited edits, .silent⟩

def world : World := { heap := { cells := #[some (.record record)] } }

end Declared

end ReactiveQuery
