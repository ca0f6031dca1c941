import ReactiveQuery.Query.Draft

/-! Heaps that only grow.  Reading written values and queries adds cells that retain nothing, and
leaves the cells there are. -/

namespace ReactiveQuery

/-- The registrations that a cell retains. -/
def Cell.subscriptions : Cell → List Subscription
  | .record _ => []
  | .collection c => c.retained.subscriptions

namespace Heap

/-- The registrations that live as long as the cell at a place. -/
def subscriptions (h : Heap) (loc : Nat) : List Subscription :=
  ((h.cell? loc).map Cell.subscriptions).getD []

theorem subscriptions_of_cell? {h : Heap} {loc : Nat} {cell : Cell}
    (here : h.cell? loc = some cell) : h.subscriptions loc = cell.subscriptions := by
  simp [subscriptions, here]

theorem subscriptions_of_dead {h : Heap} {loc : Nat} (dead : h.cell? loc = none) :
    h.subscriptions loc = [] := by
  simp [subscriptions, dead]

/-- Who retains a registration lives. -/
theorem exists_of_mem_subscriptions {h : Heap} {loc : Nat} {s : Subscription}
    (member : s ∈ h.subscriptions loc) :
    ∃ c, h.cell? loc = some (.collection c) ∧ s ∈ c.retained.subscriptions := by
  unfold subscriptions at member
  rcases here : h.cell? loc with _ | (_ | c)
  · simp [here] at member
  · simp [here, Cell.subscriptions] at member
  · exact ⟨c, rfl, by simpa [here, Cell.subscriptions] using member⟩

theorem cell?_of_size_le {h : Heap} {loc : Nat} (outside : h.cells.size ≤ loc) :
    h.cell? loc = none := by
  simp [cell?, Array.getElem?_eq_none outside]

/-- A heap that has gained cells that retain nothing. -/
structure Extends (h k : Heap) : Prop where
  size : h.cells.size ≤ k.cells.size
  old : ∀ l, l < h.cells.size → k.cell? l = h.cell? l
  new : ∀ l, h.cells.size ≤ l → k.subscriptions l = []

namespace Extends

variable {h k m : Heap}

@[refl]
theorem refl (h : Heap) : h.Extends h :=
  ⟨Nat.le_refl _, fun _ _ => rfl, fun _ outside => subscriptions_of_dead (cell?_of_size_le outside)⟩

theorem trans (first : h.Extends k) (second : k.Extends m) : h.Extends m where
  size := Nat.le_trans first.size second.size
  old l inside :=
    (second.old l (Nat.lt_of_lt_of_le inside first.size)).trans (first.old l inside)
  new l outside := by
    rcases Nat.lt_or_ge l k.cells.size with inside | beyond
    · unfold subscriptions
      rw [second.old l inside]
      exact first.new l outside
    · exact second.new l beyond

theorem freshTag (h : Heap) : h.Extends h.freshTag.2 :=
  have same := refl h
  ⟨same.size, same.old, same.new⟩

theorem allocate (h : Heap) (id : Nat) {cell : Cell} (bare : cell.subscriptions = []) :
    h.Extends (h.allocate id cell).2 where
  size := by simp [Heap.allocate]
  old l inside := by rw [cell?_allocate, if_neg (Nat.ne_of_lt inside)]
  new l outside := by
    unfold subscriptions
    rw [cell?_allocate]
    split
    · exact bare
    · rw [cell?_of_size_le outside]
      rfl

end Extends

end Heap

namespace Term

variable (names : FieldMap Value)

mutual
theorem extends_read : ∀ (t : Term) (h : Heap), h.Extends ((t.read names).run h).2
  | .null, h | .bool _, h | .number _, h | .text _, h | .copies .., h | .named _, h => by
    rw [read]
    exact .refl h
  | .array items, h => by
    rw [read]
    exact (extends_readAll items h).trans (.freshTag _)
  | .object pairs, h => by
    rw [read]
    exact (extends_readPairs pairs h).trans (.freshTag _)
  | .record id fields, h => by
    rw [read]
    exact (extends_readPairs fields h).trans (.allocate _ id rfl)
  | .collection id items, h => by
    rw [read]
    exact (extends_readAll items h).trans (.allocate _ id rfl)

theorem extends_readAll : ∀ (ts : List Term) (h : Heap), h.Extends ((readAll names ts).run h).2
  | [], h => by
    rw [readAll]
    exact .refl h
  | t :: ts, h => by
    rw [readAll]
    exact (extends_read t h).trans (extends_readAll ts _)

theorem extends_readPairs :
    ∀ (ts : List (String × Term)) (h : Heap), h.Extends ((readPairs names ts).run h).2
  | [], h => by
    rw [readPairs]
    exact .refl h
  | (k, t) :: ts, h => by
    rw [readPairs]
    exact (extends_read t h).trans (extends_readPairs ts _)
end

end Term

/-- Building that only adds to the heap. -/
def Build.Extending {α : Type} (x : Build α) : Prop :=
  ∀ b : Building, b.heap.Extends (x.run.run b).2.heap

namespace Build.Extending

variable {α β : Type}

theorem ret (a : α) : Extending (pure a) := fun b => .refl b.heap

theorem bind {x : Build α} {f : α → Build β} (first : Extending x)
    (rest : ∀ a, Extending (f a)) : Extending (x >>= f) := by
  intro b
  have before := first b
  change b.heap.Extends ((ExceptT.bindCont f (x.run.run b).1).run (x.run.run b).2).2.heap
  generalize x.run.run b = outcome at before ⊢
  obtain ⟨_ | a, b'⟩ := outcome
  · exact before
  · exact before.trans (rest a b')

theorem read (names : FieldMap Value) (t : Term) : Extending (Build.read names t) :=
  fun b => t.extends_read names b.heap

theorem record (p : Path) : Extending (Build.record p) := fun b => .refl b.heap

theorem lift (r : Except Error Node) : Extending (Draft.build.liftExcept r) :=
  fun b => .refl b.heap

theorem mapM {f : α → Build β} (each : ∀ a, Extending (f a)) (as : List α) :
    Extending (as.mapM f) := by
  induction as with
  | nil => exact ret []
  | cons a as ih =>
    rw [List.mapM_cons]
    exact bind (each a) fun _ => bind ih fun _ => ret _

end Build.Extending

namespace Draft

variable (names : FieldMap Value)

mutual
theorem extending_build : ∀ d : Draft, Build.Extending (d.build names)
  | .literal t => by
    rw [build]
    exact .bind (.read names t) fun _ => .ret _
  | .path root components => by
    rw [build]
    exact .bind (extending_buildComponents components) fun _ => .bind (.record _) fun _ => .ret _
  | .object members => by
    rw [build]
    exact .bind (extending_buildMembers members) fun _ => .ret _
  | .call _ args => by
    rw [build]
    exact .bind (extending_buildAll args) fun _ => .ret _
  | .chain _ _ inner => by
    rw [build]
    exact .bind (extending_build inner) fun _ => .lift _
  | .tagged _ operands => by
    rw [build]
    exact .bind (extending_buildAll operands) fun _ => .lift _

theorem extending_buildAll : ∀ ds : List Draft, Build.Extending (buildAll names ds)
  | [] => by
    rw [buildAll]
    exact .ret []
  | d :: ds => by
    rw [buildAll]
    exact .bind (extending_build d) fun _ => .bind (extending_buildAll ds) fun _ => .ret _

theorem extending_buildMembers :
    ∀ ds : List (String × Draft), Build.Extending (buildMembers names ds)
  | [] => by
    rw [buildMembers]
    exact .ret []
  | (_, d) :: ds => by
    rw [buildMembers]
    exact .bind (extending_build d) fun _ => .bind (extending_buildMembers ds) fun _ => .ret _

theorem extending_buildComponents :
    ∀ cs : List DraftComponent, Build.Extending (buildComponents names cs)
  | [] => by
    rw [buildComponents]
    exact .ret []
  | .key t :: cs => by
    rw [buildComponents]
    exact .bind (.read names t) fun _ => .bind (extending_buildComponents cs) fun _ => .ret _
  | .computed d :: cs => by
    rw [buildComponents]
    exact .bind (extending_build d) fun _ => .bind (extending_buildComponents cs) fun _ => .ret _
end

end Draft

theorem QueryDraft.extending_build (names : FieldMap Value) (q : QueryDraft) :
    Build.Extending (q.build names) := by
  have orders : ∀ o : OrderDraft, Build.Extending (buildOrder names o) := fun o =>
    .bind (Draft.extending_buildComponents names o.components) fun _ =>
      .bind (.record _) fun _ => .ret _
  have rest : ∀ filter : Node, Build.Extending (do
      let select ← q.select.mapM (Draft.build names)
      let order ← q.order.mapM (buildOrder names)
      return ({ filter, select, order, sortFirst := q.sortFirst } : Query)) := fun _ => by
    refine .bind ?_ fun _ => .bind (.mapM orders _) fun _ => .ret _
    cases q.select with
    | none => exact .ret none
    | some d => exact .bind (d.extending_build names) fun _ => .ret _
  unfold build
  cases q.failure with
  | some error => exact fun b => .refl b.heap
  | none =>
    cases q.filter with
    | none => exact rest _
    | some d => exact .bind (d.extending_build names) rest

end ReactiveQuery
