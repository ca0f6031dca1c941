import ReactiveQuery.Proofs.Cell
import ReactiveQuery.Proofs.Engine.Mutation

/-! Runs of changes on a collection whose sink takes all that is reported.  The items go the way of
the operations on lists; each change that is not refused is published once, when its items are to
be seen; so the lengths that are told lead from the first one to the present one. -/

namespace ReactiveQuery

/-- Events reported together, and the items that are seen while they are. -/
structure Publication where
  events : List Event
  items : List Value

/-- What a change of items publishes: the content, and then the length if that is another one. -/
inductive Publication.Reports (id : Nat) (items next : List Value) : Publication → Prop where
  | content (same : next.length = items.length) :
    Reports id items next ⟨[⟨id, .content, .ofNat next.length, .null⟩], next⟩
  | length (other : next.length ≠ items.length) :
    Reports id items next ⟨[⟨id, .content, .ofNat next.length, .null⟩,
      ⟨id, .length, .ofNat next.length, .ofNat items.length⟩], next⟩

theorem Publication.reports_changeEvents (id : Nat) (items next : List Value) :
    Reports id items next ⟨changeEvents id items.length next.length, next⟩ := by
  unfold changeEvents
  split
  · next same => exact .content same
  · next other => exact .length other

/-- How items evolve under changes, one after the other: what each one comes to, what is published
of it, and the items in the end. -/
inductive Evolves (id : Nat) : List Value → List Mutation → List (Except Error (List Value)) →
    List Publication → List Value → Prop where
  | done (items : List Value) : Evolves id items [] [] [] items
  | refused {m : Mutation} {e : Error} {items last : List Value} {ms : List Mutation}
    {outcomes : List (Except Error (List Value))} {ps : List Publication}
    (refuses : m.Refuses items e) (rest : Evolves id items ms outcomes ps last) :
    Evolves id items (m :: ms) (.error e :: outcomes) ps last
  | changed {m : Mutation} {items next out last : List Value} {ms : List Mutation}
    {outcomes : List (Except Error (List Value))} {p : Publication} {ps : List Publication}
    (turns : m.Turns items next out) (reports : p.Reports id items next)
    (rest : Evolves id next ms outcomes ps last) :
    Evolves id items (m :: ms) (.ok out :: outcomes) (p :: ps) last

/-- Changes of length, each from where the one before has led. -/
inductive Steps (id : Nat) : Nat → List Event → Nat → Prop where
  | done (n : Nat) : Steps id n [] n
  | step {n m k : Nat} {es : List Event} (other : m ≠ n) (rest : Steps id m es k) :
    Steps id n (⟨id, .length, .ofNat m, .ofNat n⟩ :: es) k

/-- All events of publications, in their order. -/
def Publication.all (ps : List Publication) : List Event := ps.flatMap (·.events)

namespace Evolves

variable {id : Nat} {items last : List Value} {ms : List Mutation}
  {outcomes : List (Except Error (List Value))} {ps : List Publication}

/-- The lengths that are told lead from the first one to the last one. -/
theorem steps (evolves : Evolves id items ms outcomes ps last) :
    Steps id items.length ((Publication.all ps).filter (·.key = .length)) last.length := by
  induction evolves with
  | done items => exact .done _
  | refused _ _ ih => exact ih
  | changed _ reports _ ih =>
    rw [Publication.all, List.flatMap_cons, List.filter_append, ← Publication.all]
    cases reports with
    | content same => simpa [← same] using ih
    | length other => simpa using Steps.step other ih

/-- The last event tells the length in the end; without one the items are as they were. -/
theorem told (evolves : Evolves id items ms outcomes ps last) :
    match (Publication.all ps).getLast? with
    | none => last = items
    | some e => e.new = .ofNat last.length := by
  induction evolves with
  | done items => rfl
  | refused _ _ ih => exact ih
  | @changed _ _ _ _ _ _ _ p ps _ reports _ ih =>
    rw [Publication.all, List.flatMap_cons, List.getLast?_append, ← Publication.all]
    cases later : (Publication.all ps).getLast? with
    | some e =>
      rw [later] at ih
      exact ih
    | none =>
      rw [later] at ih
      dsimp only at ih
      subst ih
      cases reports <;> rfl

end Evolves

namespace Ref

/-- A sink that takes all that a collection reports, leaves the collection alone and keeps account
of what it is told, each time with the items that are seen by then. -/
structure Accepts (dispatch : Act Unit) (r : Ref) (sink : Sink)
    (account : List Publication → World → Prop) : Prop where
  write {ps : List Publication} {u : World} (items : List Value) : account ps u →
    account ps { u with heap := u.heap.setItems r items }
  take {ps : List Publication} {u : World} {c : CollectionCell} (values : List Value)
    (events : List Event) : account ps u → u.heap.collection? r = some c →
      ∃ v, (Act.holding values (Act.report dispatch sink events)).Gives u () v ∧
        v.heap.collection? r = some c ∧ account (ps ++ [⟨events, c.items⟩]) v

/-- Changes one after the other, each with what it comes to. -/
def mutateAll (dispatch : Act Unit) (r : Ref) :
    List Mutation → Act (List (Except Error (List Value)))
  | [] => pure []
  | m :: ms => do
    let outcome ← Act.attempt (r.mutate dispatch m)
    return outcome :: (← mutateAll dispatch r ms)

variable {dispatch : Act Unit} {r : Ref} {w : World} {c : CollectionCell}
  {account : List Publication → World → Prop} {ps : List Publication}

/-- A change that is refused leaves everything as it was. -/
theorem mutate_of_refuses {m : Mutation} {e : Error} (here : w.heap.collection? r = some c)
    (refuses : m.Refuses c.items e) : (r.mutate dispatch m).on w = (.error (.raised e), w) := by
  rw [on_mutate, change_of_error here (Mutation.refuses_iff.mp refuses)]

theorem collection?_setItems (here : w.heap.collection? r = some c) (items : List Value) :
    (w.heap.setItems r items).collection? r = some { c with items } := by
  have at_ := Heap.collection?_eq_some.mp here
  rw [Heap.setItems_eq_put at_, Heap.collection?_eq_some, Heap.cell?_put_self at_]

/-- A change that is not refused is written, and then published once. -/
theorem mutate_of_turns {m : Mutation} {next out : List Value}
    (here : w.heap.collection? r = some c) (accepts : r.Accepts dispatch c.sink account)
    (accounts : account ps w) (changed : m.itemChange c.items = .ok (next, out)) :
    ∃ v, (r.mutate dispatch m).Gives w out v ∧
      v.heap.collection? r = some { c with items := next } ∧
      account (ps ++ [⟨changeEvents r.id c.items.length next.length, next⟩]) v := by
  obtain ⟨v, reported, same, told⟩ := accepts.take out
    (changeEvents r.id c.items.length next.length) (accepts.write next accounts)
    (collection?_setItems here next)
  refine ⟨v, ?_, same, told⟩
  rw [Act.Gives, on_mutate, change_of_ok here changed, Act.on_bind_ok reported.on]
  rfl

/-- What one change after another comes to. -/
theorem evolves_mutateAll (here : w.heap.collection? r = some c)
    (accepts : r.Accepts dispatch c.sink account) (accounts : account ps w) (ms : List Mutation) :
    ∃ outcomes qs items v, (r.mutateAll dispatch ms).Gives w outcomes v ∧
      v.heap.collection? r = some { c with items } ∧ account (ps ++ qs) v ∧
      Evolves r.id c.items ms outcomes qs items := by
  induction ms generalizing w c ps with
  | nil => exact ⟨[], [], c.items, w, rfl, here, by rwa [List.append_nil], .done _⟩
  | cons m ms ih =>
    cases changed : m.itemChange c.items with
    | error e =>
      have refuses := Mutation.refuses_iff.mpr changed
      obtain ⟨outcomes, qs, items, v, gives, same, told, rest⟩ := ih here accepts accounts
      have tried : (Act.attempt (r.mutate dispatch m)).Gives w (.error e) w :=
        Act.gives_attempt.mpr (.inr ⟨e, rfl, mutate_of_refuses here refuses⟩)
      exact ⟨.error e :: outcomes, qs, items, v,
        Act.gives_bind.mpr ⟨_, w, tried, Act.gives_bind.mpr ⟨_, v, gives, rfl⟩⟩, same, told,
        .refused refuses rest⟩
    | ok result =>
      obtain ⟨next, out⟩ := result
      obtain ⟨u, done, kept, published⟩ := mutate_of_turns here accepts accounts changed
      obtain ⟨outcomes, qs, items, v, gives, same, told, rest⟩ := ih kept accepts published
      have tried : (Act.attempt (r.mutate dispatch m)).Gives w (.ok out) u :=
        Act.gives_attempt.mpr (.inl ⟨out, rfl, done⟩)
      rw [List.append_assoc] at told
      exact ⟨.ok out :: outcomes, _ :: qs, items, v,
        Act.gives_bind.mpr ⟨_, u, tried, Act.gives_bind.mpr ⟨_, v, gives, rfl⟩⟩, same, told,
        .changed (Mutation.turns_of_itemChange changed) (Publication.reports_changeEvents ..) rest⟩

/-- What changes one after the other come to, and how it agrees with what is published of them. -/
structure Agreement (dispatch : Act Unit) (r : Ref) (account : List Publication → World → Prop)
    (w : World) (c : CollectionCell) (ms : List Mutation)
    (outcomes : List (Except Error (List Value))) (ps : List Publication) (items : List Value)
    (v : World) : Prop where
  gives : (r.mutateAll dispatch ms).Gives w outcomes v
  kept : v.heap.collection? r = some { c with items }
  told : account ps v
  evolves : Evolves r.id c.items ms outcomes ps items
  steps : Steps r.id c.items.length ((Publication.all ps).filter (·.key = .length)) items.length
  last : ∀ e ∈ (Publication.all ps).getLast?, e.new = .ofNat items.length

/-- Items and what is published of them agree, for any changes one after the other on a collection
whose sink takes all that it is told; and a change that is refused leaves everything as it was. -/
theorem mutateAll_agrees (here : w.heap.collection? r = some c)
    (accepts : r.Accepts dispatch c.sink account) (accounts : account [] w) (ms : List Mutation) :
    (∃ outcomes ps items v, r.Agreement dispatch account w c ms outcomes ps items v) ∧
      ∀ m e, m.Refuses c.items e → (r.mutate dispatch m).on w = (.error (.raised e), w) := by
  refine ⟨?_, fun m e => mutate_of_refuses here⟩
  obtain ⟨outcomes, ps, items, v, gives, same, told, evolves⟩ :=
    evolves_mutateAll here accepts accounts ms
  refine ⟨outcomes, ps, items, v, gives, same, told, evolves, evolves.steps, fun e last => ?_⟩
  have tells := evolves.told
  rwa [Option.mem_def.mp last] at tells

theorem on_report_log (events : List Event) (w : World) :
    (Act.report dispatch .log events).on w =
      (.ok (), { w with log := (events.map .reported).reverse ++ w.log }) := by
  change (events.forM fun e => Act.log (.reported e)).on w = _
  induction events generalizing w with
  | nil => rfl
  | cons e events ih =>
    refine (Act.on_bind_ok (Act.on_log ..)).trans ((ih _).trans ?_)
    simp

/-- The log takes all that it is told, and the last event stands first. -/
theorem accepts_log (dispatch : Act Unit) (r : Ref) (earlier : List LogEntry) :
    r.Accepts dispatch .log fun ps v =>
      v.log = ((Publication.all ps).map .reported).reverse ++ earlier where
  write _ accounts := accounts
  take {ps u c} values events accounts here := by
    refine ⟨_, Act.gives_holding.mpr ⟨_, on_report_log .., rfl⟩, here, ?_⟩
    simp [Publication.all, accounts]

namespace Reporting

/-- A collection that reports into the log. -/
def cell : CollectionCell := ⟨7, [.number .one, .text "b", .null], .log, {}⟩

def world : World := { heap := { cells := #[some (.collection cell)] } }

/-- All ten changes, at the bounds of what they allow and beyond them. -/
def changes : List Mutation :=
  [.insert 4 .null, .insert 3 (.text "a"), .sort (world.heap.looseOrder true), .remove 4, .remove 3,
    .setItem 5 (.bool true), .setItem 5 .null, .reverse, .unshift .null, .shift, .push (.text "c"),
    .replaceAll [], .pop, .shift]

/-- What the log tells after publications. -/
def tells (ps : List Publication) (v : World) : Prop :=
  v.log = ((Publication.all ps).map .reported).reverse ++ []

theorem mutateAll_agrees_world : world.heap.collection? ⟨0, 7⟩ = some cell ∧
    Accepts (pure ()) ⟨0, 7⟩ cell.sink tells ∧ tells [] world ∧
    (∃ outcomes ps items v,
      Agreement (pure ()) ⟨0, 7⟩ tells world cell changes outcomes ps items v) ∧
    (mutate (pure ()) ⟨0, 7⟩ (.insert 4 .null)).on world =
      (.error (.raised (.invalidOperation "insert index out of bounds")), world) := by
  have accepts : Accepts (pure ()) ⟨0, 7⟩ cell.sink tells := accepts_log (pure ()) ⟨0, 7⟩ []
  obtain ⟨agrees, refused⟩ :=
    mutateAll_agrees (w := world) (r := ⟨0, 7⟩) (c := cell) rfl accepts rfl changes
  exact ⟨rfl, accepts, rfl, agrees, refused _ _ (.insert .null (by decide))⟩

end Reporting

end Ref

end ReactiveQuery
