import ReactiveQuery.Engine.Function
import ReactiveQuery.Proofs.Sort.Rows

/-! How often sorting reads its keys.  From two items on it reads each key of each item once, in
order, up to the first that fails; and it fails exactly when one of them does.  Of fewer items it
reads none, so that a key that fails lets one row through. -/

namespace ReactiveQuery

/-- A key that is read from an item, and what that comes to. -/
structure Reading where
  item : Value
  key : SortKey
  outcome : Except Fault Value

namespace Reading

/-- What is read, whatever it comes to. -/
def asked (x : Reading) : Value × SortKey := (x.item, x.key)

theorem not_ok {x : Reading} {fault : Fault} (failed : x.outcome = .error fault) :
    ¬x.outcome.isOk := by
  rw [failed]
  exact Bool.false_ne_true

end Reading

/-- All keys of all items, item by item. -/
def SortKey.readings (keys : List SortKey) (items : List Value) : List (Value × SortKey) :=
  items.flatMap fun item => keys.map (item, ·)

/-- Keys are read in this order, each in the world that the one before has left, and none after one
that fails.  Meanwhile more values may be held. -/
inductive Reads (call : Caller) (ctx : Context) :
    List (Value × SortKey) → World → List Reading → World → Prop where
  | done {w} : Reads call ctx [] w [] w
  | next {item key asked values w value u trace v}
    (read : ((Code.path key.root key.steps).evaluate call ctx item).Gives
      { w with held := values ++ w.held } value u)
    (rest : Reads call ctx asked { u with held := w.held } trace v) :
    Reads call ctx ((item, key) :: asked) w (⟨item, key, .ok value⟩ :: trace) v
  | fails {item key asked values w fault u}
    (read : ((Code.path key.root key.steps).evaluate call ctx item).on
      { w with held := values ++ w.held } = (.error fault, u)) :
    Reads call ctx ((item, key) :: asked) w [⟨item, key, .error fault⟩] { u with held := w.held }

namespace Reads

variable {call : Caller} {ctx : Context} {asked asked' : List (Value × SortKey)}
  {trace trace' : List Reading} {w u v : World}

/-- Nothing is read that is not to be read, and nothing out of order. -/
theorem asked_prefix (reads : Reads call ctx asked w trace v) :
    trace.map Reading.asked <+: asked := by
  induction reads with
  | done => exact List.prefix_rfl
  | next _ _ ih => exact List.cons_prefix_cons.mpr ⟨rfl, ih⟩
  | fails _ => exact List.cons_prefix_cons.mpr ⟨rfl, List.nil_prefix⟩

/-- Where no reading fails, everything is read. -/
theorem asked_eq (reads : Reads call ctx asked w trace v)
    (fine : ∀ x ∈ trace, x.outcome.isOk) : trace.map Reading.asked = asked := by
  induction reads with
  | done => rfl
  | next _ _ ih =>
    rw [List.map_cons, ih fun x member => fine x (List.mem_cons_of_mem _ member)]
    rfl
  | fails _ => cases fine _ List.mem_cons_self

/-- Only the last reading fails. -/
theorem getLast?_of_error (reads : Reads call ctx asked w trace v) {x : Reading} {fault : Fault}
    (member : x ∈ trace) (failed : x.outcome = .error fault) : trace.getLast? = some x := by
  induction reads with
  | done => cases member
  | next _ _ ih =>
    rcases List.mem_cons.mp member with rfl | later
    · cases failed
    · rw [List.getLast?_cons, ih later]
      rfl
  | fails _ =>
    rw [List.mem_singleton.mp member]
    rfl

/-- At most one reading fails. -/
theorem only_error (reads : Reads call ctx asked w trace v) {x y : Reading} {e f : Fault}
    (left : x ∈ trace) (failed : x.outcome = .error e) (right : y ∈ trace)
    (failed' : y.outcome = .error f) : x = y ∧ e = f := by
  have same := (reads.getLast?_of_error left failed).symm.trans
    (reads.getLast?_of_error right failed')
  obtain rfl := Option.some.inj same
  exact ⟨rfl, Except.error.inj (failed.symm.trans failed')⟩

/-- Values that are held all along. -/
theorem of_holding {values : List Value}
    (reads : Reads call ctx asked { w with held := values ++ w.held } trace v) :
    Reads call ctx asked w trace { v with held := w.held } := by
  generalize start : { w with held := values ++ w.held } = w' at reads
  induction reads generalizing w with
  | done =>
    subst start
    exact .done
  | @next _ _ _ more _ _ u _ _ read _ ih =>
    subst start
    have read := (List.append_assoc more values w.held).symm ▸ read
    exact .next (u := u) read (ih (w := { u with held := w.held }) rfl)
  | @fails _ _ _ more _ _ u read =>
    subst start
    have read := (List.append_assoc more values w.held).symm ▸ read
    exact .fails (u := u) read

theorem append (first : Reads call ctx asked w trace u) (fine : ∀ x ∈ trace, x.outcome.isOk)
    (rest : Reads call ctx asked' u trace' v) :
    Reads call ctx (asked ++ asked') w (trace ++ trace') v := by
  induction first with
  | done => exact rest
  | next read _ ih =>
    exact .next read (ih (fun x member => fine x (List.mem_cons_of_mem _ member)) rest)
  | fails _ => cases fine _ List.mem_cons_self

theorem append_of_error (first : Reads call ctx asked w trace v) {x : Reading} {fault : Fault}
    (member : x ∈ trace) (failed : x.outcome = .error fault) (asked' : List (Value × SortKey)) :
    Reads call ctx (asked ++ asked') w trace v := by
  induction first with
  | done => cases member
  | next read _ ih =>
    rcases List.mem_cons.mp member with rfl | later
    · cases failed
    · exact .next read (ih later)
  | fails read => exact .fails read

end Reads

/-- An activity reads these keys and gives something made of what they come to, or fails as one of
them does. -/
def Collects {α : Type} (call : Caller) (ctx : Context) (asked : List (Value × SortKey))
    (act : Act α) (w : World) (made : α → List Value → Prop) : Prop :=
  ∃ trace v, Reads call ctx asked w trace v ∧
    ((∃ values a, trace.map (·.outcome) = values.map .ok ∧ made a values ∧ act.Gives w a v) ∨
      ∃ x ∈ trace, ∃ fault, x.outcome = .error fault ∧ act.on w = (.error fault, v))

namespace Collects

variable {α β : Type} {call : Caller} {ctx : Context} {asked asked' : List (Value × SortKey)}
  {x : Act α} {f : α → Act β} {w : World} {made : α → List Value → Prop}
  {made' : β → List Value → Prop}

theorem isOk_of_outcomes {trace : List Reading} {values : List Value}
    (outcomes : trace.map (·.outcome) = values.map .ok) : ∀ x ∈ trace, x.outcome.isOk := by
  intro x member
  have listed : x.outcome ∈ values.map .ok := outcomes ▸ List.mem_map_of_mem member
  obtain ⟨value, -, same⟩ := List.mem_map.mp listed
  rw [← same]
  rfl

theorem ret {a : α} (known : made a []) : Collects call ctx [] (pure a) w made :=
  ⟨[], w, .done, .inl ⟨[], a, rfl, known, rfl⟩⟩

/-- A key that is read while values are held. -/
theorem read (held : List Value) (item : Value) (key : SortKey) :
    Collects call ctx [(item, key)]
      (Act.holding held ((Code.path key.root key.steps).evaluate call ctx item)) w
      fun value values => values = [value] := by
  rcases come : ((Code.path key.root key.steps).evaluate call ctx item).on
    { w with held := held ++ w.held } with ⟨fault | value, u⟩
  · refine ⟨_, _, .fails come, .inr ⟨_, List.mem_singleton_self _, fault, rfl, ?_⟩⟩
    rw [Act.on_holding, come]
  · refine ⟨_, _, .next come .done, .inl ⟨[value], value, rfl, rfl, ?_⟩⟩
    rw [Act.Gives, Act.on_holding, come]

theorem holding {held : List Value}
    (collects : Collects call ctx asked x { w with held := held ++ w.held } made) :
    Collects call ctx asked (Act.holding held x) w made := by
  obtain ⟨trace, v, reads, come⟩ := collects
  refine ⟨trace, _, reads.of_holding, come.imp ?_ ?_⟩
  · rintro ⟨values, a, outcomes, known, gives⟩
    exact ⟨values, a, outcomes, known, Act.gives_holding.mpr ⟨v, gives, rfl⟩⟩
  · rintro ⟨last, member, fault, failed, fails⟩
    exact ⟨last, member, fault, failed, by rw [Act.on_holding, fails]⟩

/-- One after the other. -/
theorem bind (first : Collects call ctx asked x w made)
    (rest : ∀ a values u, made a values →
      Collects call ctx asked' (f a) u fun b more => made' b (values ++ more)) :
    Collects call ctx (asked ++ asked') (x >>= f) w made' := by
  obtain ⟨trace, u, reads,
    ⟨values, a, outcomes, known, gives⟩ | ⟨last, member, fault, failed, fails⟩⟩ := first
  · have fine := isOk_of_outcomes outcomes
    obtain ⟨trace', v, reads', come⟩ := rest a values u known
    refine ⟨trace ++ trace', v, reads.append fine reads', come.imp ?_ ?_⟩
    · rintro ⟨more, b, outcomes', known', gives'⟩
      refine ⟨values ++ more, b, ?_, known', Act.gives_bind.mpr ⟨a, u, gives, gives'⟩⟩
      rw [List.map_append, List.map_append, outcomes, outcomes']
    · rintro ⟨last, member, fault, failed, fails⟩
      exact ⟨last, List.mem_append_right _ member, fault, failed,
        (Act.on_bind_ok gives).trans fails⟩
  · exact ⟨trace, u, reads.append_of_error member failed asked',
      .inr ⟨last, member, fault, failed, Act.on_bind_error fails⟩⟩

theorem mono (collects : Collects call ctx asked x w made) {made' : α → List Value → Prop}
    (known : ∀ a values, made a values → made' a values) : Collects call ctx asked x w made' := by
  obtain ⟨trace, v, reads, come⟩ := collects
  refine ⟨trace, v, reads, come.imp_left ?_⟩
  rintro ⟨values, a, outcomes, made, gives⟩
  exact ⟨values, a, outcomes, known a values made, gives⟩

end Collects

namespace SortKey

variable {call : Caller} {ctx : Context} {keys : List SortKey} {items : List Value} {w : World}

/-- The keys of one item are read from left to right. -/
theorem collects_extract (item : Value) (done : List Value) :
    Collects call ctx (keys.map (item, ·)) (extract call ctx item done keys) w
      fun row values => row = done ++ values ∧ values.length = keys.length := by
  induction keys generalizing done w with
  | nil => exact .ret ⟨(List.append_nil done).symm, rfl⟩
  | cons key keys ih =>
    rw [List.map_cons, ← List.singleton_append, extract]
    refine (Collects.read done item key).bind fun value values u only => ?_
    subst only
    refine (ih (done ++ [value])).mono ?_
    rintro row values ⟨rfl, same⟩
    exact ⟨by simp, by simp [same]⟩

/-- The keys of all items are read item by item. -/
theorem collects_extractAll (done : List (List Value × Value)) :
    Collects call ctx (readings keys items) (extractAll call ctx keys done items) w
      fun rows values => ∃ more, rows = done ++ more ∧ more.map (·.2) = items ∧
        more.flatMap (·.1) = values ∧ ∀ row ∈ more, row.1.length = keys.length := by
  induction items generalizing done w with
  | nil => exact .ret ⟨[], by simp⟩
  | cons item items ih =>
    rw [readings, List.flatMap_cons, ← readings, extractAll]
    refine (Collects.holding (collects_extract item [])).bind ?_
    rintro row values u ⟨whole, same⟩
    obtain rfl : row = values := whole
    refine (ih (done ++ [(row, item)])).mono ?_
    rintro rows later ⟨more, rfl, own, rfl, even⟩
    refine ⟨(row, item) :: more, by simp, by simp [own], by simp, ?_⟩
    exact List.forall_mem_cons.mpr ⟨same, even⟩

/-- What becomes of the rows once they are read. -/
theorem on_sort {rows : List (List Value × Value)} {v : World} (several : ¬items.length < 2)
    (gives : (Act.holding items (extractAll call ctx keys [] items)).Gives w rows v) :
    (sort call ctx keys items).on w =
      match mergeSortBy (fun a b : List Value × Value =>
        compareRows v.heap (keys.map (·.ascending)) a.1 b.1) rows with
      | some arranged => (.ok (arranged.map (·.2)), v)
      | none => (.error .endless, v) := by
  rw [sort, if_neg several, Act.on_bind_ok gives, Act.on_bind, Act.on_ask]
  cases mergeSortBy (fun a b : List Value × Value =>
    compareRows v.heap (keys.map (·.ascending)) a.1 b.1) rows <;> rfl

theorem on_sort_of_error {fault : Fault} {v : World} (several : ¬items.length < 2)
    (fails : (Act.holding items (extractAll call ctx keys [] items)).on w = (.error fault, v)) :
    (sort call ctx keys items).on w = (.error fault, v) := by
  rw [sort, if_neg several, Act.on_bind_error fails]

/-- Of fewer than two items sorting reads no key.  Of more it reads each key of each item once, item
by item and from left to right, up to the first that fails; it fails with what the last reading
fails with, and otherwise gives the arrangement of the items by the values that it has read. -/
theorem sort_reads_once (call : Caller) (ctx : Context) (keys : List SortKey) (items : List Value)
    (w : World) :
    if items.length < 2 then (sort call ctx keys items).on w = (.ok items, w)
    else ∃ trace v, Reads call ctx (readings keys items) w trace v ∧
      trace.map Reading.asked <+: readings keys items ∧
      ((∃ e, ((sort call ctx keys items).on w).1 = .error (.raised e)) ↔
        ∃ x ∈ trace, ∃ e, x.outcome = .error (.raised e)) ∧
      (∀ x ∈ trace, ∀ fault, x.outcome = .error fault →
        trace.getLast? = some x ∧ (sort call ctx keys items).on w = (.error fault, v)) ∧
      ((∀ x ∈ trace, x.outcome.isOk) → trace.map Reading.asked = readings keys items ∧
        ∃ rows : List (List Value × Value), rows.map (·.2) = items ∧
          (∀ row ∈ rows, row.1.length = keys.length) ∧
          trace.map (·.outcome) = (rows.flatMap (·.1)).map .ok ∧
          (sort call ctx keys items).on w =
            match mergeSortBy (fun a b : List Value × Value =>
              compareRows v.heap (keys.map (·.ascending)) a.1 b.1) rows with
            | some arranged => (.ok (arranged.map (·.2)), v)
            | none => (.error .endless, v)) := by
  split
  · next few => simp [sort, few]
  · next several =>
    have collects : Collects call ctx (readings keys items)
        (Act.holding items (extractAll call ctx keys [] items)) w _ :=
      (collects_extractAll []).holding
    obtain ⟨trace, v, reads, come⟩ := collects
    refine ⟨trace, v, reads, reads.asked_prefix, ?_⟩
    rcases come with ⟨values, rows, outcomes, ⟨_, rfl, own, rfl, even⟩, gives⟩ |
      ⟨last, member, fault, failed, fails⟩
    · have fine := Collects.isOk_of_outcomes outcomes
      refine ⟨⟨?_, ?_⟩,
        fun x member fault failed => absurd (fine x member) (Reading.not_ok failed),
        fun _ => ⟨reads.asked_eq fine, rows, own, even, outcomes, on_sort several gives⟩⟩
      · rintro ⟨e, raised⟩
        rw [on_sort several gives] at raised
        split at raised <;> cases raised
      · rintro ⟨x, member, e, failed⟩
        exact absurd (fine x member) (Reading.not_ok failed)
    · have sorts := on_sort_of_error several fails
      refine ⟨⟨?_, ?_⟩, ?_, fun fine => absurd (fine last member) (Reading.not_ok failed)⟩
      · rintro ⟨e, raised⟩
        rw [sorts] at raised
        exact ⟨last, member, e, failed.trans (congrArg _ (Except.error.inj raised))⟩
      · rintro ⟨x, there, e, failed'⟩
        obtain ⟨-, rfl⟩ := reads.only_error there failed' member failed
        exact ⟨e, congrArg Prod.fst sorts⟩
      · intro x there fault' failed'
        obtain ⟨rfl, rfl⟩ := reads.only_error there failed' member failed
        exact ⟨reads.getLast?_of_error there failed, sorts⟩

end SortKey

/-- A key that cannot be read is not noticed as long as one row matches: the query answers, and
fails when a second row matches. -/
theorem Definition.execute_unread :
    let call : Caller := Extension.invoke (fun _ _ _ => pure .null) (pure ())
    let ctx : Context := ⟨⟨0, 0⟩, []⟩
    let key : SortKey := ⟨.here, [.computed (.call ⟨0, .fail⟩ [.literal (.text "x")])], true⟩
    let d : Definition := ⟨.literal (.bool true), none, some [key], false, []⟩
    let fault : Fault := .raised (.invalidOperation "x")
    (((Code.path key.root key.steps).evaluate call ctx (.text "a")).on {}).1 = .error fault ∧
      (d.execute call ctx [.text "a"]).on {} = (.ok [.text "a"], {}) ∧
      ((d.execute call ctx [.text "a", .text "b"]).on {}).1 = .error fault := by
  intro call ctx key d fault
  have text (h : Heap) : h.text (.text "x") = some "x" := by rw [Heap.text, Value.textWith]
  have calls (w : World) : (call ⟨0, .fail⟩ ctx [.text "x"]).on w =
      (.error fault, { w with log := .called .fail [.text "x"] :: w.log }) := by
    simp [call, Extension.invoke, Act.on_bind, text, fault]
  have reads (w : World) : ((Code.path key.root key.steps).evaluate call ctx (.text "a")).on w =
      (.error fault, { w with log := .called .fail [.text "x"] :: w.log }) := by
    simp [key, Code.evaluate, Step.walk, Code.evaluateAll, Heap.drill, Act.on_bind, calls]
  have extracts (w : World) : (SortKey.extract call ctx (.text "a") [] [key]).on w =
      (.error fault, { w with log := .called .fail [.text "x"] :: w.log }) := by
    rw [SortKey.extract, Act.on_bind, Act.on_holding, reads]
  have sorts : ((SortKey.sort call ctx [key] [.text "a", .text "b"]).on {}).1 = .error fault := by
    rw [SortKey.sort, if_neg (by decide), Act.on_bind, Act.on_holding, SortKey.extractAll,
      Act.on_bind, Act.on_holding, extracts]
  have keeps : (d.filterProject call ctx [] [.text "a", .text "b"]).on {} =
      (.ok [.text "a", .text "b"], {}) := by
    simp [d, Definition.filterProject, Definition.accepts, Code.evaluate, Definition.project,
      Value.truthy]
  refine ⟨congrArg Prod.fst (reads _), ?_, ?_⟩
  · simp [Definition.execute, d, Definition.filterProject, Definition.accepts, Code.evaluate,
      Definition.project, SortKey.sort, Value.truthy]
  · exact (congrArg Prod.fst (Act.on_bind_ok keeps)).trans sorts

end ReactiveQuery
