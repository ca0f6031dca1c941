import ReactiveQuery.Proofs.Query.Folding
import ReactiveQuery.Proofs.Query.Shape
import ReactiveQuery.Proofs.Sorting
import ReactiveQuery.Proofs.Value.Reading

/-! Evaluation without calls.  It changes nothing but the next tag and the patterns read, and what
it gives fits the run, in which every new container takes a new tag. -/

namespace ReactiveQuery

/-- A world that has gone on to take tags and to read patterns, and is the same otherwise. -/
structure World.Advances (u v : World) : Prop where
  heap : u.heap.Advances v.heap
  read : u.patterns.Reachable → v.patterns.Reachable
  same : v = { u with heap := v.heap, patterns := v.patterns }

namespace World.Advances

theorem refl (w : World) : w.Advances w := ⟨.refl _, id, rfl⟩

theorem trans {u v w : World} (first : u.Advances v) (second : v.Advances w) : u.Advances w where
  heap := first.heap.trans second.heap
  read := second.read ∘ first.read
  same := by rw [second.same, first.same]

/-- What is held may be taken off again. -/
theorem held {u v : World} {outer inner : List Value} (h : { u with held := inner }.Advances v)
    (before : u.held = outer) : u.Advances { v with held := outer } where
  heap := h.heap
  read := h.read
  same := by
    rw [h.same]
    simp only [← before]

end World.Advances

/-- From worlds that fit, an activity that succeeds only advances, to a world that fits with more
containers, and gives what is told of those. -/
def Act.Fitting {α : Type} (size : Nat) (containers : List Value) (x : Act α)
    (Q : List Value → α → Prop) : Prop :=
  ∀ w a v, w.heap.Fits containers size → w.patterns.Reachable → x.Gives w a v →
    ∃ more, containers <+: more ∧ v.heap.Fits more size ∧ w.Advances v ∧ Q more a

namespace Act.Fitting

variable {α β : Type} {size : Nat} {containers : List Value} {Q : List Value → α → Prop}
  {R : List Value → β → Prop}

theorem ret {a : α} (given : Q containers a) : Fitting size containers (pure a) Q := by
  intro w a' v fits _ gives
  obtain ⟨rfl, rfl⟩ := gives_pure.mp gives
  exact ⟨containers, List.prefix_refl _, fits, .refl _, given⟩

theorem bind {x : Act α} {f : α → Act β} (first : Fitting size containers x Q)
    (rest : ∀ more a, containers <+: more → Q more a → Fitting size more (f a) R) :
    Fitting size containers (x >>= f) R := by
  intro w b v fits read gives
  obtain ⟨a, u, gives, last⟩ := gives_bind.mp gives
  obtain ⟨more, grown, fits, advances, given⟩ := first _ _ _ fits read gives
  obtain ⟨most, grown', fits, advances', given⟩ :=
    rest more a grown given _ _ _ fits (advances.read read) last
  exact ⟨most, grown.trans grown', fits, advances.trans advances', given⟩

theorem holding {x : Act α} (values : List Value) (fitting : Fitting size containers x Q) :
    Fitting size containers (Act.holding values x) Q := by
  intro w a v fits read gives
  obtain ⟨u, inner, rfl⟩ := gives_holding.mp gives
  have begun : Heap.Fits { w with held := values ++ w.held }.heap containers size := fits
  obtain ⟨more, grown, fits, advances, given⟩ := fitting _ _ _ begun read inner
  exact ⟨more, grown, fits, advances.held rfl, given⟩

theorem ask {question : Heap → Option α}
    (step : ∀ h a, h.Fits containers size → question h = some a → Q containers a) :
    Fitting size containers (Act.ask question) Q := by
  intro w a v fits _ gives
  obtain ⟨answer, rfl⟩ := gives_ask.mp gives
  exact ⟨containers, List.prefix_refl _, fits, .refl _, step _ _ fits answer⟩

theorem onHeap {x : StateM Heap α} (fitting : Heap.Fitting size containers x Q) :
    Fitting size containers (Act.onHeap x) Q := by
  intro w a v fits _ gives
  obtain ⟨rfl, rfl⟩ := gives_onHeap.mp gives
  obtain ⟨more, grown, fits, advances, given⟩ := fitting w.heap fits
  exact ⟨more, grown, fits, ⟨advances, id, rfl⟩, given⟩

theorem freshArray {items : List Value} (fits : ∀ v ∈ items, v.Fits containers size) :
    Fitting size containers (Act.freshArray items) fun more v => v.Fits more size := by
  refine (onHeap (Heap.Fitting.fresh (fun t => .array t items) fun more t grown here => ?_)).bind
    (Q := fun more t => (Value.array t items).Fits more size) fun _ _ _ fits => ret fits
  rw [Value.Fits, Value.fitsItems_iff]
  exact ⟨here, fun v member => Value.fits_later grown v (fits v member)⟩

theorem freshObject {fields : FieldMap Value} (fits : ∀ e ∈ fields, e.2.Fits containers size) :
    Fitting size containers (Act.freshObject fields) fun more v => v.Fits more size := by
  refine (onHeap (Heap.Fitting.fresh (fun t => .object t fields) fun more t grown here => ?_)).bind
    (Q := fun more t => (Value.object t fields).Fits more size) fun _ _ _ fits => ret fits
  rw [Value.Fits, Value.fitsFields_iff]
  exact ⟨here, fun e member => Value.fits_later grown _ (fits e member)⟩

theorem compute (op : BinaryOp) {l r : Value} (left : l.Fits containers size)
    (right : r.Fits containers size) :
    Fitting size containers (Act.compile fun scope => op.compute scope.heap l r)
      fun more v => v.Fits more size := by
  intro w v u fits read gives
  obtain ⟨patterns, computed, rfl⟩ := gives_compile.mp gives
  obtain ⟨given, read'⟩ := op.run_compute w.heap l r read
  rw [computed] at given read'
  refine ⟨containers, List.prefix_refl _, fits, ⟨.refl _, fun _ => read', rfl⟩, ?_⟩
  rcases BinaryOp.of_meaning given.symm with rfl | rfl | ⟨p, rfl⟩
  · exact left
  · exact right
  · exact Value.fits_primitive p

end Act.Fitting

section
variable {size : Nat} {containers : List Value}

theorem Heap.Fits.itemAt {items : List Value} (key : Value)
    (fits : ∀ v ∈ items, v.Fits containers size) :
    (Heap.itemAt items key).Fits containers size := by
  unfold Heap.itemAt
  split
  · next i _ =>
    cases found : items[i]? with
    | none => trivial
    | some v => exact fits v (List.mem_of_getElem? found)
  · trivial
  · trivial

/-- What is read in a value that fits, fits. -/
theorem Heap.Fits.read {h : Heap} (fits : h.Fits containers size) {v key x : Value}
    (here : v.Fits containers size) (found : h.read v key = some x) : x.Fits containers size := by
  cases v with
  | record r =>
    simp only [Heap.read, Option.bind_eq_bind, Option.bind_eq_some_iff, pure,
      Option.some.injEq] at found
    obtain ⟨s, -, rfl⟩ := found
    exact Value.fits_get? s (fits.fields r)
  | object t fields =>
    simp only [Heap.read, Option.bind_eq_bind, Option.bind_eq_some_iff, pure,
      Option.some.injEq] at found
    obtain ⟨s, -, rfl⟩ := found
    rw [Value.Fits, Value.fitsFields_iff] at here
    exact Value.fits_get? s here.2
  | array t items =>
    simp only [Heap.read, Option.some.injEq] at found
    rw [Value.Fits, Value.fitsItems_iff] at here
    exact found ▸ Heap.Fits.itemAt key here.2
  | collection r =>
    simp only [Heap.read, Option.some.injEq] at found
    exact found ▸ Heap.Fits.itemAt key (fits.items r)
  | text s =>
    simp only [Heap.read, Option.some.injEq] at found
    refine found ▸ Heap.Fits.itemAt key fun v member => ?_
    obtain ⟨c, -, rfl⟩ := List.mem_map.mp member
    trivial
  | _ =>
    simp only [Heap.read, Option.some.injEq] at found
    exact found ▸ trivial

theorem Heap.Fits.drill {h : Heap} (fits : h.Fits containers size) {v x : Value}
    (here : v.Fits containers size) (found : h.drill v = some x) : x.Fits containers size := by
  cases v with
  | collection r =>
    have members := fits.items r
    simp only [Heap.drill] at found
    split at found
    · cases found
    · cases found
    · next v rest _ items =>
      cases found
      exact members x (items ▸ List.mem_cons_self)
  | null => cases found
  | _ =>
    cases found
    exact here

/-- A walk goes on at a value that fits, or gives null. -/
theorem Act.Fitting.drill {current : Value} (place : current.Fits containers size)
    {go : Value → Act Value} (rest : ∀ v, v.Fits containers size →
      Act.Fitting size containers (go v) fun more v => v.Fits more size) :
    Act.Fitting size containers
      (do match (← get).heap.drill current with
        | none => return .null
        | some v => go v) fun more v => v.Fits more size := by
  intro w a v fits read gives
  obtain ⟨_, _, got, gives⟩ := Act.gives_bind.mp gives
  obtain ⟨rfl, rfl⟩ := Act.gives_get.mp got
  cases drilled : w.heap.drill current with
  | none =>
    rw [drilled] at gives
    exact Act.Fitting.ret (Value.fits_primitive .null) _ _ _ fits read gives
  | some x =>
    rw [drilled] at gives
    exact rest x (fits.drill place drilled) _ _ _ fits read gives

theorem Act.Fitting.read {v key : Value} (fits : v.Fits containers size) :
    Act.Fitting size containers (Act.ask (·.read v key)) fun more x => x.Fits more size :=
  Act.Fitting.ask fun _ _ heap found => heap.read fits found

/-- Code without calls whose literals fit. -/
abbrev Code.Fits (containers : List Value) (size : Nat) (c : Code) : Prop :=
  c.All (Value.Fits containers size) fun _ _ => True

abbrev Definition.Fits (containers : List Value) (size : Nat) (d : Definition) : Prop :=
  d.All (Value.Fits containers size) fun _ _ => True

/-- The parameters of a context fit. -/
def Context.Fits (ctx : Context) (containers : List Value) (size : Nat) : Prop :=
  ∀ i, (ctx.param i).Fits containers size

theorem Context.Fits.later {ctx : Context} {more : List Value} (fits : ctx.Fits containers size)
    (grown : containers <+: more) : ctx.Fits more size := fun i =>
  (fits i).later grown (Nat.le_refl _)

end

section
variable {size : Nat} {call : Caller} {ctx : Context}

mutual
/-- Code without calls gives values that fit. -/
theorem Code.evaluate_fits : ∀ (c : Code) {containers : List Value} {record : Value},
    c.Fits containers size → ctx.Fits containers size → record.Fits containers size →
    Act.Fitting size containers (c.evaluate call ctx record) fun more v => v.Fits more size
  | .literal v, _, _, shape, _, _ => by
    rw [Code.Fits, Code.All] at shape
    rw [Code.evaluate]
    exact Act.Fitting.ret shape
  | .unary op a, _, _, shape, params, here => by
    rw [Code.Fits, Code.All] at shape
    rw [Code.evaluate]
    refine (Code.evaluate_fits a shape params here).bind fun more v grown fits => ?_
    refine Act.Fitting.ask fun h w _ applied => ?_
    obtain ⟨p, rfl⟩ := UnaryOp.primitive_of_apply applied
    exact Value.fits_primitive p
  | .binary op a b, _, _, shape, params, here => by
    rw [Code.Fits, Code.All] at shape
    have left := Code.evaluate_fits a shape.1 params here
    have right : ∀ more, _ <+: more → Act.Fitting size more (b.evaluate call ctx _)
        fun more v => v.Fits more size := fun more grown =>
      Code.evaluate_fits b (shape.2.mono (Value.fits_later grown) fun _ _ => id)
        (params.later grown) (Value.fits_later grown _ here)
    rw [Code.evaluate_binary]
    cases op
    case and =>
      refine left.bind fun more l grown fits => ?_
      split
      · exact (right more grown).holding [l]
      · exact Act.Fitting.ret fits
    case or =>
      refine left.bind fun more l grown fits => ?_
      split
      · exact Act.Fitting.ret fits
      · exact (right more grown).holding [l]
    all_goals
      refine left.bind fun more l grown fits => ?_
      refine ((right more grown).holding [l]).bind fun most r grown' fits' => ?_
      exact Act.Fitting.compute _ (Value.fits_later grown' l fits) fits'
  | .ternary a b c, _, _, shape, params, here => by
    rw [Code.Fits, Code.All] at shape
    rw [Code.evaluate]
    refine (Code.evaluate_fits a shape.1 params here).bind fun more v grown _ => ?_
    have params := params.later grown
    have here := Value.fits_later grown _ here
    split
    · exact Code.evaluate_fits b (shape.2.1.mono (Value.fits_later grown) fun _ _ => id) params here
    · exact Code.evaluate_fits c (shape.2.2.mono (Value.fits_later grown) fun _ _ => id) params here
  | .path root steps, _, _, shape, params, here => by
    rw [Code.Fits, Code.All] at shape
    cases root with
    | here =>
      rw [Code.evaluate]
      exact Step.walk_fits steps shape.2 params here here
    | arg i =>
      rw [Code.evaluate]
      exact Step.walk_fits steps shape.2 params here (params i)
  | .object members, _, _, shape, params, here => by
    rw [Code.Fits, Code.All] at shape
    rw [Code.evaluate]
    refine (Code.evaluateMembers_fits members shape params here (by simp)).bind
      fun more fields _ fits => ?_
    exact Act.Fitting.freshObject fits
  | .array items, _, _, shape, params, here => by
    rw [Code.Fits, Code.All] at shape
    rw [Code.evaluate]
    refine (Code.evaluateAll_fits items shape params here (by simp)).bind
      fun more values _ fits => ?_
    exact Act.Fitting.freshArray fits
  | .call .., _, _, shape, _, _ => by
    rw [Code.Fits, Code.All] at shape
    exact shape.elim

theorem Code.evaluateAll_fits : ∀ (cs : List Code) {containers : List Value} {record : Value}
    {done : List Value}, Code.AllOf (Value.Fits containers size) (fun _ _ => True) cs →
    ctx.Fits containers size → record.Fits containers size →
    (∀ v ∈ done, v.Fits containers size) →
    Act.Fitting size containers (Code.evaluateAll call ctx record done cs)
      fun more vs => ∀ v ∈ vs, v.Fits more size
  | [], _, _, _, _, _, _, values => by
    rw [Code.evaluateAll]
    exact Act.Fitting.ret values
  | c :: cs, _, _, done, shape, params, here, values => by
    rw [Code.AllOf] at shape
    rw [Code.evaluateAll]
    refine ((Code.evaluate_fits c shape.1 params here).holding done).bind
      fun more v grown fits => ?_
    refine Code.evaluateAll_fits cs (shape.2.mono (Value.fits_later grown) fun _ _ => id)
      (params.later grown) (Value.fits_later grown _ here) fun w member => ?_
    rcases List.mem_append.mp member with member | member
    · exact Value.fits_later grown w (values w member)
    · rwa [List.mem_singleton.mp member]

theorem Code.evaluateMembers_fits : ∀ (cs : List (String × Code)) {containers : List Value}
    {record : Value} {done : FieldMap Value},
    Code.AllOfMembers (Value.Fits containers size) (fun _ _ => True) cs →
    ctx.Fits containers size → record.Fits containers size →
    (∀ e ∈ done, e.2.Fits containers size) →
    Act.Fitting size containers (Code.evaluateMembers call ctx record done cs)
      fun more fields => ∀ e ∈ fields, e.2.Fits more size
  | [], _, _, _, _, _, _, fields => by
    rw [Code.evaluateMembers]
    exact Act.Fitting.ret fields
  | (key, c) :: cs, _, _, done, shape, params, here, fields => by
    rw [Code.AllOfMembers] at shape
    rw [Code.evaluateMembers]
    refine ((Code.evaluate_fits c shape.1 params here).holding done.values).bind
      fun more v grown fits => ?_
    refine Code.evaluateMembers_fits cs (shape.2.mono (Value.fits_later grown) fun _ _ => id)
      (params.later grown) (Value.fits_later grown _ here) fun e member => ?_
    rcases FieldMap.mem_insert member with same | member
    · rwa [same]
    · exact Value.fits_later grown _ (fields e member)

theorem Step.walk_fits : ∀ (steps : List Step) {containers : List Value} {record current : Value},
    Step.AllOf (Value.Fits containers size) (fun _ _ => True) steps → ctx.Fits containers size →
    record.Fits containers size → current.Fits containers size →
    Act.Fitting size containers (Step.walk call ctx record current steps)
      fun more v => v.Fits more size
  | [], _, _, _, _, _, _, place => by
    rw [Step.walk]
    exact Act.Fitting.ret place
  | .key key :: steps, _, _, _, shape, params, here, place => by
    rw [Step.AllOf] at shape
    rw [Step.walk]
    refine Act.Fitting.drill place fun v fits => ?_
    refine (Act.Fitting.read fits).bind
      fun more next grown place => ?_
    exact Step.walk_fits steps (shape.2.mono (Value.fits_later grown) fun _ _ => id)
      (params.later grown) (Value.fits_later grown _ here) place
  | .computed c :: steps, _, _, _, shape, params, here, place => by
    rw [Step.AllOf] at shape
    rw [Step.walk]
    refine Act.Fitting.drill place fun v fits => ?_
    refine ((Code.evaluate_fits c shape.1 params here).holding [v]).bind
      fun more key grown _ => ?_
    have fits := Value.fits_later grown v fits
    refine (Act.Fitting.read fits).bind
      fun most next grown' place => ?_
    have grown := grown.trans grown'
    exact Step.walk_fits steps (shape.2.mono (Value.fits_later grown) fun _ _ => id)
      (params.later grown) (Value.fits_later grown _ here) place
end

/-- A list of values that fit. -/
def Value.AllFit (size : Nat) (containers : List Value) (vs : List Value) : Prop :=
  ∀ v ∈ vs, v.Fits containers size

namespace Value.AllFit

variable {containers more vs : List Value} {v : Value}

theorem nil : AllFit size containers [] := by simp [AllFit]

theorem cons (first : v.Fits containers size) (rest : AllFit size containers vs) :
    AllFit size containers (v :: vs) := by simpa [AllFit, first] using rest

theorem append (done : AllFit size containers vs) (last : v.Fits containers size) :
    AllFit size containers (vs ++ [v]) := by
  simp only [AllFit, List.mem_append, List.mem_singleton]
  rintro w (member | rfl)
  · exact done w member
  · exact last

theorem later (fits : AllFit size containers vs) (grown : containers <+: more) :
    AllFit size more vs := fun v member => fits_later grown v (fits v member)

end Value.AllFit

namespace Definition

variable {d : Definition}

theorem Fits.later {containers more : List Value} (shape : d.Fits containers size)
    (grown : containers <+: more) : d.Fits more size :=
  shape.mono (Value.fits_later grown) fun _ _ => id

theorem accepts_fits {containers : List Value} (shape : d.Fits containers size)
    (params : ctx.Fits containers size) {item : Value} (here : item.Fits containers size) :
    Act.Fitting size containers (d.accepts call ctx item) fun _ _ => True := by
  exact (Code.evaluate_fits d.filter shape.filter params here).bind fun more v _ _ =>
    Act.Fitting.ret trivial

theorem project_fits {containers : List Value} (shape : d.Fits containers size)
    (params : ctx.Fits containers size) {item : Value} (here : item.Fits containers size) :
    Act.Fitting size containers (d.project call ctx item) fun more v => v.Fits more size := by
  have selected := shape.select
  unfold project
  cases select : d.select with
  | none => exact Act.Fitting.ret here
  | some c => exact Code.evaluate_fits c (selected c (by simp [select])) params here

theorem filterItems_fits {containers items : List Value} (shape : d.Fits containers size)
    (params : ctx.Fits containers size) (all : Value.AllFit size containers items) :
    Act.Fitting size containers (d.filterItems call ctx items) (Value.AllFit size) := by
  induction items generalizing containers with
  | nil =>
    rw [filterItems]
    exact Act.Fitting.ret all
  | cons item items ih =>
    have first := all item List.mem_cons_self
    rw [filterItems]
    refine (accepts_fits shape params first).bind fun more kept grown _ => ?_
    have rest := ih (shape.later grown) (params.later grown) fun v member =>
      Value.fits_later grown v (all v (List.mem_cons_of_mem _ member))
    split
    · exact rest.bind fun most rows grown' fits => Act.Fitting.ret
        (.cons (Value.fits_later (grown.trans grown') _ first) fits)
    · exact rest

theorem projectItems_fits {containers items done : List Value} (shape : d.Fits containers size)
    (params : ctx.Fits containers size) (all : Value.AllFit size containers items)
    (rows : Value.AllFit size containers done) :
    Act.Fitting size containers (d.projectItems call ctx done items) (Value.AllFit size) := by
  induction items generalizing containers done with
  | nil =>
    rw [projectItems]
    exact Act.Fitting.ret rows
  | cons item items ih =>
    rw [projectItems]
    refine ((project_fits shape params (all item List.mem_cons_self)).holding done).bind
      fun more v grown fits => ?_
    exact ih (shape.later grown) (params.later grown)
      (fun v member => Value.fits_later grown v (all v (List.mem_cons_of_mem _ member)))
      ((rows.later grown).append fits)

theorem filterProject_fits {containers items done : List Value} (shape : d.Fits containers size)
    (params : ctx.Fits containers size) (all : Value.AllFit size containers items)
    (rows : Value.AllFit size containers done) :
    Act.Fitting size containers (d.filterProject call ctx done items) (Value.AllFit size) := by
  induction items generalizing containers done with
  | nil =>
    rw [filterProject]
    exact Act.Fitting.ret rows
  | cons item items ih =>
    have first := all item List.mem_cons_self
    rw [filterProject]
    refine ((accepts_fits shape params first).holding done).bind fun more kept grown _ => ?_
    have others : Value.AllFit size more items := fun v member =>
      Value.fits_later grown v (all v (List.mem_cons_of_mem _ member))
    split
    · refine ((project_fits (shape.later grown) (params.later grown)
        (Value.fits_later grown _ first)).holding done).bind fun most v grown' fits => ?_
      have grown := grown.trans grown'
      exact ih (shape.later grown) (params.later grown) (others.later grown')
        ((rows.later grown).append fits)
    · exact ih (shape.later grown) (params.later grown) others (rows.later grown)

end Definition

namespace SortKey

/-- The steps of sort keys fit. -/
def Fit (containers : List Value) (size : Nat) (keys : List SortKey) : Prop :=
  ∀ key ∈ keys, Step.AllOf (Value.Fits containers size) (fun _ _ => True) key.steps

theorem Fit.later {containers more : List Value} {keys : List SortKey}
    (shape : Fit containers size keys) (grown : containers <+: more) : Fit more size keys :=
  fun key member => (shape key member).mono (Value.fits_later grown) fun _ _ => id

theorem extract_fits {containers done : List Value} {keys : List SortKey} {item : Value}
    (shape : Fit containers size keys) (params : ctx.Fits containers size)
    (here : item.Fits containers size) (values : Value.AllFit size containers done) :
    Act.Fitting size containers (extract call ctx item done keys) (Value.AllFit size) := by
  induction keys generalizing containers done with
  | nil =>
    rw [extract]
    exact Act.Fitting.ret values
  | cons key keys ih =>
    have path : (Code.path key.root key.steps).Fits containers size := by
      rw [Code.Fits, Code.All]
      exact ⟨trivial, shape key List.mem_cons_self⟩
    rw [extract]
    refine ((Code.evaluate_fits _ path params here).holding done).bind fun more v grown fits => ?_
    refine ih (fun key member => ?_) (params.later grown) (Value.fits_later grown _ here)
      ((values.later grown).append fits)
    exact shape.later grown key (List.mem_cons_of_mem _ member)

/-- The items of rows fit; their keys are only compared. -/
def RowsFit (size : Nat) (containers : List Value) (rows : List (List Value × Value)) : Prop :=
  ∀ row ∈ rows, row.2.Fits containers size

theorem extractAll_fits {containers items : List Value} {keys : List SortKey}
    {done : List (List Value × Value)} (shape : Fit containers size keys)
    (params : ctx.Fits containers size) (all : Value.AllFit size containers items)
    (rows : RowsFit size containers done) :
    Act.Fitting size containers (extractAll call ctx keys done items) (RowsFit size) := by
  induction items generalizing containers done with
  | nil =>
    rw [extractAll]
    exact Act.Fitting.ret rows
  | cons item items ih =>
    have first := all item List.mem_cons_self
    rw [extractAll]
    refine ((extract_fits shape params first .nil).holding _).bind fun more row grown _ => ?_
    refine ih (shape.later grown) (params.later grown)
      (fun v member => Value.fits_later grown v (all v (List.mem_cons_of_mem _ member)))
      fun row member => ?_
    rcases List.mem_append.mp member with member | member
    · exact Value.fits_later grown _ (rows row member)
    · rw [List.mem_singleton.mp member]
      exact Value.fits_later grown _ first

theorem sort_fits {containers items : List Value} {keys : List SortKey}
    (shape : Fit containers size keys) (params : ctx.Fits containers size)
    (all : Value.AllFit size containers items) :
    Act.Fitting size containers (sort call ctx keys items) (Value.AllFit size) := by
  unfold sort
  split
  · exact Act.Fitting.ret all
  · refine ((extractAll_fits shape params all (by simp [RowsFit])).holding items).bind
      fun more rows grown fits => ?_
    refine Act.Fitting.bind (Q := RowsFit size)
      (Act.Fitting.ask fun h sorted _ found row member => ?_)
      fun most sorted grown' fits => Act.Fitting.ret fun v member => ?_
    · have given := (mergeSortBy_map (fun a b => compareRows h (keys.map (·.ascending)) a.1 b.1) id
        (by simp) found).2
      exact fits row (given row member)
    · obtain ⟨row, given, rfl⟩ := List.mem_map.mp member
      exact fits row given

end SortKey

/-- The rows of a query without calls fit. -/
theorem Definition.execute_fits {containers items : List Value} {d : Definition}
    (shape : d.Fits containers size) (params : ctx.Fits containers size)
    (all : Value.AllFit size containers items) :
    Act.Fitting size containers (d.execute call ctx items) (Value.AllFit size) := by
  have sorted : ∀ keys ∈ d.sort, SortKey.Fit containers size keys := fun keys sort key member =>
    (shape.sort keys sort key member).2
  unfold execute
  split
  · next keys _ sort _ _ =>
    refine (filterItems_fits shape params all).bind fun more kept grown rows => ?_
    have keys := (sorted keys (by simp [sort])).later grown
    refine (SortKey.sort_fits keys (params.later grown) rows).bind fun most rows grown' fits => ?_
    have grown := grown.trans grown'
    exact projectItems_fits (shape.later grown) (params.later grown) fits .nil
  · next keys sort _ =>
    refine (filterProject_fits shape params all .nil).bind fun more rows grown fits => ?_
    exact SortKey.sort_fits ((sorted keys (by simp [sort])).later grown) (params.later grown) fits
  · exact filterProject_fits shape params all .nil

end

end ReactiveQuery
