import ReactiveQuery.Proofs.Bus.Conduct

/-! What an engine does by itself is of every conduct: evaluating queries, writing records and
collections, and making live queries. -/

namespace ReactiveQuery

mutual
/-- The extension functions that an expression calls. -/
def Code.functions : Code → List Extension
  | .literal _ => []
  | .unary _ a => a.functions
  | .binary _ a b => a.functions ++ b.functions
  | .ternary a b c => a.functions ++ b.functions ++ c.functions
  | .path _ steps => Step.functionsOfAll steps
  | .object members => Code.functionsOfMembers members
  | .array items => Code.functionsOfAll items
  | .call function args => function :: Code.functionsOfAll args

def Code.functionsOfAll : List Code → List Extension
  | [] => []
  | c :: cs => c.functions ++ Code.functionsOfAll cs

def Code.functionsOfMembers : List (String × Code) → List Extension
  | [] => []
  | (_, c) :: cs => c.functions ++ Code.functionsOfMembers cs

def Step.functionsOfAll : List Step → List Extension
  | [] => []
  | .key _ :: steps => Step.functionsOfAll steps
  | .computed c :: steps => c.functions ++ Step.functionsOfAll steps
end

def SortKey.functions (key : SortKey) : List Extension := Step.functionsOfAll key.steps

def Definition.functions (d : Definition) : List Extension :=
  d.filter.functions ++ (d.select.map Code.functions).getD [] ++
    (d.sort.getD []).flatMap SortKey.functions

/-- Calls of some extension functions have a trait. -/
def Trait.Calls (T : Trait) (call : Caller) (functions : List Extension) : Prop :=
  ∀ e ∈ functions, ∀ ctx args, T.Has (call e ctx args)

namespace Trait.Calls

variable {T : Trait} {call : Caller} {fs gs : List Extension}

theorem left (calls : T.Calls call (fs ++ gs)) : T.Calls call fs :=
  fun e member => calls e (List.mem_append_left _ member)

theorem right (calls : T.Calls call (fs ++ gs)) : T.Calls call gs :=
  fun e member => calls e (List.mem_append_right _ member)

theorem nil : T.Calls call [] := nofun

end Trait.Calls

variable {T : Trait}

section
variable {call : Caller} (ctx : Context) (record : Value)

mutual
theorem Code.has_evaluate :
    ∀ c : Code, T.Calls call c.functions → T.Has (c.evaluate call ctx record)
  | .literal v, _ => by
    rw [Code.evaluate]
    exact .ret v
  | .unary op a, calls => by
    rw [Code.functions] at calls
    rw [Code.evaluate]
    exact .bind (a.has_evaluate calls) fun _ => .ask _
  | .binary op a b, calls => by
    rw [Code.functions] at calls
    have left := a.has_evaluate calls.left
    have right := b.has_evaluate calls.right
    cases op with
    | and =>
      rw [Code.evaluate]
      exact .bind left fun _ => .ite (.holding right) (.ret _)
    | or =>
      rw [Code.evaluate]
      exact .bind left fun _ => .ite (.ret _) (.holding right)
    | _ =>
      rw [Code.evaluate]
      · exact .bind left fun _ => .bind (.holding right) fun _ => .compile _
      · nofun
      · nofun
  | .ternary a b c, calls => by
    rw [Code.functions] at calls
    rw [Code.evaluate]
    exact .bind (a.has_evaluate calls.left.left) fun _ =>
      .ite (b.has_evaluate calls.left.right) (c.has_evaluate calls.right)
  | .path root steps, calls => by
    rw [Code.functions] at calls
    cases root <;> rw [Code.evaluate] <;> exact Step.has_walk _ steps calls
  | .object members, calls => by
    rw [Code.functions] at calls
    rw [Code.evaluate]
    exact .bind (Code.has_evaluateMembers _ members calls) fun _ =>
      .bind (.onHeap .freshTag) fun _ => .ret _
  | .array items, calls => by
    rw [Code.functions] at calls
    rw [Code.evaluate]
    exact .bind (Code.has_evaluateAll _ items calls) fun _ =>
      .bind (.onHeap .freshTag) fun _ => .ret _
  | .call function args, calls => by
    rw [Code.functions] at calls
    rw [Code.evaluate]
    have ⟨first, rest⟩ := List.forall_mem_cons.mp calls
    exact .bind (Code.has_evaluateAll _ args rest) fun _ => .holding (first _ _)

theorem Code.has_evaluateAll (done : List Value) : ∀ cs : List Code,
    T.Calls call (Code.functionsOfAll cs) → T.Has (Code.evaluateAll call ctx record done cs)
  | [], _ => by
    rw [Code.evaluateAll]
    exact .ret done
  | c :: cs, calls => by
    rw [Code.functionsOfAll] at calls
    rw [Code.evaluateAll]
    exact .bind (.holding (c.has_evaluate calls.left)) fun _ =>
      Code.has_evaluateAll _ cs calls.right

theorem Code.has_evaluateMembers (done : FieldMap Value) : ∀ cs : List (String × Code),
    T.Calls call (Code.functionsOfMembers cs) →
      T.Has (Code.evaluateMembers call ctx record done cs)
  | [], _ => by
    rw [Code.evaluateMembers]
    exact .ret done
  | (_, c) :: cs, calls => by
    rw [Code.functionsOfMembers] at calls
    rw [Code.evaluateMembers]
    exact .bind (.holding (c.has_evaluate calls.left)) fun _ =>
      Code.has_evaluateMembers _ cs calls.right

theorem Step.has_walk (current : Value) : ∀ steps : List Step,
    T.Calls call (Step.functionsOfAll steps) → T.Has (Step.walk call ctx record current steps)
  | [], _ => by
    rw [Step.walk]
    exact .ret current
  | .key k :: steps, calls => by
    rw [Step.functionsOfAll] at calls
    rw [Step.walk]
    refine .bind .world fun w => ?_
    split
    · exact .ret _
    · exact .bind (.ask _) fun _ => Step.has_walk _ steps calls
  | .computed c :: steps, calls => by
    rw [Step.functionsOfAll] at calls
    rw [Step.walk]
    refine .bind .world fun w => ?_
    split
    · exact .ret _
    · exact .bind (.holding (c.has_evaluate calls.left)) fun _ => .bind (.ask _) fun _ =>
        Step.has_walk _ steps calls.right
end

end

namespace Definition

variable {call : Caller} (ctx : Context) (d : Definition)

section
variable (calls : T.Calls call d.functions)
include calls

theorem has_accepts (item : Value) : T.Has (d.accepts call ctx item) :=
  .bind (Code.has_evaluate ctx item d.filter calls.left.left) fun _ => .ret _

theorem has_project (item : Value) : T.Has (d.project call ctx item) := by
  have selects := calls.left.right
  unfold project
  split
  · next c chosen =>
    rw [chosen] at selects
    exact Code.has_evaluate ctx item c selects
  · exact .ret item

theorem has_filterItems (items : List Value) : T.Has (d.filterItems call ctx items) := by
  induction items with
  | nil => exact .ret []
  | cons item items ih =>
    exact .bind (d.has_accepts ctx calls item) fun _ => .ite (.bind ih fun _ => .ret _) ih

theorem has_projectItems (items done : List Value) :
    T.Has (d.projectItems call ctx done items) := by
  induction items generalizing done with
  | nil => exact .ret done
  | cons item items ih => exact .bind (.holding (d.has_project ctx calls item)) fun _ => ih _

theorem has_filterProject (items done : List Value) :
    T.Has (d.filterProject call ctx done items) := by
  induction items generalizing done with
  | nil => exact .ret done
  | cons item items ih =>
    exact .bind (.holding (d.has_accepts ctx calls item)) fun _ =>
      .ite (.bind (.holding (d.has_project ctx calls item)) fun _ => ih _) (ih _)

end

end Definition

namespace SortKey

variable {call : Caller} (ctx : Context)

theorem has_extract (item : Value) (keys : List SortKey)
    (calls : T.Calls call (keys.flatMap functions)) (done : List Value) :
    T.Has (extract call ctx item done keys) := by
  induction keys generalizing done with
  | nil => exact .ret done
  | cons key keys ih =>
    rw [List.flatMap_cons] at calls
    have path : T.Calls call (Code.path key.root key.steps).functions := by
      rw [Code.functions]
      exact calls.left
    exact .bind (.holding (Code.has_evaluate ctx item _ path)) fun _ => ih calls.right _

section
variable {keys : List SortKey} (calls : T.Calls call (keys.flatMap functions))
include calls

theorem has_extractAll (items : List Value) (done : List (List Value × Value)) :
    T.Has (extractAll call ctx keys done items) := by
  induction items generalizing done with
  | nil => exact .ret done
  | cons item items ih =>
    exact .bind (.holding (has_extract ctx item keys calls [])) fun _ => ih _

theorem has_sort (items : List Value) : T.Has (sort call ctx keys items) :=
  .ite (.ret _) (.bind (.holding (has_extractAll ctx calls items [])) fun _ =>
    .bind (.ask _) fun _ => .ret _)

end

end SortKey

theorem Definition.has_execute {call : Caller} (ctx : Context) (d : Definition)
    (calls : T.Calls call d.functions) (items : List Value) :
    T.Has (d.execute call ctx items) := by
  have sorts := calls.right
  unfold execute
  split
  · next keys _ sorted _ _ =>
    rw [sorted] at sorts
    exact .bind (d.has_filterItems ctx calls items) fun _ =>
      .bind (SortKey.has_sort ctx sorts _) fun _ => d.has_projectItems ctx calls _ []
  · next keys sorted _ =>
    rw [sorted] at sorts
    exact .bind (d.has_filterProject ctx calls items []) fun _ => SortKey.has_sort ctx sorts _
  · exact d.has_filterProject ctx calls items []

namespace Act

theorem has_parse (text : String) : T.Has (parse text) := by
  have pools : ∀ change : ParserPool → ParserPool,
      T.Has (modify fun w => { w with parsers := change w.parsers }) := fun _ =>
    .modify fun _ => ⟨.refl _, rfl, rfl, rfl, rfl, rfl, rfl, rfl⟩
  have rest : ∀ result : Except Error (Query × List Path), T.Has (do
      modify fun w => { w with parsers := w.parsers.giveBack }
      ofExcept (result.mapError (.ofReading text))) :=
    fun _ => .bind (pools _) fun _ => .ofExcept _
  refine .bind (pools _) fun _ => .bind .world fun w => ?_
  dsimp only
  split
  · next draft _ =>
    exact .bind (.onHeap fun h => draft.extending_build [] ⟨h, []⟩) rest
  · exact .bind (.ret _) rest

theorem has_pathText (p : Path) : T.Has (pathText p) :=
  .bind (.ask _) fun _ => .bind (.ask _) fun _ => .ret _

variable {C : Conduct}

theorem has_definition (text : String) : C.Has (definition text) := by
  have caches : ∀ change : World → QueryCache,
      C.Has (modify fun w => { w with cache := change w }) := fun _ =>
    C.inert fun _ => ⟨⟨.refl _, rfl, rfl, rfl⟩, rfl⟩
  refine .bind .world fun w => ?_
  split
  · exact .bind (caches _) fun _ => .ret _
  · exact .bind (caches _) fun _ => .bind (has_parse text) fun _ => .bind (.compile _) fun _ =>
      .bind (caches _) fun _ => .ret _

theorem has_register (name : String) (action : ExtensionAction) : C.Has (register name action) :=
  C.inert fun _ => ⟨⟨.refl _, rfl, rfl, rfl⟩, rfl⟩

theorem has_isAlive (r : Ref) : T.Has (isAlive r) :=
  .bind .settle fun _ => .bind .world fun _ => .ret _

theorem has_newRecord (fields : FieldMap Value) : C.Has (newRecord fields) :=
  .bind C.nextId fun _ => .onHeap fun h => .allocate h _ rfl

theorem has_newCollection (items : List Value) : C.Has (newCollection items) :=
  .bind C.nextId fun _ => .onHeap fun h => .allocate h _ rfl

section
variable {dispatch : Act Unit} (may : C.dispatches dispatch)
include may

theorem has_report (sink : Sink) {events : List Event} (tells : ∀ e ∈ events, C.tells e) :
    C.Has (report dispatch sink events) := by
  unfold report
  split
  · exact .ret ()
  · exact C.publishAll may _ tells
  · exact .forM (fun _ => .log _ rfl) _
  · exact .ret ()
  · exact .bind (.log _ rfl) fun _ => .raise _

theorem has_setField (r : Ref) (key : String) (value : Value) :
    C.Has (r.setField dispatch key value) := by
  refine .bind .world fun w => ?_
  split
  · split
    · exact .raise _
    · exact .ite (.ret _) (.bind (C.setField r key value) fun _ =>
        has_report may _ (List.forall_mem_singleton.mpr (C.tells_field ..)))
  · exact .ret ()

theorem has_change (r : Ref) (f : ItemChange) : C.Has (r.change dispatch f) := by
  refine .bind .world fun w => ?_
  split
  · exact .bind (.ofExcept _) fun _ => .bind (C.setItems r _) fun _ =>
      .bind (.holding (has_report may _ (C.tells_change _ _ _))) fun _ => .ret _
  · exact .ret _

theorem has_sortItems (r : Ref) (ascending : Bool) : C.Has (r.sortItems dispatch ascending) :=
  .bind (.ask _) fun _ => .bind (has_change may r _) fun _ => .ret ()

theorem has_setAttr (key : String) (value : Value) (items : List Value) :
    C.Has (Ref.setAttr dispatch key value items) := by
  induction items with
  | nil => exact .ret ()
  | cons item rest ih =>
    cases item with
    | record r =>
      rw [Ref.setAttr]
      refine .bind .world fun w => ?_
      split
      · exact .bind (.holding (has_setField may r key value)) fun _ => ih
      · exact ih
    | _ => exact ih

variable {call : Caller}

theorem has_refresh (result source : Ref) (d : Definition) (params : List Value)
    (calls : C.Calls call d.functions) : C.Has (refresh call dispatch result source d params) :=
  .bind .world fun _ => .holding (.bind (d.has_execute _ calls _) fun _ =>
    .bind (has_change may result _) fun _ => .ret ())

variable (calls : ∀ e ctx args, C.Has (call e ctx args))
include calls

omit may in
theorem has_query (source : Ref) (text : String) (params : List Value) :
    C.Has (query call source text params) :=
  .bind (has_definition text) fun d => .bind .world fun _ =>
    .bind (.holding (d.has_execute _ (fun e _ => calls e) _)) fun _ => has_newCollection _

theorem has_live (source : Ref) (text : String) (params : List Value) :
    C.Has (live call dispatch source text params) :=
  .bind (has_definition text) fun d => C.attach source d params fun r =>
    C.batch may (has_refresh may r source d params fun e _ => calls e)

end

end Act

end ReactiveQuery
