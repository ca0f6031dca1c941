import ReactiveQuery.Proofs.Bus.Made

/-! Extension functions, callbacks, jobs and commands are of every conduct that allows them, and so
are dispatches where the bus may be opened, emptied and closed. -/

namespace ReactiveQuery

/-- A conduct of those who dispatch: they tell of events, run jobs, and open and close the bus. -/
structure Conduct.Delivers (C : Conduct) : Prop where
  scheduler : C.scope.scheduler
  all : ∀ c, C.scope.commands c
  heard : ∀ name e, C.Has (Act.log (.heard name e))
  flag : ∀ busy, C.Has (Act.changeBus ({ · with dispatching := busy }))
  taken : C.Has (Act.changeBus ({ · with queue := {} }))
  emptied : C.Has (Act.changeBus ({ · with queue := {}, scheduler := {} }))

/-- A trait of those who register: listeners, handles on them, and collections that hold on to
registrations. -/
structure Trait.Registers (T : Trait) : Prop where
  addListener : ∀ l, T.Has (Act.addListener l)
  subscribe : ∀ s, T.Has (Act.subscribe s)
  unsubscribe : ∀ s, T.Has (Act.unsubscribe s)
  changeDesk : ∀ change, T.Has (Act.changeDesk change)
  retain : ∀ (r : Ref) retained, T.Has (r.retain retained)

variable {C : Conduct}

namespace Extension

/-- Functions that only look and tell. -/
theorem has_invoke_of_reads {T : Trait} {call : Caller} {dispatch : Act Unit} {e : Extension}
    (reads : e.action ∈ [.id, .args, .tick, .ctx, .fail]) (ctx : Context) (args : List Value) :
    T.Has (e.invoke call dispatch ctx args) := by
  obtain ⟨serial, action⟩ := e
  cases action with
  | id => exact .bind (.log _ rfl) fun _ => .ret _
  | args => exact .bind (.log _ rfl) fun _ => .bind (.onHeap .freshTag) fun _ => .ret _
  | tick =>
    exact .bind (.log _ rfl) fun _ => .bind
      (.modifyGet fun _ => ⟨.refl _, rfl, rfl, rfl, rfl, rfl, rfl, rfl⟩) fun _ => .ret _
  | ctx =>
    exact .bind (.log _ rfl) fun _ => .bind (.bind (.onHeap .freshTag) fun _ => .ret _) fun _ =>
      .bind (.onHeap .freshTag) fun _ => .ret _
  | fail => exact .bind (.log _ rfl) fun _ => .bind (.ask _) fun _ => .raise _
  | _ => simp at reads

section
variable {dispatch : Act Unit} (may : C.dispatches dispatch)
include may

theorem has_bump (target field : Value) : C.Has (bump dispatch target field) := by
  unfold bump
  split
  · exact .bind (.ask _) fun _ => .bind (.ask _) fun _ =>
      .bind (Act.has_setField may _ _ _) fun _ => .ret _
  · exact .ret _

theorem has_set (target field value : Value) : C.Has (set dispatch target field value) := by
  unfold set
  split
  · exact .bind (.ask _) fun _ => .bind (Act.has_setField may _ _ _) fun _ => .ret _
  · exact .ret _

theorem has_push (target value : Value) : C.Has (push dispatch target value) := by
  unfold push
  split
  · exact .bind (Act.has_change may _ _) fun _ => .bind .world fun _ => .ret _
  · exact .ret _

end

variable {call : Caller} (calls : ∀ e ctx args, C.Has (call e ctx args))
include calls

theorem has_select (ctx : Context) (args : List Value) :
    C.Has (select call ctx args) := by
  unfold select
  split
  · exact .bind (.ret _) fun _ => .bind (Act.has_query calls _ _ _) fun _ => .ret _
  · exact .bind (.ask _) fun _ => .bind (Act.has_query calls _ _ _) fun _ => .ret _

theorem has_invoke {dispatch : Act Unit} (may : C.dispatches dispatch) (e : Extension)
    (ctx : Context) (args : List Value) : C.Has (e.invoke call dispatch ctx args) := by
  obtain ⟨serial, action⟩ := e
  cases action with
  | id | args | tick | ctx | fail => exact has_invoke_of_reads (by simp) ctx args
  | bump => exact .bind (.log _ rfl) fun _ => has_bump may _ _
  | set => exact .bind (.log _ rfl) fun _ => has_set may _ _ _
  | push => exact .bind (.log _ rfl) fun _ => has_push may _ _
  | select => exact has_select calls ctx args

end Extension

namespace Act

theorem has_setScheduler (may : C.scope.scheduler) (change : Bus → Scheduler Job) :
    C.Has (changeBus fun b => { b with scheduler := change b }) :=
  C.reschedule may fun b => ((), change b)

section
variable {T : Trait} {K : Command → Prop} {perform : Command → Act Reply}
  (performs : ∀ c, K c → T.Has (perform c))
include performs

theorem has_performAll (name : String) (cs : List Command) (allowed : ∀ c ∈ cs, K c) :
    T.Has (performAll perform name cs) := by
  induction cs with
  | nil => exact .ret ()
  | cons c cs ih =>
    have ⟨first, rest⟩ := List.forall_mem_cons.mp allowed
    have logs : ∀ reply, T.Has (do log (.did name reply); performAll perform name cs) :=
      fun _ => .bind (.log _ rfl) fun _ => ih rest
    refine .bind (.attempt (performs c first)) fun result => ?_
    cases result with
    | ok reply => exact logs reply
    | error e => exact logs (.failed e)

theorem has_performJob (name : String) (cs : List Command) (allowed : ∀ c ∈ cs, K c) :
    T.Has (performJob perform name cs) := by
  induction cs with
  | nil => exact .ret ()
  | cons c cs ih =>
    have ⟨first, rest⟩ := List.forall_mem_cons.mp allowed
    exact .bind (performs c first) fun _ => .bind (.log _ rfl) fun _ => ih rest

/-- A callback. -/
theorem has_hear_script (hears : ∀ name e, T.Has (log (.heard name e))) (e : Event) (name : String)
    (members : Option Ref) {actions : List Command} (allowed : ∀ c ∈ actions, K c) :
    T.Has (Listener.hear perform e (.script name members actions)) := by
  have concerns : ∀ concerned : Bool, T.Has (do
      if concerned then
        log (.heard name e)
        performAll perform name actions) := fun _ =>
    .ite (.bind (hears name e) fun _ => has_performAll performs name actions allowed) (.ret _)
  unfold Listener.hear
  cases members with
  | none => exact .bind (.ret _) concerns
  | some r =>
    exact .bind (has_isAlive r) fun _ => .bind .world fun _ => .bind (.ret _) concerns

end

section
variable {T : Trait} {S : Scope} {perform : Command → Act Reply}
  (performs : ∀ c, S.commands c → T.Has (perform c))
  (marks : ∀ change : Bus → Scheduler Job,
    T.Has (changeBus fun b => { b with scheduler := change b }))
  (logs : ∀ name e, T.Has (log (.heard name e)))
include performs marks logs

theorem has_hear (e : Event) {l : Listener} (hears : S.Hears l) : T.Has (l.hear perform e) := by
  cases l with
  | script name members actions => exact has_hear_script performs logs e name members hears
  | invalidate id route job => exact .ite (marks _) (.ret _)

theorem has_tell (e : Event) {ls : List Listener} (hear : ∀ l ∈ ls, S.Hears l) :
    T.Has (tell perform e ls) := by
  induction ls with
  | nil => exact .ret ()
  | cons l ls ih =>
    obtain ⟨first, others⟩ := List.forall_mem_cons.mp hear
    exact .bind (.holding (has_hear performs marks logs e first)) fun _ => ih others

end

variable {again : Reentry} (allows : C.Allows again)
include allows

theorem has_run {job : Job} (admits : C.scope.Admits job) :
    C.Has (job.run again.call again.dispatch again.perform) := by
  cases job with
  | script name commands =>
    exact .bind (.log _ rfl) fun _ => has_performJob allows.perform name commands admits
  | refresh result source d params =>
    exact .bind (has_isAlive result) fun _ =>
      .ite (.holding (has_refresh allows.dispatch result source d params fun e _ => allows.call e))
        (.ret _)

theorem has_drain (scheduler : C.scope.scheduler) (all : ∀ c, C.scope.commands c) (count : Nat) :
    C.Has (drain again.call again.dispatch again.perform count) := by
  induction count with
  | zero => exact .bind .world fun _ => .ite (.ret _) (.fault _)
  | succ count ih =>
    refine .bind .world fun w => ?_
    split
    · exact .ret _
    · next job rest taken =>
      have admits : C.scope.Admits job := by
        cases job with
        | script _ commands => exact fun c _ => all c
        | refresh => trivial
      refine .bind (has_setScheduler scheduler fun _ => rest) fun _ =>
        .bind (.attempt (.holding (has_run allows admits))) fun result => ?_
      cases result with
      | ok _ => exact ih
      | error e =>
        exact .bind (has_setScheduler scheduler fun b => b.scheduler.abandon) fun _ => .raise _

theorem has_flush (scheduler : C.scope.scheduler) (all : ∀ c, C.scope.commands c) :
    C.Has (flush again.call again.dispatch again.perform) :=
  .bind (has_setScheduler scheduler _) fun _ =>
    .bind .world fun _ => has_drain allows scheduler all _

section
variable (delivers : C.Delivers)
include delivers

theorem has_deliver (es : List Event) : C.Has (deliver again.perform es) := by
  induction es with
  | nil => exact .ret ()
  | cons e es ih =>
    have hear : ∀ l, C.scope.Hears l := fun l => by
      rcases l with _ | ⟨_, _, _ | _⟩
      · exact fun c _ => delivers.all c
      · exact fun c _ => delivers.all c
      · trivial
    exact .bind .settle fun _ => .bind .world fun _ => .bind
      (has_tell allows.perform (has_setScheduler delivers.scheduler) delivers.heard e
        fun l _ => hear l) fun _ => ih

theorem has_cycles (count : Nat) :
    C.Has (cycles again.call again.dispatch again.perform count) := by
  induction count with
  | zero => exact .bind .world fun _ => .ite (.ret _) (.raise _)
  | succ count ih =>
    exact .bind .world fun _ => .ite (.ret _) (.bind delivers.taken fun _ =>
      .bind (.holding (has_deliver allows delivers _)) fun _ =>
        .bind (has_flush allows delivers.scheduler delivers.all) fun _ => ih)

theorem has_dispatchIfIdle : C.Has (dispatchIfIdle again.call again.dispatch again.perform) := by
  refine .bind .world fun w => .ite (.ret _) (.bind (delivers.flag true) fun _ =>
    .bind (.attempt (has_cycles allows delivers _)) fun result =>
      .bind (delivers.flag false) fun _ => ?_)
  cases result with
  | ok _ => exact .ret _
  | error e => exact .bind delivers.emptied fun _ => .raise e

end

end Act

namespace Act

section
variable {T : Trait}

theorem has_named (name : String) : T.Has (named name) := .bind .world fun _ => .ret _

theorem has_read (t : Term) : T.Has (read t) := .bind .world fun _ => .onHeap (t.extends_read _)

theorem has_readAll (ts : List Term) : T.Has (readAll ts) := .mapM has_read ts

theorem has_readFields (pairs : List (String × Term)) : T.Has (readFields pairs) :=
  .bind (.mapM (fun _ => .bind (has_read _) fun _ => .ret _) pairs) fun _ => .ret _

theorem has_targetId? (target : Target) : T.Has (targetId? target) := by
  cases target with
  | named name => exact .bind (has_named name) fun _ => .ret _
  | _ => exact .ret _

theorem has_readEvent (e : EventDraft) : T.Has (readEvent e) :=
  .bind (has_targetId? _) fun _ => .bind (has_read _) fun _ => .bind (has_read _) fun _ =>
    .ret _

section
variable (registers : T.Registers)
include registers

theorem has_subscribeAll (listener : Dependency → Nat) (ds : List Dependency) :
    T.Has (subscribeAll listener ds) := by
  induction ds with
  | nil => exact .ret []
  | cons d ds ih =>
    refine .bind (registers.subscribe _) fun new => ?_
    split
    · exact .bind ih fun _ => .ret _
    · exact ih

theorem has_attach (result source : Ref) (d : Definition) (params : List Value) :
    T.Has (attach result source d params) :=
  .bind (.ask _) fun _ => .bind (registers.addListener _) fun _ =>
    .bind (registers.addListener _) fun _ => .bind (registers.addListener _) fun _ =>
      .bind (has_subscribeAll registers _ _) fun _ => registers.retain _ _

theorem has_listenerNamed (name : String) (actions : List Command) :
    T.Has (listenerNamed name actions) := by
  refine .bind .world fun w => ?_
  split
  · exact .ret _
  · exact .bind (registers.addListener _) fun _ => .bind (registers.changeDesk _) fun _ => .ret _

theorem has_listen (handle collection : String) (key : EventKey) (actions : List Command) :
    T.Has (listen handle collection key actions) := by
  refine .bind (has_named collection) fun v => ?_
  split
  · exact .bind (registers.addListener _) fun _ => .bind (registers.subscribe _) fun _ =>
      .bind (registers.changeDesk _) fun _ => .ret _
  · exact .ret _

theorem has_unlisten (again : Reentry) (handle : String) :
    T.Has ((Command.unlisten handle).perform again) := by
  rw [Command.perform]
  refine .bind .world fun w => ?_
  split
  · exact .bind (registers.unsubscribe _) fun _ => .ret _
  · exact .ret _

theorem has_subscribe (again : Reentry) (listener : String) (target : Target)
    (key : Option EventKey) (actions : List Command) :
    T.Has ((Command.subscribe listener target key actions).perform again) := by
  rw [Command.perform]
  exact .bind (has_listenerNamed registers _ _) fun _ => .bind (has_targetId? target) fun _ =>
    .bind (registers.subscribe _) fun _ => .ret _

theorem has_unsubscribe (again : Reentry) (listener : String) (target : Target)
    (key : Option EventKey) :
    T.Has ((Command.unsubscribe listener target key).perform again) := by
  rw [Command.perform]
  exact .bind (has_listenerNamed registers _ _) fun _ => .bind (has_targetId? target) fun _ =>
    .bind (registers.unsubscribe _) fun _ => .ret _

end

end

/-- Names may be bound; the desk's handles and listeners stay. -/
theorem has_changeDesk {change : Desk → Desk} (handles : ∀ d, (change d).handles = d.handles)
    (listeners : ∀ d, (change d).listeners = d.listeners) : C.Has (changeDesk change) :=
  C.inert fun w => ⟨⟨.refl _, rfl, handles w.desk, listeners w.desk⟩, rfl⟩

theorem has_overSource (source : String) (params : List Term) {run : Ref → List Value → Act Ref}
    (runs : ∀ r params, C.Has (run r params)) : C.Has (overSource source params run) := by
  refine .bind (has_named source) fun v => ?_
  split
  · exact .bind (has_readAll params) fun _ => .bind (.holding (runs _ _)) fun _ => .ret _
  · exact .ret _

end Act

section
variable {dispatch : Act Unit} (may : C.dispatches dispatch) (r : Ref)
include may

theorem RecordCommand.has_perform (c : RecordCommand) :
    C.Has (c.perform dispatch r) := by
  cases c with
  | write key t =>
    exact .bind (Act.has_read t) fun _ =>
      .bind (.holding (Act.has_setField may r key _)) fun _ => .ret _
  | snapshot =>
    exact .bind .world fun _ => .bind (.bind (.onHeap .freshTag) fun _ => .ret _) fun _ => .ret _
  | _ => exact .bind .world fun _ => .ret _

theorem CollectionCommand.has_perform (c : CollectionCommand) :
    C.Has (c.perform dispatch r) := by
  have changes : ∀ f : ItemChange, C.Has (perform.change dispatch r f) :=
    fun f => .bind (Act.has_change may r f) fun _ => .ret _
  have takes : ∀ f : ItemChange, C.Has (perform.taken dispatch r f) :=
    fun f => .bind (Act.has_change may r f) fun _ => .ret _
  cases c with
  | push | unshift | insert | setItem => exact .bind (Act.has_read _) fun _ => changes _
  | replaceAll items => exact .bind (Act.has_readAll items) fun _ => changes _
  | pop | shift | remove => exact takes _
  | reverse => exact changes _
  | sortBy ascending => exact .bind (Act.has_sortItems may r ascending) fun _ => .ret _
  | setAttr key t =>
    exact .bind (Act.has_read t) fun _ => .bind .world fun _ =>
      .bind (Act.has_setAttr may key _ _) fun _ => .ret _
  | attr | item | length => exact .bind .world fun _ => .ret _
  | containsObject target =>
    refine .bind (Act.has_targetId? target) fun id => ?_
    split
    · exact .bind .world fun _ => .ret _
    · exact .ret _
  | retain t => exact .bind (Act.has_read t) fun _ => .bind (C.keep r _) fun _ => .ret _
  | weaken name => exact .bind (Act.has_changeDesk (fun _ => rfl) fun _ => rfl) fun _ => .ret _

end

section
set_option linter.unusedSectionVars false
variable {again : Reentry} (closed : C.scope.Closed) (allows : C.Allows again)
include closed allows

mutual
/-- Whatever a command does that is allowed, a program does. -/
theorem Command.has_perform : ∀ c : Command, C.scope.commands c → C.Has (c.perform again)
  | .bind name inner, allowed => by
    rw [Command.perform]
    refine .bind (Command.has_perform inner (closed.bind allowed)) fun reply => ?_
    split
    · exact .bind (Act.has_changeDesk (fun _ => rfl) fun _ => rfl) fun _ => .ret _
    · exact .ret _
  | .value t, _ => by
    rw [Command.perform]
    exact .bind (Act.has_read t) fun _ => .ret _
  | .newRecord fields placement, _ => by
    rw [Command.perform]
    refine .bind (Act.has_readFields fields) fun _ => ?_
    split
    · exact .bind (Act.has_newRecord _) fun _ => .ret _
    · exact .bind (.onHeap fun h => .allocate h _ rfl) fun _ => .ret _
  | .newCollection items placement, _ => by
    rw [Command.perform]
    refine .bind (Act.has_readAll items) fun _ => ?_
    split
    · exact .bind (Act.has_newCollection _) fun _ => .ret _
    · exact .bind (.onHeap fun h => .allocate h _ rfl) fun _ => .ret _
  | .drop name, _ => by
    rw [Command.perform]
    exact .bind .world fun _ =>
      .bind (Act.has_changeDesk (fun _ => rfl) fun _ => rfl) fun _ => .ret _
  | .upgrade name, _ => by
    rw [Command.perform]
    refine .bind .world fun w => ?_
    split
    · exact .ret _
    · exact .bind (Act.has_isAlive _) fun _ => .ret _
  | .onRecord name command, _ => by
    rw [Command.perform]
    refine .bind (Act.has_named name) fun v => ?_
    split
    · exact .holding (command.has_perform allows.dispatch _)
    · exact .ret _
  | .onCollection name command, _ => by
    rw [Command.perform]
    refine .bind (Act.has_named name) fun v => ?_
    split
    · exact .holding (command.has_perform allows.dispatch _)
    · exact .ret _
  | .query source text params, _ => by
    rw [Command.perform]
    exact Act.has_overSource source params fun _ _ => Act.has_query allows.call _ _ _
  | .live source text params, _ => by
    rw [Command.perform]
    exact Act.has_overSource source params fun _ _ => Act.has_live allows.dispatch allows.call _ _ _
  | .liveOver items text params, _ => by
    rw [Command.perform]
    exact .bind (Act.has_readAll items) fun _ => .bind (Act.has_readAll params) fun _ =>
      .bind (Act.has_newCollection _) fun _ =>
        .bind (.holding (Act.has_live allows.dispatch allows.call _ _ _)) fun _ => .ret _
  | .definition text, _ => by
    rw [Command.perform]
    exact .bind (Act.has_definition text) fun _ =>
      .bind (.mapM Act.has_pathText _) fun _ => .ret _
  | .register name action, _ => by
    rw [Command.perform]
    exact .bind (Act.has_register name action) fun _ => .ret _
  | .registerAll extensions, _ => by
    rw [Command.perform]
    exact .bind (.forM (fun _ => .bind (Act.has_register _ _) fun _ => .ret _) extensions)
      fun _ => .ret _
  | .hasExtension name, _ => by
    rw [Command.perform]
    exact .bind .world fun _ => .ret _
  | .stats, _ => by
    rw [Command.perform]
    exact .bind (.bind .settle fun _ => .bind .world fun _ => .ret _) fun _ => .ret _
  | .config, _ => by
    rw [Command.perform]
    exact .bind .world fun _ => .ret _
  | .listen handle collection key actions, allowed => by
    rw [Command.perform]
    exact C.listen (closed.listen allowed) handle collection key
  | .unlisten handle, _ => C.unlisten again handle
  | .batch commands, allowed => by
    rw [Command.perform]
    exact .bind (C.batch allows.dispatch (Command.has_performAll commands (closed.batch allowed)))
      fun _ => .ret _
  | .subscribe listener target key actions, allowed =>
    C.subscribe (closed.subscribe allowed) again listener target key
  | .unsubscribe listener target key, _ => C.unsubscribe again listener target key
  | .publish event, allowed => by
    rw [Command.perform]
    exact .bind (Act.has_readEvent event) fun _ => .bind (C.publishAll allows.dispatch _ fun e _ =>
      C.tells_publish allowed e) fun _ => .ret _
  | .publishAll events, allowed => by
    rw [Command.perform]
    exact .bind (.mapM Act.has_readEvent events) fun _ => .bind (C.publishAll allows.dispatch _
      fun e _ => C.tells_publishAll allowed e) fun _ => .ret _
  | .hasListeners target key, _ => by
    rw [Command.perform]
    exact .bind .settle fun _ => .bind (Act.has_targetId? target) fun _ =>
      .bind .world fun _ => .ret _
  | .bus, _ => by
    rw [Command.perform]
    exact .bind .settle fun _ => .bind .world fun _ => .ret _
  | .nextId, _ => by
    rw [Command.perform]
    exact .bind C.nextId fun _ => .ret _
  | .mark id name job, allowed => by
    rw [Command.perform]
    exact .bind (C.reschedule (closed.mark allowed) fun b => b.scheduler.mark id (.script name job))
      fun _ => .ret _
  | .flush, allowed => by
    rw [Command.perform]
    have scheduler := closed.flush allowed
    exact .bind (Act.has_flush allows scheduler (closed.all scheduler)) fun _ => .ret _
  | .clear, allowed => by
    rw [Command.perform]
    exact .bind (Act.has_setScheduler (closed.clear allowed) fun _ => {}) fun _ => .ret _
  | .dirty ids, _ => by
    rw [Command.perform]
    exact .bind .world fun _ => .ret _
  | .fail error, _ => by
    rw [Command.perform]
    exact .raise error

theorem Command.has_performAll :
    ∀ cs : List Command, (∀ c ∈ cs, C.scope.commands c) → C.Has (Command.performAll again cs)
  | [], _ => by
    rw [Command.performAll]
    exact .ret []
  | c :: cs, allowed => by
    rw [Command.performAll]
    have ⟨first, rest⟩ := List.forall_mem_cons.mp allowed
    refine .bind (.attempt (Command.has_perform c first)) fun result => ?_
    cases result with
    | ok _ => exact .bind (Command.has_performAll cs rest) fun _ => .ret _
    | error _ => exact .bind (Command.has_performAll cs rest) fun _ => .ret _
end

end

end ReactiveQuery
