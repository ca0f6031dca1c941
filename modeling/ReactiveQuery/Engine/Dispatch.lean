import ReactiveQuery.Engine.Live

/-! Dispatch: each cycle delivers the waiting events, then runs the jobs that they marked.  Events
published meanwhile are for the next cycle. -/

namespace ReactiveQuery

variable (call : Caller) (dispatch : Act Unit) (perform : Command → Act Reply)

namespace Act

/-- Performs commands for a callback and logs what each gives, errors too. -/
def performAll (name : String) : List Command → Act Unit
  | [] => pure ()
  | c :: cs => do
    let reply := match ← attempt (perform c) with
      | .ok reply => reply
      | .error e => .failed e
    log (.did name reply)
    performAll name cs

/-- Performs commands for a job and logs what each gives, up to the first error. -/
def performJob (name : String) : List Command → Act Unit
  | [] => pure ()
  | c :: cs => do
    log (.did name (← perform c))
    performJob name cs

end Act

def Job.run : Job → Act Unit
  | .script name commands => do
    Act.log (.job name)
    Act.performJob perform name commands
  | .refresh result source d params => do
    if ← Act.isAlive result then
      Act.holding [.collection result] (Act.refresh call dispatch result source d params)

/-- Tells a listener of an event. -/
def Listener.hear (e : Event) : Listener → Act Unit
  | .script name members actions => do
    let concerned ← match members with
      | none => pure true
      | some r => do
        let alive ← Act.isAlive r
        pure (alive && (← get).heap.hasMember r e.target)
    if concerned then
      Act.log (.heard name e)
      Act.performAll perform name actions
  | .invalidate id route job => do
    if route.accepts e then
      Act.changeBus fun b => { b with scheduler := (b.scheduler.mark id job).2 }

namespace Act

/-- Tells listeners of an event one after the other. -/
def tell (e : Event) : List Listener → Act Unit
  | [] => pure ()
  | l :: ls => do
    holding ((l :: ls).flatMap Listener.values) (Listener.hear perform e l)
    tell e ls

/-- Delivers events; each reaches the listeners that are registered when its turn comes. -/
def deliver : List Event → Act Unit
  | [] => pure ()
  | e :: es => do
    settle
    let bus := (← get).bus
    tell perform e ((bus.registry.reached e.target e.key).filterMap (bus.listeners[·]?))
    deliver es

/-- Runs the jobs of the flush, at most so many. -/
def drain : Nat → Act Unit
  | 0 => do
    unless (← get).bus.scheduler.running.isEmpty do throw .endless
  | count + 1 => do
    match (← get).bus.scheduler.next? with
    | none => return
    | some (job, scheduler) =>
      changeBus ({ · with scheduler })
      match ← attempt (holding job.values (Job.run call dispatch perform job)) with
      | .ok () => drain count
      | .error e =>
        changeBus fun b => { b with scheduler := b.scheduler.abandon }
        raise e

/-- Runs the marked jobs in order; the first that fails ends the flush. -/
def flush : Act Unit := do
  changeBus fun b => { b with scheduler := b.scheduler.begin }
  drain call dispatch perform (← get).bus.scheduler.running.length

/-- Runs cycles until no event waits, at most so many. -/
def cycles : Nat → Act Unit
  | 0 => do
    let bus := (← get).bus
    unless bus.queue.isEmpty do raise (.cycleOverrun bus.ceiling)
  | count + 1 => do
    let queue := (← get).bus.queue
    unless queue.isEmpty do
      changeBus ({ · with queue := {} })
      holding (queue.events.flatMap Event.values) (deliver perform queue.events)
      flush call dispatch perform
      cycles count

/-- Dispatches the waiting events, unless a dispatch or a batch is under way.  After an error no
event and no job is left. -/
def dispatchIfIdle : Act Unit := do
  let bus := (← get).bus
  if bus.dispatching || bus.queue.isEmpty then return
  changeBus ({ · with dispatching := true })
  let result ← attempt (cycles call dispatch perform bus.ceiling)
  changeBus ({ · with dispatching := false })
  if let .error e := result then
    changeBus ({ · with queue := {}, scheduler := {} })
    raise e

end Act

end ReactiveQuery
