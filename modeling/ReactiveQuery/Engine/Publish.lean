import ReactiveQuery.Lifetime

/-! Publishing events: changes go to the sink of the value that changed. -/

namespace ReactiveQuery.Act

/-- Queues an event, unless it changes nothing or nobody listens. -/
def enqueue (e : Event) : Act Unit := do
  settle
  changeBus fun b =>
    if e.new.strictEq e.old || !b.registry.hasListeners e.target e.key then b
    else { b with queue := b.queue.enqueue e }

/-- Queues events one after the other. -/
def enqueueAll : List Event → Act Unit
  | [] => pure ()
  | e :: es => do
    holding ((e :: es).flatMap Event.values) (enqueue e)
    enqueueAll es

variable (dispatch : Act Unit)

/-- Queues events and dispatches them together. -/
def publishAll (events : List Event) : Act Unit := do
  enqueueAll events
  dispatch

/-- Reports changes to a sink.  A refusing sink takes the first change and fails. -/
def report (sink : Sink) (events : List Event) : Act Unit :=
  match sink, events with
  | .silent, _ => pure ()
  | .bus, events => publishAll dispatch events
  | .log, events => events.forM fun e => log (.reported e)
  | .refusing, [] => pure ()
  | .refusing, e :: _ => do
    log (.reported e)
    raise (.invalidOperation "sink refused")

/-- Runs an activity with dispatch held, then dispatches all that it published as one batch.
Inside another batch it just runs. -/
def batch {α : Type} (body : Act α) : Act α := do
  if (← get).bus.dispatching then body
  else
    changeBus ({ · with dispatching := true })
    let result ← attempt body
    changeBus ({ · with dispatching := false })
    dispatch
    ofExcept result

end ReactiveQuery.Act
