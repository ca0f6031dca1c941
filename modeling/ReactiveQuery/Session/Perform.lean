import ReactiveQuery.Engine.Dispatch
import ReactiveQuery.Engine.Function

/-! Performing commands. -/

namespace ReactiveQuery

namespace Reply

def null : Reply := .value .null

def bool (b : Bool) : Reply := .value (.bool b)

def text (s : String) : Reply := .value (.text s)

end Reply

namespace Act

/-- The value bound to a name. -/
def named (name : String) : Act Value := do
  return (FieldMap.get? name (← get).desk.names).getD .null

def read (t : Term) : Act Value := do
  let names := (← get).desk.names
  onHeap (t.read names)

def readAll (ts : List Term) : Act (List Value) := ts.mapM read

def readFields (pairs : List (String × Term)) : Act (FieldMap Value) := do
  let pairs ← pairs.mapM fun (k, t) => do return (k, ← read t)
  return FieldMap.ofPairs pairs

def changeDesk (change : Desk → Desk) : Act Unit :=
  modify fun w => { w with desk := change w.desk }

def bindName (name : String) (v : Value) : Act Unit :=
  changeDesk fun d => { d with names := FieldMap.insert name v d.names }

/-- The identity that a target names. -/
def targetId? : Target → Act (Option Nat)
  | .all => pure none
  | .id n => pure (some n)
  | .named name => do return (← named name).id?

def readEvent (e : EventDraft) : Act Event := do
  let target := (← targetId? e.target).getD 0
  return ⟨target, e.key, ← read e.new, ← read e.old⟩

/-- The listener of a name, made on first use. -/
def listenerNamed (name : String) (actions : List Command) : Act Nat := do
  match FieldMap.get? name (← get).desk.listeners with
  | some l => return l
  | none =>
    let l ← addListener (.script name none actions)
    changeDesk fun d => { d with listeners := FieldMap.insert name l d.listeners }
    return l

def stats : Act Stats := do
  settle
  let w ← get
  return {
    cachedQueries := w.cache.entries.length
    cacheHits := w.cache.hits
    cacheMisses := w.cache.misses
    idleParsers := w.parsers.idle
    cachedPatterns := w.patterns.size
    listeners := w.bus.registry.size
    pendingRefreshes := w.bus.scheduler.marked.length }

end Act

section
variable (dispatch : Act Unit)

def RecordCommand.perform (r : Ref) : RecordCommand → Act Reply
  | .write key t => do
    let v ← Act.read t
    Act.holding [v] (r.setField dispatch key v)
    return .null
  | .read key => do
    return .value ((FieldMap.get? key ((← get).heap.fields r)).getD .null)
  | .hasField key => do return .bool (FieldMap.contains key ((← get).heap.fields r))
  | .fieldNames => do
    return .list ((FieldMap.keys ((← get).heap.fields r)).map .text)
  | .snapshot => do return .value (← Act.freshObject ((← get).heap.fields r))

def CollectionCommand.perform (r : Ref) : CollectionCommand → Act Reply
  | .push t => do change (.push (← Act.read t))
  | .unshift t => do change (.unshift (← Act.read t))
  | .insert index t => do change (.insert index (← Act.read t))
  | .pop => taken .pop
  | .shift => taken .shift
  | .remove index => taken (.remove index)
  | .reverse => change .reverse
  | .sortBy ascending => do
    r.sortItems dispatch ascending
    return .null
  | .setItem index t => do change (.setItem index (← Act.read t))
  | .replaceAll items => do change (.replaceAll (← Act.readAll items))
  | .setAttr key t => do
    let v ← Act.read t
    Ref.setAttr dispatch key v ((← get).heap.items r)
    return .null
  | .attr key => do return .value ((← get).heap.attr r key)
  | .item index => do return .value (((← get).heap.items r)[index]?.getD .null)
  | .length => do
    let n := ((← get).heap.items r).length
    return .list [.count n, .bool (n == 0)]
  | .containsObject target => do
    match ← Act.targetId? target with
    | some id => return .bool ((← get).heap.hasMember r id)
    | none => return .bool false
  | .retain t => do
    r.retain { values := [← Act.read t] }
    return .null
  | .weaken name => do
    Act.changeDesk fun d => { d with weak := FieldMap.insert name r d.weak }
    return .null
where
  change (f : ItemChange) : Act Reply := do
    let _ ← r.change dispatch f
    return .null
  taken (f : ItemChange) : Act Reply := do
    return .value ((← r.change dispatch f).head?.getD .null)

end

/-- What a running activity may start again inside itself. -/
structure Reentry where
  call : Caller
  dispatch : Act Unit
  perform : Command → Act Reply

variable (again : Reentry)

namespace Act

/-- Performs a query command on a source, which it holds along with the parameters. -/
def overSource (source : String) (params : List Term) (run : Ref → List Value → Act Ref) :
    Act Reply := do
  match ← named source with
  | .collection r =>
    let params ← readAll params
    return .value (.collection (← holding (.collection r :: params) (run r params)))
  | _ => return .null

/-- Registers a callback on a collection.  Field events count for the members of the collection
at the time of delivery. -/
def listen (handle collection : String) (key : EventKey) (actions : List Command) :
    Act Reply := do
  match ← named collection with
  | .collection r =>
    let (target, members) := match key with
      | .field _ => (none, some r)
      | _ => (some r.id, none)
    let l ← addListener (.script handle members actions)
    let topic : Topic := ⟨target, some key⟩
    let _ ← subscribe ⟨topic, l⟩
    changeDesk fun d => { d with handles := FieldMap.insert handle ⟨topic, l⟩ d.handles }
    return .text key.text
  | _ => return .null

end Act

mutual
def Command.perform : Command → Act Reply
  | .bind name inner => do
    let reply ← inner.perform
    if let .value v := reply then Act.bindName name v
    return reply
  | .value t => do return .value (← Act.read t)
  | .newRecord fields placement => do
    let fields ← Act.readFields fields
    match placement with
    | none => return .value (.record (← Act.newRecord fields))
    | some p =>
      let cell := Cell.record { id := p.id, fields, sink := p.sink }
      return .value (.record (← Act.onHeap (·.allocate p.id cell)))
  | .newCollection items placement => do
    let items ← Act.readAll items
    match placement with
    | none => return .value (.collection (← Act.newCollection items))
    | some p =>
      let cell := Cell.collection { id := p.id, items, sink := p.sink }
      return .value (.collection (← Act.onHeap (·.allocate p.id cell)))
  | .drop name => do
    let bound := FieldMap.contains name (← get).desk.names
    Act.changeDesk fun d => { d with names := FieldMap.erase name d.names }
    return .bool bound
  | .upgrade name => do
    match FieldMap.get? name (← get).desk.weak with
    | none => return .null
    | some r => return .value (if ← Act.isAlive r then .collection r else .null)
  | .onRecord name command => do
    match ← Act.named name with
    | .record r => Act.holding [.record r] (command.perform again.dispatch r)
    | _ => return .null
  | .onCollection name command => do
    match ← Act.named name with
    | .collection r => Act.holding [.collection r] (command.perform again.dispatch r)
    | _ => return .null
  | .query source text params =>
    Act.overSource source params fun r params => Act.query again.call r text params
  | .live source text params =>
    Act.overSource source params fun r params => Act.live again.call again.dispatch r text params
  | .liveOver items text params => do
    let items ← Act.readAll items
    let params ← Act.readAll params
    let source ← Act.newCollection items
    let result ← Act.holding (.collection source :: params)
      (Act.live again.call again.dispatch source text params)
    return .value (.collection result)
  | .definition text => do
    let d ← Act.definition text
    return .definition d (← d.paths.mapM Act.pathText)
  | .register name action => do return .bool (← Act.register name action)
  | .registerAll extensions => do
    extensions.forM fun (name, action) => do let _ ← Act.register name action
    return .null
  | .hasExtension name => do return .bool (((← get).extensions.find? name).isSome)
  | .stats => do return .stats (← Act.stats)
  | .config => do
    let w ← get
    return .list [.count w.bus.ceiling, .count w.parsers.capacity, .count w.bus.ceiling]
  | .listen handle collection key actions => Act.listen handle collection key actions
  | .unlisten handle => do
    match FieldMap.get? handle (← get).desk.handles with
    | some h => return .bool (← Act.unsubscribe ⟨h.topic, h.listener⟩)
    | none => return .bool false
  | .batch commands => do return .list (← Act.batch again.dispatch (Command.performAll commands))
  | .subscribe listener target key actions => do
    let l ← Act.listenerNamed listener actions
    return .bool (← Act.subscribe ⟨⟨← Act.targetId? target, key⟩, l⟩)
  | .unsubscribe listener target key => do
    let l ← Act.listenerNamed listener []
    return .bool (← Act.unsubscribe ⟨⟨← Act.targetId? target, key⟩, l⟩)
  | .publish event => do
    Act.publishAll again.dispatch [← Act.readEvent event]
    return .null
  | .publishAll events => do
    Act.publishAll again.dispatch (← events.mapM Act.readEvent)
    return .null
  | .hasListeners target key => do
    Act.settle
    let target := (← Act.targetId? target).getD 0
    return .bool ((← get).bus.registry.hasListeners target key)
  | .bus => do
    Act.settle
    let b := (← get).bus
    return .list [.bool b.dispatching, .count b.queue.size, .count b.registry.size]
  | .nextId => do return .count (← Act.nextId)
  | .mark id name job => do
    return .bool (← Act.onBus fun b =>
      let (accepted, scheduler) := b.scheduler.mark id (.script name job)
      (accepted, { b with scheduler }))
  | .flush => do
    Act.flush again.call again.dispatch again.perform
    return .null
  | .clear => do
    Act.changeBus ({ · with scheduler := {} })
    return .null
  | .dirty ids => do
    let s := (← get).bus.scheduler
    return .list [.count s.marked.length, .list (ids.map fun id => .bool (s.isDirty id))]
  | .fail error => Act.raise error

/-- Performs commands one after the other, whatever fails. -/
def Command.performAll : List Command → Act (List Reply)
  | [] => pure []
  | c :: cs => do
    let reply := match ← Act.attempt c.perform with
      | .ok reply => reply
      | .error e => .failed e
    return reply :: (← Command.performAll cs)
end

namespace Reentry

/-- Activities that may start one another to a depth.  Going deeper never ends. -/
def within : Nat → Reentry
  | 0 => ⟨fun _ _ _ => throw .endless, throw .endless, fun _ => throw .endless⟩
  | depth + 1 => {
    call := fun e ctx args =>
      e.invoke (within depth).call (within depth).dispatch ctx args
    dispatch := fun w =>
      Act.dispatchIfIdle (within depth).call (within depth).dispatch (within depth).perform w
    perform := fun c => c.perform (within depth) }

/-- More than any activity that ends goes down. -/
def deepest : Reentry := within 20000

end Reentry

end ReactiveQuery
