import ReactiveQuery.Change.Queue
import ReactiveQuery.Change.Registry
import ReactiveQuery.Change.Scheduler
import ReactiveQuery.Query.Compile
import ReactiveQuery.Query.Draft
import ReactiveQuery.Session.Command

/-! The state of an engine with its session, and the activities that change it. -/

namespace ReactiveQuery

/-- A path as it is shown. -/
structure PathText where
  text : String
  keys : List String
  computed : Bool

structure Stats where
  cachedQueries : Nat
  cacheHits : Nat
  cacheMisses : Nat
  idleParsers : Nat
  cachedPatterns : Nat
  listeners : Nat
  pendingRefreshes : Nat

/-- What a command answers. -/
inductive Reply where
  | value (v : Value)
  | count (n : Nat)
  | list (items : List Reply)
  | definition (d : Definition) (paths : List PathText)
  | stats (s : Stats)
  | failed (error : Error)

inductive LogEntry where
  | called (action : ExtensionAction) (args : List Value)
  | heard (listener : String) (event : Event)
  | did (doer : String) (reply : Reply)
  | job (name : String)
  | reported (event : Event)

/-- What recomputes a result. -/
inductive Job where
  | script (name : String) (commands : List Command)
  /-- Refreshes the collection at a place, if it still lives there. -/
  | refresh (result : Ref) (source : Ref) (definition : Definition) (params : List Value)

/-- The events that make a live query stale, by the way in which they reach it. -/
inductive Route where
  | source
  /-- Through the parameters, of which these are collections. -/
  | query (collections : List Nat)
  | record

inductive Listener where
  /-- Performs commands; with `members`, only for events on members of the collection there. -/
  | script (name : String) (members : Option Ref) (actions : List Command)
  /-- Marks a job for an identity. -/
  | invalidate (id : Nat) (route : Route) (job : Job)

/-- The values that a job keeps alive. -/
def Job.values : Job → List Value
  | .script .. => []
  | .refresh _ source _ params => .collection source :: params

def Listener.values : Listener → List Value
  | .script .. => []
  | .invalidate _ _ job => job.values

structure Bus where
  registry : Registry := {}
  queue : Queue := {}
  scheduler : Scheduler Job := {}
  /-- Set while events are dispatched or a batch is open. -/
  dispatching : Bool := false
  /-- How many batches one dispatch may deliver. -/
  ceiling : Nat := 128
  /-- Every listener made so far, by number. -/
  listeners : Array Listener := #[]
  nextId : Nat := 1

/-- Parsers that wait for use. -/
structure ParserPool where
  capacity : Nat := 4
  idle : Nat := 0
  created : Nat := 0

/-- Compiled queries by text. -/
structure QueryCache where
  entries : List (String × Definition) := []
  hits : Nat := 0
  misses : Nat := 0

/-- A registration that can be undone by name. -/
structure Handle where
  topic : Topic
  listener : Nat

/-- What a session holds by name. -/
structure Desk where
  names : FieldMap Value := []
  weak : FieldMap Ref := []
  handles : FieldMap Handle := []
  listeners : FieldMap Nat := []

structure World where
  heap : Heap := {}
  bus : Bus := {}
  /-- The queries that can be read. -/
  queries : List (String × QueryDraft) := []
  parsers : ParserPool := {}
  cache : QueryCache := {}
  extensions : Extensions := []
  nextSerial : Nat := 0
  /-- How often each counting extension was called. -/
  calls : List (Nat × Nat) := []
  patterns : Regex.Cache := {}
  desk : Desk := {}
  /-- Values that activities under way hold on to. -/
  held : List Value := []
  /-- What happened, the last entry first. -/
  log : List LogEntry := []

/-- An activity changes the world and gives a result or a fault; changes made before a fault
stay. -/
abbrev Act := ExceptT Fault (StateM World)

namespace Act

variable {α : Type}

def raise (error : Error) : Act α := throw (.raised error)

def ofOption : Option α → Act α
  | some a => pure a
  | none => throw .endless

/-- Runs an activity and catches its error, but not endlessness. -/
def attempt (act : Act α) : Act (Except Error α) := ExceptT.mk do
  match ← act.run with
  | .ok a => return .ok (.ok a)
  | .error (.raised e) => return .ok (.error e)
  | .error .endless => return .error .endless

def ofExcept : Except Error α → Act α
  | .ok a => pure a
  | .error e => raise e

/-- Runs an activity that holds on to values until it ends. -/
def holding (values : List Value) (act : Act α) : Act α := ExceptT.mk fun w =>
  let outer := w.held
  let (result, w) := act.run { w with held := values ++ outer }
  (result, { w with held := outer })

/-- Asks the heap something. -/
def ask (question : Heap → Option α) : Act α := do ofOption (question (← get).heap)

def onHeap (change : Heap → α × Heap) : Act α :=
  modifyGet fun w => let (a, heap) := change w.heap; (a, { w with heap })

def changeHeap (change : Heap → Heap) : Act Unit :=
  modify fun w => { w with heap := change w.heap }

def changeBus (change : Bus → Bus) : Act Unit := modify fun w => { w with bus := change w.bus }

def onBus (change : Bus → α × Bus) : Act α :=
  modifyGet fun w => let (a, bus) := change w.bus; (a, { w with bus })

def log (entry : LogEntry) : Act Unit := modify fun w => { w with log := entry :: w.log }

/-- Compiles in the present world. -/
def compile (c : CompileScope → Compile α) : Act α := ExceptT.mk fun w =>
  let (result, patterns) := (c ⟨w.heap, w.extensions⟩).run.run w.patterns
  (result, { w with patterns })

def freshArray (items : List Value) : Act Value := do
  return .array (← onHeap Heap.freshTag) items

def freshObject (fields : FieldMap Value) : Act Value := do
  return .object (← onHeap Heap.freshTag) fields

/-- An identity that no value has yet. -/
def nextId : Act Nat := onBus fun b => (b.nextId, { b with nextId := b.nextId + 1 })

end Act

end ReactiveQuery
