import ReactiveQuery.Error
import ReactiveQuery.Query.Code
import ReactiveQuery.Value.Term

/-! Commands on an engine.  Callbacks and jobs are lists of commands. -/

namespace ReactiveQuery

/-- The target of an event: an identity, the identity of a bound value, or all. -/
inductive Target where
  | all
  | id (n : Nat)
  | named (name : String)

structure EventDraft where
  target : Target
  key : EventKey
  new : Term
  old : Term

/-- A sink with an identity, for values that the engine does not number. -/
structure Placement where
  sink : Sink
  id : Nat

inductive CollectionCommand where
  | push (t : Term)
  | unshift (t : Term)
  | insert (index : Nat) (t : Term)
  | pop
  | shift
  | remove (index : Nat)
  | reverse
  | sortBy (ascending : Bool)
  | setItem (index : Nat) (t : Term)
  | replaceAll (items : List Term)
  | setAttr (key : String) (t : Term)
  | attr (key : String)
  | item (index : Nat)
  | length
  | containsObject (target : Target)
  | retain (t : Term)
  | weaken (name : String)

inductive RecordCommand where
  | write (key : String) (t : Term)
  | read (key : String)
  | hasField (key : String)
  | fieldNames
  | snapshot

inductive Command where
  /-- Binds the value that a command gives. -/
  | bind (name : String) (inner : Command)
  | value (t : Term)
  | newRecord (fields : List (String × Term)) (placement : Option Placement)
  | newCollection (items : List Term) (placement : Option Placement)
  | drop (name : String)
  | upgrade (name : String)
  | onRecord (name : String) (command : RecordCommand)
  | onCollection (name : String) (command : CollectionCommand)
  | query (source text : String) (params : List Term)
  | live (source text : String) (params : List Term)
  | liveOver (items : List Term) (text : String) (params : List Term)
  | definition (text : String)
  | register (name : String) (action : ExtensionAction)
  | registerAll (extensions : List (String × ExtensionAction))
  | hasExtension (name : String)
  | stats
  | config
  | listen (handle collection : String) (key : EventKey) (actions : List Command)
  | unlisten (handle : String)
  | batch (commands : List Command)
  | subscribe (listener : String) (target : Target) (key : Option EventKey)
      (actions : List Command)
  | unsubscribe (listener : String) (target : Target) (key : Option EventKey)
  | publish (event : EventDraft)
  | publishAll (events : List EventDraft)
  | hasListeners (target : Target) (key : EventKey)
  | bus
  | nextId
  | mark (id : Nat) (name : String) (job : List Command)
  | flush
  | clear
  | dirty (ids : List Nat)
  | fail (error : Error)

instance : Inhabited Command := ⟨.stats⟩

end ReactiveQuery
