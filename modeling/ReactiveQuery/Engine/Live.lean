import ReactiveQuery.Engine.Catalog
import ReactiveQuery.Engine.Observable
import ReactiveQuery.Query.Evaluate

/-! Queries over collections: once, or live.  A live result is refreshed after every batch that
changes its source or a field that the query reads. -/

namespace ReactiveQuery

/-- The way in which a dependency reaches a live query, and the topic to follow. -/
inductive Dependency where
  | source (topic : Topic)
  | query (topic : Topic)
  | record (topic : Topic)
  deriving DecidableEq

namespace Dependency

def topic : Dependency → Topic
  | .source t | .query t | .record t => t

/-- A written key is a field; `length` is also the length of a collection. -/
def ofKey (wrap : Topic → Dependency) (target : Option Nat) (key : String) : List Dependency :=
  let field := wrap ⟨target, some (.field key)⟩
  if key == "length" then [field, wrap ⟨target, some .length⟩] else [field]

/-- What a path depends on.  A computed key may be any field. -/
def ofPath (h : Heap) (params : List Value) (p : Path) : Option (List Dependency) := do
  let keys ← p.literalKeys h
  let along (wrap : Topic → Dependency) (target : Option Nat) :=
    keys.flatMap (ofKey wrap target) ++
      if p.hasComputedKey then [wrap ⟨target, none⟩] else []
  match p.root with
  | .here => return along .record none
  | .arg i =>
    let content := match params[i]? with
      | some (.collection r) => [query ⟨some r.id, some .content⟩]
      | _ => []
    return content ++ along .query ((params[i]?).bind Value.id?)

/-- Everything that a query over a source depends on: the source's content and its paths. -/
def all (h : Heap) (source : Ref) (d : Definition) (params : List Value) :
    Option (List Dependency) := do
  let paths ← d.paths.mapM (ofPath h params)
  return .source ⟨some source.id, some .content⟩ :: paths.flatten

end Dependency

/-- The identities of the parameters that are collections. -/
def collectionIds (params : List Value) : List Nat :=
  params.filterMap fun
    | .collection r => some r.id
    | _ => none

/-- Does an event that came this way make the result stale?  Content events count only from the
source and from parameters; the others come from result collections. -/
def Route.accepts (route : Route) (e : Event) : Bool :=
  match route with
  | .source => true
  | .query collections => e.key != .content || collections.contains e.target
  | .record => e.key != .content

namespace Act

def addListener (l : Listener) : Act Nat :=
  onBus fun b => (b.listeners.size, { b with listeners := b.listeners.push l })

def subscribe (s : Subscription) : Act Bool :=
  onBus fun b => let (new, registry) := b.registry.add s; (new, { b with registry })

def unsubscribe (s : Subscription) : Act Bool :=
  onBus fun b => let (found, registry) := b.registry.remove s; (found, { b with registry })

/-- Registers a listener on topics; gives the registrations that are new. -/
def subscribeAll (listener : Dependency → Nat) : List Dependency → Act (List Subscription)
  | [] => pure []
  | d :: ds => do
    let s : Subscription := ⟨d.topic, listener d⟩
    if ← subscribe s then return s :: (← subscribeAll listener ds)
    else subscribeAll listener ds

/-- Follows everything that a live query depends on, with one listener for each way and one job
for all; the result keeps the registrations. -/
def attach (result source : Ref) (d : Definition) (params : List Value) : Act Unit := do
  let dependencies ← ask fun h => Dependency.all h source d params
  let job := Job.refresh result source d params
  let ofSource ← addListener (.invalidate result.id .source job)
  let ofQuery ← addListener (.invalidate result.id (.query (collectionIds params)) job)
  let ofRecord ← addListener (.invalidate result.id .record job)
  let subscriptions ← subscribeAll (fun
    | .source _ => ofSource
    | .query _ => ofQuery
    | .record _ => ofRecord) dependencies
  result.retain { subscriptions, values := job.values }

variable (call : Caller) (dispatch : Act Unit)

/-- Computes the rows of a query anew and puts them in the place of the result's items. -/
def refresh (result source : Ref) (d : Definition) (params : List Value) : Act Unit := do
  let items := (← get).heap.items source
  holding items do
    let rows ← d.execute call ⟨source, params⟩ items
    let _ ← result.change dispatch (.replaceAll rows)

/-- Runs a query once; the result never changes by itself. -/
def query (source : Ref) (text : String) (params : List Value) : Act Ref := do
  let d ← definition text
  let items := (← get).heap.items source
  let rows ← holding items (d.execute call ⟨source, params⟩ items)
  newCollection rows

/-- Runs a query and keeps its result up to date while it lives. -/
def live (source : Ref) (text : String) (params : List Value) : Act Ref := do
  let d ← definition text
  let result ← newCollection []
  holding (.collection result :: .collection source :: params) do
    attach result source d params
    batch dispatch (refresh call dispatch result source d params)
  return result

end Act

end ReactiveQuery
