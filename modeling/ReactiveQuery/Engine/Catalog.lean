import ReactiveQuery.World

/-! The queries that an engine knows: reading them with pooled parsers, and keeping what they
compile to.  A pool never holds more idle parsers than its capacity. -/

namespace ReactiveQuery

namespace ParserPool

/-- Takes an idle parser or makes one. -/
def take (p : ParserPool) : ParserPool :=
  match p.idle with
  | 0 => { p with created := p.created + 1 }
  | idle + 1 => { p with idle }

/-- Gives a parser back; beyond the capacity it is dropped. -/
def giveBack (p : ParserPool) : ParserPool :=
  if p.idle < p.capacity then { p with idle := p.idle + 1 } else p

theorem capacity_take (p : ParserPool) : p.take.capacity = p.capacity := by
  unfold take
  split <;> rfl

theorem capacity_giveBack (p : ParserPool) : p.giveBack.capacity = p.capacity := by
  unfold giveBack
  split <;> rfl

theorem idle_take_le (p : ParserPool) : p.take.idle ≤ p.idle := by
  unfold take
  split <;> simp_all

theorem idle_giveBack_le {p : ParserPool} (h : p.idle ≤ p.capacity) :
    p.giveBack.idle ≤ p.capacity := by
  unfold giveBack
  split
  · next room => exact room
  · exact h

end ParserPool

namespace QueryCache

def hitRate (c : QueryCache) : Double :=
  let total := c.hits + c.misses
  if total = 0 then .zero else (Double.ofNat c.hits).div (.ofNat total)

def insert (c : QueryCache) (text : String) (d : Definition) : QueryCache :=
  { c with entries := (text, d) :: c.entries }

end QueryCache

/-- How errors of reading are told: those of compilation as they are, others with the query. -/
def Error.ofReading (text : String) (e : Error) : Error :=
  if e.isCompileError then e else .parse text e.message

namespace Act

/-- Reads a draft, giving the query and its paths in the order of reading. -/
def build {α : Type} (draft : Build α) : Act (Except Error (α × List Path)) :=
  onHeap fun heap =>
    let (result, b) := draft.run.run { heap }
    (result.map fun a => (a, b.paths.reverse), b.heap)

/-- Reads a query with a parser of the pool. -/
def parse (text : String) : Act (Query × List Path) := do
  modify fun w => { w with parsers := w.parsers.take }
  let result ← match (← get).queries.lookup text with
    | some draft => build (draft.build [])
    | none => pure (.error (.invalidOperation "no such query"))
  modify fun w => { w with parsers := w.parsers.giveBack }
  ofExcept (result.mapError (.ofReading text))

/-- The compiled form of a query, compiled on first use; a failure keeps nothing. -/
def definition (text : String) : Act Definition := do
  match (← get).cache.entries.lookup text with
  | some d =>
    modify fun w => { w with cache := { w.cache with hits := w.cache.hits + 1 } }
    return d
  | none =>
    modify fun w => { w with cache := { w.cache with misses := w.cache.misses + 1 } }
    let (query, paths) ← parse text
    let d ← compile fun scope => query.compile scope paths
    modify fun w => { w with cache := w.cache.insert text d }
    return d

/-- Forgets every compiled query and the counts. -/
def clearCache : Act Unit := modify fun w => { w with cache := {} }

/-- Registers an extension function: did it replace one? -/
def register (name : String) (action : ExtensionAction) : Act Bool :=
  modifyGet fun w =>
    let extensions := w.extensions.register name ⟨w.nextSerial, action⟩
    ((w.extensions.find? name).isSome, { w with extensions, nextSerial := w.nextSerial + 1 })

/-- How a path is shown. -/
def pathText (p : Path) : Act PathText := do
  return ⟨← ask p.text, ← ask p.literalKeys, p.hasComputedKey⟩

end Act

end ReactiveQuery
