import Mathlib.Data.List.Dedup
import ReactiveQuery.Proofs.Engine.Catalog
import ReactiveQuery.Proofs.Query.Reference
import ReactiveQuery.Proofs.Session.Snapshot

/-! The law of the query cache.  What is kept for a text is what its first successful request since
the last clearing has compiled, and nothing else that was asked for matters: neither requests that
failed, nor the parsers that have read them. -/

namespace ReactiveQuery

namespace World

variable {w : World} {text : String} {d : Definition}

/-- What reading a text now comes to, and the heap that it leaves. -/
def reading (w : World) (text : String) : Except Error (Query × List Path) × Heap :=
  match w.queries.lookup text with
  | none => (.error (.ofReading text (.invalidOperation "no such query")), w.heap)
  | some draft =>
    match (draft.build []).run.run { heap := w.heap } with
    | (.ok query, b) => (.ok (query, b.paths.reverse), b.heap)
    | (.error e, b) => (.error (.ofReading text e), b.heap)

/-- The world once an unknown text has been read. -/
def hasRead (w : World) (text : String) : World := { w with
  heap := (w.reading text).2
  parsers := w.parsers.take.giveBack
  cache := { w.cache with misses := w.cache.misses + 1 } }

/-- Reading a text now and compiling it with the functions registered now gives a definition. -/
def Compiles (w : World) (text : String) (d : Definition) : Prop :=
  ∃ query paths, (w.reading text).1 = .ok (query, paths) ∧
    ((query.compile ⟨(w.reading text).2, w.extensions⟩ paths).run.run w.patterns).1 = .ok d

/-- A text is read with the paths that its query has. -/
theorem paths_of_reading {query : Query} {paths : List Path}
    (reads : (w.reading text).1 = .ok (query, paths)) : paths = query.paths := by
  unfold reading at reads
  split at reads
  · cases reads
  · next draft _ =>
    split at reads <;> cases reads
    next built =>
    obtain ⟨ps, recorded, all⟩ := draft.build_records [] _ _ _ built
    rw [recorded, all, List.append_nil, List.reverse_reverse]

/-- A definition calls the functions that were registered when it was compiled, and its paths are
those that reading its text has made, in order. -/
theorem Compiles.refers (compiles : w.Compiles text d) : ∃ query paths,
    (w.reading text).1 = .ok (query, paths) ∧ paths = query.paths ∧ d.paths = paths ∧
      w.extensions.Resolves query.names d.functions := by
  obtain ⟨query, paths, reads, compiled⟩ := compiles
  obtain ⟨resolves, listed⟩ := Query.compile_resolves (Prod.ext compiled rfl)
  exact ⟨query, paths, reads, paths_of_reading reads, listed, resolves⟩

end World

namespace Act

variable {w v : World} {text : String}

/-- A text that is known is answered from the cache. -/
theorem on_definition_of_known {d : Definition} (known : w.cache.entries.lookup text = some d) :
    (definition text).on w =
      (.ok d, { w with cache := { w.cache with hits := w.cache.hits + 1 } }) := by
  unfold definition
  rw [on_bind_ok (on_get w)]
  dsimp only
  rw [known]
  rfl

/-- The parser that reads a text is given back, whatever it has read. -/
theorem on_parse (w : World) (text : String) :
    (parse text).on w = ((w.reading text).1.mapError .raised,
      { w with heap := (w.reading text).2, parsers := w.parsers.take.giveBack }) := by
  unfold parse World.reading
  rw [on_bind_ok (on_modify ..), on_bind_ok (on_get _)]
  dsimp only
  cases w.queries.lookup text with
  | none => rfl
  | some draft =>
    dsimp only
    rw [build, on_bind_ok (on_onHeap ..), on_bind_ok (on_modify ..), on_ofExcept]
    dsimp only
    rcases (draft.build []).run.run { heap := w.heap } with ⟨_ | _, _⟩ <;> rfl

/-- A text that is unknown is read and compiled, and kept if that succeeds. -/
theorem on_definition_of_unknown (unknown : w.cache.entries.lookup text = none) :
    (definition text).on w = match (w.reading text).1 with
      | .error e => (.error (.raised e), w.hasRead text)
      | .ok (query, paths) =>
        match (query.compile ⟨(w.reading text).2, w.extensions⟩ paths).run.run w.patterns with
        | (.error fault, patterns) => (.error fault, { w.hasRead text with patterns })
        | (.ok d, patterns) => (.ok d, { w.hasRead text with
            patterns, cache := (w.hasRead text).cache.insert text d }) := by
  have parses : (parse text).on { w with cache := { w.cache with misses := w.cache.misses + 1 } } =
      ((w.reading text).1.mapError .raised, w.hasRead text) := on_parse _ text
  unfold definition
  rw [on_bind_ok (on_get w)]
  dsimp only
  rw [unknown]
  dsimp only
  rw [on_bind_ok (on_modify ..)]
  cases reads : (w.reading text).1 with
  | error e =>
    rw [reads] at parses
    rw [on_bind_error parses]
  | ok read =>
    obtain ⟨query, paths⟩ := read
    rw [reads] at parses
    rw [on_bind_ok parses]
    dsimp only
    rw [on_bind, on_compile]
    have run : (query.compile ⟨(w.hasRead text).heap, (w.hasRead text).extensions⟩ paths).run.run
      (w.hasRead text).patterns =
        (query.compile ⟨(w.reading text).2, w.extensions⟩ paths).run.run w.patterns := rfl
    rw [run]
    rcases (query.compile ⟨(w.reading text).2, w.extensions⟩ paths).run.run w.patterns with
      ⟨_ | _, _⟩ <;> rfl

variable {answer : Except Error Definition}

/-- A known text is answered with what is kept for it, and only the hits are counted. -/
theorem attempt_definition_of_known {d : Definition} (known : w.cache.entries.lookup text = some d)
    (gives : (attempt (definition text)).Gives w answer v) : answer = .ok d ∧
      v.parsers = w.parsers ∧ v.cache = { w.cache with hits := w.cache.hits + 1 } := by
  unfold Gives at gives
  rw [on_attempt, on_definition_of_known known] at gives
  cases gives
  exact ⟨rfl, rfl, rfl⟩

/-- An unknown text is answered with what it compiles to now, which is kept; a failure keeps
nothing.  The parser is given back either way. -/
theorem attempt_definition_of_unknown (unknown : w.cache.entries.lookup text = none)
    (gives : (attempt (definition text)).Gives w answer v) :
    (∀ d, answer = .ok d ↔ w.Compiles text d) ∧ v.parsers = w.parsers.take.giveBack ∧
      v.cache.hits = w.cache.hits ∧ v.cache.misses = w.cache.misses + 1 ∧
      v.cache.entries = (answer.toOption.map fun d => (text, d)).toList ++ w.cache.entries := by
  unfold Gives at gives
  unfold World.Compiles
  rw [on_attempt, on_definition_of_unknown unknown] at gives
  cases reads : (w.reading text).1 with
  | error e =>
    rw [reads] at gives
    cases gives
    exact ⟨fun d => ⟨nofun, fun ⟨_, _, same, _⟩ => nomatch same⟩, rfl, rfl, rfl, rfl⟩
  | ok read =>
    obtain ⟨query, paths⟩ := read
    rw [reads] at gives
    dsimp only at gives
    rcases compiled :
      (query.compile ⟨(w.reading text).2, w.extensions⟩ paths).run.run w.patterns with
      ⟨(e | _) | d, patterns⟩ <;> rw [compiled] at gives <;> cases gives
    · refine ⟨fun d => ⟨nofun, fun ⟨_, _, same, made⟩ => ?_⟩, rfl, rfl, rfl, rfl⟩
      cases same
      rw [compiled] at made
      cases made
    · refine ⟨fun d' => ⟨fun same => ?_, fun ⟨_, _, same, made⟩ => ?_⟩, rfl, rfl, rfl, rfl⟩
      · cases same
        exact ⟨query, paths, rfl, by rw [compiled]⟩
      · cases same
        rw [compiled] at made
        cases made
        rfl

end Act

/-- What was asked of the cache: a text, with the world at that moment and the answer. -/
inductive CacheStep where
  | got (text : String) (asked : World) (answer : Except Error Definition)
  | cleared

namespace CacheStep

def isCleared : CacheStep → Bool
  | .cleared => true
  | .got .. => false

def isGet : CacheStep → Bool
  | .got .. => true
  | .cleared => false

/-- A request that found an entry. -/
def isHit : CacheStep → Bool
  | .got text asked _ => (asked.cache.entries.lookup text).isSome
  | .cleared => false

/-- A request that found none. -/
def isMiss : CacheStep → Bool
  | .got text asked _ => (asked.cache.entries.lookup text).isNone
  | .cleared => false

/-- What a request has answered with, if it succeeded. -/
def success? : CacheStep → Option (String × Definition)
  | .got text _ (.ok d) => some (text, d)
  | _ => none

/-- The steps since the last clearing, the last one first. -/
def since (ds : List CacheStep) : List CacheStep := ds.takeWhile (!·.isCleared)

/-- The answers of the successful requests since the last clearing, the last one first. -/
def successes (ds : List CacheStep) : List (String × Definition) := (since ds).filterMap success?

/-- The answer of the first successful request for a text since the last clearing. -/
def first? (ds : List CacheStep) (text : String) : Option Definition :=
  (successes ds).reverse.lookup text

section
variable {ds : List CacheStep} {text : String} {asked : World} {answer : Except Error Definition}
  {d : Definition} {e : Error}

@[simp] theorem since_nil : since [] = [] := rfl

@[simp] theorem since_cleared : since (.cleared :: ds) = [] := rfl

@[simp] theorem since_got :
    since (.got text asked answer :: ds) = .got text asked answer :: since ds := rfl

@[simp] theorem successes_nil : successes [] = [] := rfl

@[simp] theorem successes_cleared : successes (.cleared :: ds) = [] := rfl

@[simp] theorem successes_ok :
    successes (.got text asked (.ok d) :: ds) = (text, d) :: successes ds := rfl

@[simp] theorem successes_error :
    successes (.got text asked (.error e) :: ds) = successes ds := rfl

theorem first?_ok (text' : String) : first? (.got text asked (.ok d) :: ds) text' =
    (first? ds text').or (if text' = text then some d else none) := by
  rw [first?, successes_ok, List.reverse_cons, List.lookup_append, first?]
  congr 1
  cases same : text' == text with
  | true => simp [eq_of_beq same]
  | false => simp [List.lookup_cons, same, ne_of_beq_false same]

theorem first?_isSome_iff : (first? ds text).isSome ↔ text ∈ (successes ds).map (·.1) := by
  simp only [first?, List.lookup_isSome_iff, List.mem_reverse, List.mem_map, beq_iff_eq]
  exact exists_congr fun p => and_congr_right fun _ => eq_comm

end

end CacheStep

/-- A request keeps to the steps before it. -/
structure CacheStep.Answered (before : List CacheStep) (text : String) (asked : World)
    (answer : Except Error Definition) : Prop where
  /-- After a success for the text since the last clearing the first one is given again. -/
  again : ∀ d, CacheStep.first? before text = some d → answer = .ok d
  /-- Without one the request succeeds exactly with what the text compiles to now. -/
  fresh : CacheStep.first? before text = none → ∀ d, answer = .ok d ↔ asked.Compiles text d
  /-- What is compiled has the paths that reading it has made, in order, and calls the functions
  that its names stand for now. -/
  refers : CacheStep.first? before text = none → ∀ d, answer = .ok d → ∃ query,
    (asked.reading text).1 = .ok (query, d.paths) ∧ d.paths = query.paths ∧
      asked.extensions.Resolves query.names d.functions

/-- Parsers after so many texts were read: one is made and kept for all of them where there is room
for it, else one is made for each. -/
structure ParserPool.Serves (capacity count : Nat) (p : ParserPool) : Prop where
  room : p.capacity = capacity
  idle : p.idle = min capacity (min count 1)
  created : p.created = if 1 ≤ capacity then min count 1 else count

theorem ParserPool.Serves.read {capacity count : Nat} {p : ParserPool}
    (serves : p.Serves capacity count) : p.take.giveBack.Serves capacity (count + 1) := by
  obtain ⟨room, idle, created⟩ := serves
  refine ⟨by rw [capacity_giveBack, capacity_take, room], ?_, ?_⟩
  · grind [take, giveBack]
  · grind [take, giveBack]

namespace World

/-- What the cache makes of the steps before it, the last one first. -/
inductive Serves (w : World) : List CacheStep → World → Prop
  | start : Serves w [] w
  | get {ds : List CacheStep} {u v : World} {text : String} {answer : Except Error Definition}
    (before : Serves w ds u) (gives : (Act.attempt (Act.definition text)).Gives u answer v) :
    Serves w (.got text u answer :: ds) v
  | clear {ds : List CacheStep} {u v : World} (before : Serves w ds u)
    (gives : Act.clearCache.Gives u () v) : Serves w (.cleared :: ds) v
  /-- Whatever else happens leaves the cache and the parsers alone. -/
  | pass {ds : List CacheStep} {u v : World} (before : Serves w ds u) (cache : v.cache = u.cache)
    (parsers : v.parsers = u.parsers) : Serves w ds v

/-- Registering a function passes the cache by: what is kept goes on calling the old one. -/
theorem Serves.register {w u v : World} {ds : List CacheStep} {name : String}
    {action : ExtensionAction} {replaced : Bool} (before : w.Serves ds u)
    (gives : (Act.register name action).Gives u replaced v) : w.Serves ds v := by
  cases gives
  exact .pass before rfl rfl

/-- The law of the cache after some steps. -/
structure Recalls (capacity : Nat) (ds : List CacheStep) (v : World) : Prop where
  answers : ∀ text asked answer before, .got text asked answer :: before <:+ ds →
    CacheStep.Answered before text asked answer
  /-- A failure neither inserts nor evicts anything. -/
  failed : ∀ text asked e before, ds = .got text asked (.error e) :: before →
    v.cache.entries = asked.cache.entries
  /-- For a text the answer of its first success since the last clearing is kept. -/
  kept : ∀ text, v.cache.entries.lookup text = CacheStep.first? ds text
  size : v.cache.entries.length = ((CacheStep.successes ds).map (·.1)).dedup.length
  hits : v.cache.hits = (CacheStep.since ds).countP CacheStep.isHit
  gets : v.cache.hits + v.cache.misses = (CacheStep.since ds).countP CacheStep.isGet
  idle : v.parsers.idle ≤ capacity
  created : v.parsers.created =
    if 1 ≤ capacity then min (ds.countP CacheStep.isMiss) 1 else ds.countP CacheStep.isMiss

theorem recalls_start {setup : Setup} {w : World} (started : World.start setup = .ok w) :
    w.Recalls setup.parserPoolCapacity [] ∧ w.parsers.Serves setup.parserPoolCapacity 0 := by
  obtain ⟨known, serial, rfl⟩ := start_same started
  have none : ∀ text, CacheStep.first? [] text = none := fun _ => rfl
  exact ⟨⟨by simp, by simp, none, rfl, rfl, rfl, Nat.zero_le _, by simp⟩, ⟨rfl, by simp, by simp⟩⟩

section
variable {capacity : Nat} {ds : List CacheStep} {u v : World} {text : String}
  {answer : Except Error Definition}

theorem Recalls.pass (recalls : u.Recalls capacity ds) (cache : v.cache = u.cache)
    (parsers : v.parsers = u.parsers) : v.Recalls capacity ds := by
  obtain ⟨answers, failed, kept, size, hits, gets, idle, created⟩ := recalls
  rw [← cache] at failed kept size hits gets
  rw [← parsers] at idle created
  exact ⟨answers, failed, kept, size, hits, gets, idle, created⟩

theorem Recalls.clear (recalls : u.Recalls capacity ds)
    (gives : Act.clearCache.Gives u () v) : v.Recalls capacity (.cleared :: ds) := by
  cases gives
  refine ⟨fun text asked answer before suffix => ?_, nofun, fun _ => rfl, rfl, rfl, rfl,
    recalls.idle, recalls.created⟩
  rcases List.suffix_cons_iff.mp suffix with same | inner
  · cases same
  · exact recalls.answers text asked answer before inner

theorem Recalls.answered (recalls : u.Recalls capacity ds)
    (gives : (Act.attempt (Act.definition text)).Gives u answer v) :
    CacheStep.Answered ds text u answer := by
  cases known : u.cache.entries.lookup text with
  | some d =>
    obtain ⟨rfl, -, -⟩ := Act.attempt_definition_of_known known gives
    rw [recalls.kept] at known
    have knows : ¬CacheStep.first? ds text = none := by simp [known]
    refine ⟨fun d' same => ?_, fun missing => absurd missing knows,
      fun missing => absurd missing knows⟩
    rw [Option.some.inj (known.symm.trans same)]
  | none =>
    obtain ⟨compiles, -⟩ := Act.attempt_definition_of_unknown known gives
    rw [recalls.kept] at known
    refine ⟨fun d same => (nomatch known.symm.trans same), fun _ => compiles, fun _ d same => ?_⟩
    obtain ⟨query, paths, reads, made, listed, resolves⟩ := ((compiles d).mp same).refers
    exact ⟨query, by rw [reads, listed], by rw [listed, made], resolves⟩

/-- A request that finds no entry uses a parser. -/
theorem serves_get (pool : u.parsers.Serves capacity (ds.countP CacheStep.isMiss))
    (gives : (Act.attempt (Act.definition text)).Gives u answer v) :
    v.parsers.Serves capacity ((CacheStep.got text u answer :: ds).countP CacheStep.isMiss) := by
  cases known : u.cache.entries.lookup text with
  | some d =>
    obtain ⟨-, parsers, -⟩ := Act.attempt_definition_of_known known gives
    rw [parsers, List.countP_cons_of_neg (by simp [CacheStep.isMiss, known])]
    exact pool
  | none =>
    obtain ⟨-, parsers, -⟩ := Act.attempt_definition_of_unknown known gives
    rw [parsers, List.countP_cons_of_pos (by simp [CacheStep.isMiss, known])]
    exact pool.read

theorem Recalls.answers_got (recalls : u.Recalls capacity ds)
    (gives : (Act.attempt (Act.definition text)).Gives u answer v) (text' : String) (asked : World)
    (answer' : Except Error Definition) (before : List CacheStep)
    (suffix : .got text' asked answer' :: before <:+ .got text u answer :: ds) :
    CacheStep.Answered before text' asked answer' := by
  rcases List.suffix_cons_iff.mp suffix with same | inner
  · cases same
    exact recalls.answered gives
  · exact recalls.answers text' asked answer' before inner

theorem Recalls.get_of_known {d : Definition} (recalls : u.Recalls capacity ds)
    (served : v.parsers.Serves capacity ((CacheStep.got text u answer :: ds).countP CacheStep.isMiss))
    (known : u.cache.entries.lookup text = some d)
    (gives : (Act.attempt (Act.definition text)).Gives u answer v) :
    v.Recalls capacity (.got text u answer :: ds) := by
  have answers := recalls.answers_got gives
  have room : v.parsers.idle ≤ capacity := served.idle ▸ Nat.min_le_left _ _
  obtain ⟨rfl, -, cache⟩ := Act.attempt_definition_of_known known gives
  have hit : CacheStep.isHit (.got text u (.ok d)) = true := by simp [CacheStep.isHit, known]
  have first : CacheStep.first? ds text = some d := by rw [← recalls.kept, known]
  have here : text ∈ (CacheStep.successes ds).map (·.1) :=
    CacheStep.first?_isSome_iff.mp (by rw [first]; rfl)
  refine ⟨answers, by simp, fun text' => ?_, ?_, ?_, ?_, room, served.created⟩
  · rw [cache, CacheStep.first?_ok, ← recalls.kept]
    dsimp only
    split
    · next same => rw [same, known]; rfl
    · simp
  · rw [cache, CacheStep.successes_ok, List.map_cons, List.dedup_cons_of_mem here, ← recalls.size]
  · rw [cache, CacheStep.since_got, List.countP_cons_of_pos hit, ← recalls.hits]
  · rw [cache, CacheStep.since_got, List.countP_cons_of_pos rfl, ← recalls.gets]
    dsimp only
    omega

theorem Recalls.get_of_unknown (recalls : u.Recalls capacity ds)
    (served : v.parsers.Serves capacity ((CacheStep.got text u answer :: ds).countP CacheStep.isMiss))
    (known : u.cache.entries.lookup text = none)
    (gives : (Act.attempt (Act.definition text)).Gives u answer v) :
    v.Recalls capacity (.got text u answer :: ds) := by
  have room : v.parsers.idle ≤ capacity := served.idle ▸ Nat.min_le_left _ _
  obtain ⟨-, -, hits, misses, entries⟩ := Act.attempt_definition_of_unknown known gives
  have hit : CacheStep.isHit (.got text u answer) = false := by simp [CacheStep.isHit, known]
  have first : CacheStep.first? ds text = none := by rw [← recalls.kept, known]
  refine ⟨recalls.answers_got gives, ?_, fun text' => ?_, ?_, ?_, ?_, room, served.created⟩
  · rintro text' asked e before same
    cases same
    exact entries
  · cases answer with
    | error e => rw [entries]; exact recalls.kept text'
    | ok d =>
      rw [entries, CacheStep.first?_ok, ← recalls.kept]
      by_cases same : text' = text
      · rw [same, known]
        simp [Except.toOption]
      · have differ : (text' == text) = false := beq_eq_false_iff_ne.mpr same
        simp [Except.toOption, List.lookup_cons, differ, same]
  · cases answer with
    | error e => rw [entries]; exact recalls.size
    | ok d =>
      have new : text ∉ (CacheStep.successes ds).map (·.1) := fun here => by
        have := CacheStep.first?_isSome_iff.mpr here
        simp [first] at this
      rw [entries, CacheStep.successes_ok, List.map_cons, List.dedup_cons_of_notMem new,
        List.length_cons, ← recalls.size]
      rfl
  · rw [hits, recalls.hits, CacheStep.since_got, List.countP_cons_of_neg (by simp [hit])]
  · rw [hits, misses, CacheStep.since_got, List.countP_cons_of_pos rfl, ← recalls.gets]
    omega

theorem Recalls.get (recalls : u.Recalls capacity ds)
    (pool : u.parsers.Serves capacity (ds.countP CacheStep.isMiss))
    (gives : (Act.attempt (Act.definition text)).Gives u answer v) :
    v.Recalls capacity (.got text u answer :: ds) := by
  have served := serves_get pool gives
  cases known : u.cache.entries.lookup text with
  | some d => exact recalls.get_of_known served known gives
  | none => exact recalls.get_of_unknown served known gives

end

/-- Whatever is asked of a new engine, and whatever happens in between, the cache keeps its law. -/
theorem Serves.recalls {setup : Setup} {w v : World} {ds : List CacheStep}
    (started : World.start setup = .ok w) (serves : w.Serves ds v) :
    v.Recalls setup.parserPoolCapacity ds := by
  have both : v.Recalls setup.parserPoolCapacity ds ∧
      v.parsers.Serves setup.parserPoolCapacity (ds.countP CacheStep.isMiss) := by
    induction serves with
    | start => exact recalls_start started
    | get before gives ih => exact ⟨ih.1.get ih.2 gives, serves_get ih.2 gives⟩
    | clear before gives ih =>
      refine ⟨ih.1.clear gives, ?_⟩
      cases gives
      exact ih.2
    | pass before cache parsers ih => exact ⟨ih.1.pass cache parsers, parsers ▸ ih.2⟩
  exact both.1

end World

namespace Reregistered

/-- A query that calls a function which the engine does not know at first. -/
def setup : Setup where
  parserPoolCapacity := 1
  queries := [("query", { filter := some (.call "f" [.path .here []]) })]

def request : Act (Except Error Definition) := Act.attempt (Act.definition "query")

def start : World := (World.start setup).toOption.getD {}

def failed : World := (request.on start).2

def registered : World := ((Act.register "f" .id).on failed).2

def compiled : World := (request.on registered).2

def replaced : World := ((Act.register "f" .args).on compiled).2

def given : World := (request.on replaced).2

def cleared : World := (Act.clearCache.on given).2

def renewed : World := (request.on cleared).2

/-- Which registrations the answer of a request calls, if it succeeds. -/
def serials (w : World) : Option (List Nat) :=
  ((request.on w).1.toOption.bind Except.toOption).map fun d => d.functions.map (·.serial)

theorem gives_request {w : World} (ends : (request.on w).1.toOption.isSome = true) :
    ∃ answer, request.Gives w answer (request.on w).2 := by
  obtain ⟨answer, given⟩ := Option.isSome_iff_exists.mp ends
  exact ⟨answer, Act.gives_of_toOption given⟩

/-- The query fails until the function is registered, goes on calling it when it is replaced, and
calls the other one when the cache has been cleared. -/
theorem recalls_renewed : ∃ a b c d : Except Error Definition,
    renewed.Recalls 1 [.got "query" cleared a, .cleared, .got "query" replaced b,
      .got "query" registered c, .got "query" start d] ∧
    serials start = none ∧ serials registered = some [1] ∧ serials replaced = some [1] ∧
    serials cleared = some [2] := by
  obtain ⟨d, first⟩ := gives_request (w := start) (by decide +kernel)
  obtain ⟨c, second⟩ := gives_request (w := registered) (by decide +kernel)
  obtain ⟨b, third⟩ := gives_request (w := replaced) (by decide +kernel)
  obtain ⟨a, last⟩ := gives_request (w := cleared) (by decide +kernel)
  have serves := ((((World.Serves.start.get first).register
    (v := registered) rfl).get second).register (v := replaced) rfl).get third
  have renews := (serves.clear (v := cleared) rfl).get last
  have started : World.start setup = .ok start := rfl
  exact ⟨a, b, c, d, renews.recalls started, by decide +kernel, by decide +kernel,
    by decide +kernel, by decide +kernel⟩

end Reregistered

end ReactiveQuery
