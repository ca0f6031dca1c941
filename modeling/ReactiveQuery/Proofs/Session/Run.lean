import ReactiveQuery.Proofs.Session.Perform
import ReactiveQuery.Session.Start

/-! Runs of a caller.  In every world of a run what waits has been worked off, and as far as the run
keeps to its domain every result that lives is fresh. -/

namespace ReactiveQuery

/-- What a command from outside may start inside itself. -/
def Reentry.outer : Reentry := within 19999

namespace World

variable {D : Prop} {M : Nat → Prop} {qs : List LiveQuery} {u v w : World} {reply : Reply}
  {q r : LiveQuery}

theorem gives_of_perform {c : Command} (performs : w.perform c = some (reply, v)) (ok : reply.Ok) :
    (c.perform Reentry.outer).Gives w reply v := by
  unfold World.perform at performs
  have inner : Reentry.deepest.perform c = c.perform Reentry.outer := rfl
  rw [inner] at performs
  change (c.perform Reentry.outer).run.run w = _
  rcases outcome : (c.perform Reentry.outer).run.run w with ⟨(e | _) | _, x⟩ <;>
    rw [outcome] at performs
  · cases performs
    exact ok.elim
  · cases performs
  · cases performs
    rfl

theorem registerAll_same (extensions : List (String × ExtensionAction)) (w : World) :
    ∃ known serial, w.registerAll extensions =
      { w with extensions := known, nextSerial := serial } := by
  induction extensions generalizing w with
  | nil => exact ⟨_, _, rfl⟩
  | cons e rest ih =>
    obtain ⟨known, serial, same⟩ := ih ((Act.register e.1 e.2).run.run w).2
    exact ⟨known, serial, same⟩

/-- A new engine keeps its setup and the names of its extensions, and nothing else. -/
theorem start_same {setup : Setup} (started : World.start setup = .ok w) :
    ∃ known serial, w =
      { queries := setup.queries, extensions := known, nextSerial := serial
        bus := { ceiling := setup.maxNotifyCycles }
        parsers := { capacity := setup.parserPoolCapacity } } := by
  unfold World.start at started
  split at started
  · obtain ⟨known, serial, same⟩ :=
      registerAll_same (("select", .select) :: setup.extensions) { queries := setup.queries }
    simp only [bare, same, Except.ok.injEq] at started
    exact ⟨known, serial, started.symm⟩
  · cases started

/-- A world in which nothing has been made is at rest. -/
theorem Resting.of_blank (plain : ∀ e ∈ w.queries, e.2.isPlain = true) (heap : w.heap = {})
    (bus : w.bus = { ceiling := w.bus.ceiling }) (desk : w.desk = {}) (cache : w.cache = {})
    (patterns : w.patterns = {}) : Resting D M [] [] w := by
  have nowhere : ∀ l cell, w.heap.cell? l ≠ some cell := fun l cell here => by
    simp [heap, Heap.cell?] at here
  have queue : w.bus.queue = {} := by rw [bus]
  have scheduler : w.bus.scheduler = {} := by rw [bus]
  have listeners : w.bus.listeners = #[] := by rw [bus]
  have fits : w.Fits [] [] := by
    refine ⟨⟨rfl, by rw [heap]; rfl, fun r v member => ?_, fun r e member => ?_⟩,
      ⟨plain, by simp [cache], by rw [patterns]; exact .empty⟩, by simp [desk], by simp⟩
    · obtain ⟨c, here, -⟩ := Heap.exists_of_mem_items member
      exact absurd here (nowhere _ _)
    · obtain ⟨c, here, -⟩ := Heap.exists_of_mem_fields member
      exact absurd here (nowhere _ _)
  constructor
  case sound =>
    constructor
    case fits => exact ⟨[], fits⟩
    case closed => exact ⟨by simp [desk, FieldMap.values, Value.placesOfItems],
      fun l cell here => absurd here (nowhere l cell)⟩
    case number => rw [bus, heap]; rfl
    case sinks => exact fun l cell here => absurd here (nowhere l cell)
    case listeners => simp [listeners]
    case owned => exact fun l c here => absurd here (nowhere l _)
    case guarded => exact fun l cell here => absurd here (nowhere l cell)
    all_goals simp
  case queued =>
    refine ⟨by simp [scheduler], by rw [queue]; exact Queue.indexed_empty, fun p e waits => ?_⟩
    rw [queue, Queue.waiting?_empty] at waits
    cases waits
  case fits => exact fits
  case idle =>
    exact ⟨by rw [bus], by rw [scheduler], by rw [scheduler], by rw [queue]; rfl⟩
  case fresh => simp

/-- A new engine is at rest. -/
theorem Resting.start {setup : Setup} (plain : ∀ e ∈ setup.queries, e.2.isPlain = true)
    (started : World.start setup = .ok w) : Resting D M [] [] w := by
  obtain ⟨known, serial, rfl⟩ := start_same started
  exact .of_blank plain rfl rfl rfl rfl rfl

end World

/-- Runs of a caller, with the live queries that were asked for.  The places of results may change,
and nothing that may change is stored; `D` says whether the run keeps to what live queries ask of
the values. -/
inductive Run (D : Prop) (M : Nat → Prop) : List LiveQuery → World → Prop
  | start {setup : Setup} {w : World} (plain : ∀ e ∈ setup.queries, e.2.isPlain = true)
    (started : World.start setup = .ok w) : Run D M [] w
  | perform {qs : List LiveQuery} {w v : World} {c : Command} {reply : Reply} (run : Run D M qs w)
    (ready : c.core.Steady Reentry.outer.dispatch (fun w => D → w.Tame qs) w)
    (allowed : c.core.Allowed D M qs w.desk.names)
    (performs : w.perform c = some (reply, v)) (ok : reply.Ok) : Run D M qs v
  | ask {qs : List LiveQuery} {w u v : World} {c : Command} {source result : Ref}
    {items params : List Term} {text : String} {place : Nat} {values : List Value} {q : LiveQuery}
    (run : Run D M qs w) (asks : c.core.Asks M w source items text params place) (may : M place)
    (read : (World.readsArguments items params).Gives w values u)
    (performs : w.perform c = some (.value (.collection result), v))
    (makes : World.Makes place source text values result v q) : Run D M (q :: qs) v

namespace World

variable {D : Prop} {M : Nat → Prop} {qs : List LiveQuery} {u v w : World} {reply : Reply}
  {q r : LiveQuery}

/-- A live query is told by what was asked and by what it was compiled to. -/
theorem Makes.unique {place : Nat} {source result : Ref} {text : String} {params : List Value}
    (first : Makes place source text params result v q)
    (second : Makes place source text params result v r) : q = r := by
  have definition : q.definition = r.definition :=
    Option.some.inj (first.known.symm.trans second.known)
  have dependencies : q.dependencies = r.dependencies :=
    Option.some.inj (first.follows.symm.trans (definition ▸ second.follows))
  obtain ⟨_, _, _, _, _, _⟩ := q
  obtain ⟨_, _, _, _, _, _⟩ := r
  obtain ⟨rfl, -, rfl, rfl, rfl, -, -⟩ := first
  obtain ⟨rfl, -, rfl, rfl, rfl, -, -⟩ := second
  cases definition
  cases dependencies
  rfl

end World

namespace Run

variable {D : Prop} {M : Nat → Prop} {qs : List LiveQuery} {u v w : World} {reply : Reply}

/-- Asking for a live query makes one. -/
theorem replies_of_asks {containers : List Value} {c : Command} {source : Ref}
    {items params : List Term} {text : String} {place : Nat}
    (resting : World.Resting D M qs containers w)
    (asks : c.core.Asks M w source items text params place) (may : M place)
    (performs : w.perform c = some (reply, v)) (ok : reply.Ok) : ∃ values u result q,
      (World.readsArguments items params).Gives w values u ∧ reply = .value (.collection result) ∧
        World.Makes place source text values result v q ∧ World.Replies D M (q :: qs) reply v := by
  have settles : World.Settles Reentry.outer.dispatch := World.settles_within 19997
  have gives := World.gives_of_perform performs ok
  obtain ⟨x, desk, core, rfl, -⟩ := World.gives_core gives
  obtain ⟨values, u, result, q, read, same, makes, replies⟩ :=
    resting.perform_asks settles asks may core
  refine ⟨values, u, result, q, read, same, ⟨makes.made, makes.place, makes.base, makes.asked,
    makes.given, makes.known, makes.follows⟩, .of_core gives fun y core' => ?_⟩
  obtain ⟨-, rfl⟩ := core.unique core'
  exact replies

/-- Every world of a run is at rest. -/
theorem resting (run : Run D M qs w) : ∃ containers, World.Resting D M qs containers w := by
  have settles : World.Settles Reentry.outer.dispatch := World.settles_within 19997
  induction run with
  | start plain started => exact ⟨[], .start plain started⟩
  | perform run ready allowed performs ok ih =>
    obtain ⟨containers, resting⟩ := ih
    have gives := World.gives_of_perform performs ok
    obtain ⟨more, after, -⟩ := World.Replies.of_core gives fun u core =>
      resting.perform settles ready allowed core ok
    exact ⟨more, after⟩
  | ask run asks may read performs makes ih =>
    obtain ⟨containers, resting⟩ := ih
    obtain ⟨values', u', result', q', read', same, makes', more, after, -⟩ :=
      replies_of_asks resting asks may performs trivial
    obtain ⟨rfl, -⟩ := read.unique read'
    cases same
    obtain rfl := makes.unique makes'
    exact ⟨more, after⟩

end Run

end ReactiveQuery
