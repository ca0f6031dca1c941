import ReactiveQuery.Engine.Catalog
import ReactiveQuery.Proofs.Query.Recorded

/-! The catalogue of compiled queries.  What it gives for a text keeps to the paths that were
recorded when the text was read, and is given for that text ever after. -/

namespace ReactiveQuery

/-- A world that knows only queries without calls, records and collections, and has compiled them
to sound definitions. -/
structure World.Knows (containers : List Value) (w : World) : Prop where
  drafts : ∀ e ∈ w.queries, e.2.isPlain = true
  definitions : ∀ e ∈ w.cache.entries, e.2.Sound containers w.heap.cells.size
  read : w.patterns.Reachable

/-- A world that has gone on to compile queries, and is the same otherwise. -/
structure World.Learns (u v : World) : Prop where
  heap : u.heap.Advances v.heap
  known : ∀ text d, u.cache.entries.lookup text = some d → v.cache.entries.lookup text = some d
  same : v = { u with
    heap := v.heap, patterns := v.patterns, cache := v.cache, parsers := v.parsers }

namespace Act

variable {containers : List Value} {w v : World} {text : String} {d : Definition}

/-- The query of a text is read with the paths of it, the containers in it taking the next tags. -/
theorem gives_parse {query : Query} {paths : List Path}
    (fits : w.heap.Fits containers w.heap.cells.size) (knows : w.Knows containers)
    (gives : (parse text).Gives w (query, paths) v) :
    ∃ more, containers <+: more ∧ v.heap.Fits more w.heap.cells.size ∧ w.heap.Advances v.heap ∧
      (∀ p ∈ paths, p.Plain) ∧
      query.Recorded (Value.PlainFits more w.heap.cells.size) paths.reverse ∧
      v = { w with heap := v.heap, parsers := v.parsers } := by
  unfold parse at gives
  simp only [gives_bind, gives_modify, gives_get] at gives
  obtain ⟨_, _, rfl, _, _, ⟨rfl, rfl⟩, gives⟩ := gives
  split at gives
  · next draft written =>
    simp only [build, gives_bind, gives_onHeap, gives_modify, gives_ofExcept] at gives
    obtain ⟨result, u, ⟨rfl, rfl⟩, _, _, rfl, given, rfl⟩ := gives
    rcases run : (draft.build []).run.run { heap := w.heap } with ⟨error | q, b⟩
    · simp [run, Except.map] at given
    · simp only [run, Except.map, Except.mapError_ok, Except.ok.injEq, Prod.mk.injEq] at given ⊢
      obtain ⟨rfl, rfl⟩ := given
      have plain : draft.isPlain = true := by
        obtain ⟨before, after, listed, -⟩ := List.lookup_eq_some_iff.mp written
        exact knows.drafts (text, draft) (by rw [listed]; simp)
      obtain ⟨more, grown, fits, advances, paths, -, recorded⟩ :=
        QueryDraft.build_recorded plain w.heap q b fits (by simp) run
      refine ⟨more, grown, fits, advances, by simpa using paths, ?_, trivial⟩
      rwa [List.reverse_reverse]
  · simp at gives

/-- The definition of a text is sound, and is the definition of that text from then on. -/
theorem gives_definition (fits : w.heap.Fits containers w.heap.cells.size)
    (knows : w.Knows containers) (gives : (definition text).Gives w d v) :
    ∃ more, containers <+: more ∧ v.heap.Fits more w.heap.cells.size ∧ v.Knows more ∧ w.Learns v ∧
      d.Sound more w.heap.cells.size ∧ v.cache.entries.lookup text = some d := by
  unfold definition at gives
  simp only [gives_bind, gives_get] at gives
  obtain ⟨_, _, ⟨rfl, rfl⟩, gives⟩ := gives
  split at gives
  · next known found =>
    simp only [gives_bind, gives_modify, gives_pure] at gives
    obtain ⟨_, _, rfl, rfl, rfl⟩ := gives
    have member : (text, known) ∈ w.cache.entries := by
      obtain ⟨before, after, listed, -⟩ := List.lookup_eq_some_iff.mp found
      rw [listed]
      simp
    exact ⟨containers, List.prefix_refl _, fits, ⟨knows.drafts, knows.definitions, knows.read⟩,
      ⟨.refl _, fun _ _ => id, rfl⟩, knows.definitions _ member, found⟩
  · next missing =>
    simp only [gives_bind, gives_modify, gives_pure, gives_compile] at gives
    obtain ⟨_, _, rfl, ⟨query, paths⟩, u, parsed, d', _, ⟨patterns, compiled, rfl⟩, _, _, rfl, rfl,
      rfl⟩ := gives
    obtain ⟨more, grown, fits, advances, plain, recorded, same⟩ :=
      gives_parse (w := { w with cache := { w.cache with misses := w.cache.misses + 1 } }) fits
        ⟨knows.drafts, knows.definitions, knows.read⟩ parsed
    have read : u.patterns.Reachable := by
      rw [same]
      exact knows.read
    obtain ⟨code, listed, read⟩ :=
      Query.compile_recorded Value.PlainFits.primitive read recorded compiled
    have sized : u.heap.cells.size = w.heap.cells.size := by rw [advances.same]
    have sound : Definition.Sound more w.heap.cells.size d' := by
      subst listed
      refine ⟨code.mono (fun _ => id) fun _ _ follows => ?_, plain⟩
      obtain ⟨cs, member, become⟩ := follows
      exact ⟨cs, by simpa using member, become⟩
    have cached : u.cache.entries = w.cache.entries := by rw [same]
    refine ⟨more, grown, fits, ⟨?_, ?_, read⟩, ⟨advances, fun other d found => ?_, ?_⟩, sound, ?_⟩
    · rw [same]
      exact knows.drafts
    · rw [sized]
      refine List.forall_mem_cons.mpr ⟨sound, fun e member => ?_⟩
      exact (knows.definitions e (cached ▸ member)).later grown (Nat.le_refl _)
    · have differ : (other == text) = false := by
        refine beq_eq_false_iff_ne.mpr fun this => ?_
        rw [this] at found
        rw [found] at missing
        cases missing
      simpa [QueryCache.insert, List.lookup_cons, differ, cached] using found
    · rw [same]
    · simp [QueryCache.insert]

end Act

end ReactiveQuery
