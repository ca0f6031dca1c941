import ReactiveQuery.Proofs.Session.Snapshot

/-! What a live query follows, and the changes that it misses.  It follows an argument by its
identity and the content of its source and of arguments alone, so what a path comes to behind an
argument or in a field may change unnoticed; and a write that takes back an earlier one in a batch
tells nobody. -/

namespace ReactiveQuery

theorem List.exists_of_mem_mapM_eq_some {α β : Type} {f : α → Option β} {xs : List α}
    {ys : List β} (found : xs.mapM f = some ys) {y : β} (member : y ∈ ys) :
    ∃ x ∈ xs, f x = some y := by
  induction xs generalizing ys with
  | nil =>
    simp only [List.mapM_nil, pure, Option.some.injEq] at found
    simp [← found] at member
  | cons x xs ih =>
    simp only [List.mapM_cons, Option.bind_eq_bind, Option.bind_eq_some_iff, pure,
      Option.some.injEq] at found
    obtain ⟨z, first, zs, rest, rfl⟩ := found
    rcases List.mem_cons.mp member with rfl | member
    · exact ⟨x, List.mem_cons_self, first⟩
    · obtain ⟨x', inside, here⟩ := ih rest member
      exact ⟨x', List.mem_cons_of_mem _ inside, here⟩

namespace Dependency

variable {h : Heap} {params : List Value} {p : Path} {ds : List Dependency} {d : Dependency}

theorem mem_ofKey {wrap : Topic → Dependency} {target : Option Nat} {key : String}
    (member : d ∈ ofKey wrap target key) :
    ∃ k, k ≠ .content ∧ d = wrap ⟨target, some k⟩ := by
  unfold ofKey at member
  split at member
  · simp only [List.mem_cons, List.not_mem_nil, or_false] at member
    rcases member with rfl | rfl
    · exact ⟨.field key, nofun, rfl⟩
    · exact ⟨.length, nofun, rfl⟩
  · exact ⟨.field key, nofun, List.mem_singleton.mp member⟩

/-- Keys are followed on one target, and content is no key. -/
theorem mem_along {wrap : Topic → Dependency} {target : Option Nat} {keys : List String}
    {computed : Bool} (member : d ∈ keys.flatMap (ofKey wrap target) ++
      if computed then [wrap ⟨target, none⟩] else []) :
    ∃ k, k ≠ some .content ∧ d = wrap ⟨target, k⟩ := by
  rcases List.mem_append.mp member with written | wild
  · obtain ⟨key, -, inside⟩ := List.mem_flatMap.mp written
    obtain ⟨k, other, rfl⟩ := mem_ofKey inside
    exact ⟨some k, by simpa using other, rfl⟩
  · cases computed with
    | false => cases wild
    | true => exact ⟨none, nofun, List.mem_singleton.mp wild⟩

/-- A path from the record at hand follows keys on any record, and never content. -/
theorem mem_ofPath_here {cs : List Component} (all : ofPath h params ⟨.here, cs⟩ = some ds)
    (member : d ∈ ds) : ∃ k, k ≠ some .content ∧ d = .record ⟨none, k⟩ := by
  simp only [ofPath, Option.bind_eq_bind, Option.bind_eq_some_iff, pure, Option.some.injEq] at all
  obtain ⟨keys, -, rfl⟩ := all
  exact mem_along member

/-- A path from an argument follows nothing but what is identified by the argument itself. -/
theorem mem_ofPath_arg {i : Nat} {cs : List Component}
    (all : ofPath h params ⟨.arg i, cs⟩ = some ds) (member : d ∈ ds) :
    ∃ k, d = .query ⟨(params[i]?).bind Value.id?, k⟩ := by
  simp only [ofPath, Option.bind_eq_bind, Option.bind_eq_some_iff, pure, Option.some.injEq] at all
  obtain ⟨keys, -, rfl⟩ := all
  rcases List.mem_append.mp member with content | along
  · split at content
    · next r given =>
      rw [List.mem_singleton.mp content, given]
      exact ⟨_, rfl⟩
    · cases content
  · obtain ⟨k, -, rfl⟩ := mem_along along
    exact ⟨k, rfl⟩

/-- Everything that is followed is the content of the source or comes from a path. -/
theorem mem_all {source : Ref} {q : Definition} (all : Dependency.all h source q params = some ds)
    (member : d ∈ ds) : d = .source ⟨some source.id, some .content⟩ ∨
      ∃ p ∈ q.paths, ∃ es, ofPath h params p = some es ∧ d ∈ es := by
  simp only [Dependency.all, Option.bind_eq_bind, Option.bind_eq_some_iff, pure,
    Option.some.injEq] at all
  obtain ⟨lists, found, rfl⟩ := all
  rcases List.mem_cons.mp member with rfl | member
  · exact .inl rfl
  · obtain ⟨es, inside, here⟩ := List.mem_flatten.mp member
    obtain ⟨p, path, listed⟩ := List.exists_of_mem_mapM_eq_some found inside
    exact .inr ⟨p, path, es, listed, here⟩

end Dependency

namespace LiveQuery

variable {q : LiveQuery} {h : Heap} {t : Nat}

/-- A live query hears of the content of its source and of collections among its arguments, and of
no other content: not of a collection in a field, whatever its paths read there. -/
theorem source_or_argument_of_hears
    (follows : Dependency.all h q.source q.definition q.params = some q.dependencies)
    (hears : q.Hears (t, .content)) : t = q.source.id ∨ t ∈ collectionIds q.params := by
  obtain ⟨d, member, topic, accepts⟩ := hears
  rcases Dependency.mem_all follows member with rfl | ⟨⟨root, cs⟩, -, es, here, inside⟩
  · refine .inl ?_
    simp only [Dependency.topic, Event.topics, List.mem_cons, Topic.mk.injEq] at topic
    simpa [eq_comm] using topic
  · cases root with
    | here =>
      obtain ⟨k, -, rfl⟩ := Dependency.mem_ofPath_here here inside
      simp [route, Route.accepts] at accepts
    | arg i =>
      obtain ⟨k, rfl⟩ := Dependency.mem_ofPath_arg here inside
      refine .inr ?_
      simpa [route, Route.accepts] using accepts

/-- A live query over one source with a path of two keys that starts at a record. -/
def behind : LiveQuery where
  result := ⟨4, 5⟩
  source := ⟨3, 4⟩
  text := "match"
  params := [.record ⟨1, 2⟩]
  definition :=
    { filter := .literal (.bool true), select := none, sort := none, sortFirst := false
      paths := [⟨.arg 0, [.key (.text "inner"), .key (.text "x")]⟩] }
  dependencies := [.source ⟨some 4, some .content⟩, .query ⟨some 2, some (.field "inner")⟩,
    .query ⟨some 2, some (.field "x")⟩]

theorem behind_hears_source : behind.Hears (4, .content) ∧
    (4 = behind.source.id ∨ 4 ∈ collectionIds behind.params) := by
  have hears : behind.Hears (4, .content) := ⟨_, List.mem_cons_self, by decide, rfl⟩
  exact ⟨hears, source_or_argument_of_hears (h := {}) (by decide +kernel) hears⟩

/-- A record with a collection in a field, and a query that asks what is in there. -/
def tagged : World :=
  ((World.start { queries := [("tagged", { filter := some (.tagged "in"
      [.literal (.text "x"), .path .here [.key (.text "tags")]]) })] }).toOption.getD {}).play
    [.bind "c" (.newCollection [] none),
      .bind "r" (.newRecord [("tags", .named "c")] none),
      .bind "s" (.newCollection [.named "r"] none),
      .bind "l" (.live "s" "tagged" []),
      .onCollection "c" (.push (.text "x"))]

/-- The query reads the items of the collection in the field, and misses that one is added. -/
theorem stale_of_tagged : tagged.Stale ⟨3, 4⟩ ⟨2, 3⟩ "tagged" [] :=
  ⟨⟨4, 5⟩, _, Act.gives_of_toOption (by decide +kernel), by decide +kernel⟩

/-- A live query whose paths start at observable arguments hears of fields of these arguments
alone: not of records behind them, whatever its paths read there. -/
theorem argument_of_hears {key : String}
    (follows : Dependency.all h q.source q.definition q.params = some q.dependencies)
    (roots : ∀ p ∈ q.definition.paths, ∃ i id, p.root = .arg i ∧
      (q.params[i]?).bind Value.id? = some id)
    (hears : q.Hears (t, .field key)) :
    ∃ p ∈ q.definition.paths, ∃ i, p.root = .arg i ∧ (q.params[i]?).bind Value.id? = some t := by
  obtain ⟨d, member, topic, -⟩ := hears
  rcases Dependency.mem_all follows member with rfl | ⟨⟨root, cs⟩, path, es, here, inside⟩
  · simp [Dependency.topic, Event.topics] at topic
  · obtain ⟨i, id, rfl, observable⟩ := roots _ path
    obtain ⟨k, rfl⟩ := Dependency.mem_ofPath_arg here inside
    refine ⟨_, path, i, rfl, ?_⟩
    rw [observable] at topic ⊢
    simp only [Dependency.topic, Event.topics, List.mem_cons, Topic.mk.injEq] at topic
    rcases topic with ⟨same, -⟩ | ⟨⟨⟩, -⟩ | ⟨same, -⟩ | ⟨⟨⟩, -⟩ | ⟨⟨⟩⟩
    · exact same
    · exact same

theorem behind_hears_argument : behind.Hears (2, .field "x") ∧
    ∃ p ∈ behind.definition.paths, ∃ i, p.root = .arg i ∧
      (behind.params[i]?).bind Value.id? = some 2 := by
  have hears : behind.Hears (2, .field "x") :=
    ⟨_, List.mem_cons_of_mem _ (List.mem_cons_of_mem _ List.mem_cons_self), by decide, rfl⟩
  exact ⟨hears, argument_of_hears (h := {}) (by decide +kernel) (by simp [behind, Value.id?]) hears⟩

/-- A record with a field of its own, given as an argument, and a query that compares with it. -/
def nested : World :=
  ((World.start { queries := [("match", { filter := some (.tagged "eq"
      [.path .here [.key (.text "y")], .path (.arg 0) [.key (.text "inner"), .key (.text "x")]]) })]
    }).toOption.getD {}).play
    [.bind "b" (.newRecord [("x", .number .one)] none),
      .bind "a" (.newRecord [("inner", .named "b")] none),
      .bind "r" (.newRecord [("y", .number .one)] none),
      .bind "s" (.newCollection [.named "r"] none),
      .bind "l" (.live "s" "match" [.named "a"]),
      .onRecord "b" (.write "x" (.number (.ofNat 2)))]

/-- The path leaves the argument for the record in its field, and the write there is missed. -/
theorem stale_of_nested : nested.Stale ⟨4, 5⟩ ⟨3, 4⟩ "match" [.record ⟨1, 2⟩] :=
  ⟨⟨5, 6⟩, _, Act.gives_of_toOption (by decide +kernel), by decide +kernel⟩

end LiveQuery

/-- A write that goes back to the value before the waiting event takes the event away: whoever has
begun to follow the pair in the meantime is not told, and other pairs wait as they did. -/
theorem Queue.enqueue_back_cancels {q : Queue} (indexed : q.Indexed) {e waiting : Event}
    (waits : q.waiting? e.pair = some waiting) (back : e.new.strictEq waiting.old = true)
    (pair : Nat × EventKey) :
    (q.enqueue e).waiting? pair = if pair = e.pair then none else q.waiting? pair := by
  rw [indexed.waiting?_enqueue, waits]
  simp only [back, if_true]

theorem Queue.enqueue_back_cancels_one :
    (((({} : Queue).enqueue ⟨1, .field "x", .bool true, .null⟩).enqueue
      ⟨1, .field "x", .null, .bool true⟩).waiting? (1, .field "x")).isNone = true := by
  rw [Queue.enqueue_back_cancels (Queue.indexed_empty.enqueue _) (by rfl) (by rfl)]
  rfl

/-- A field is written, a live query is asked for, and the field is written back, all in one batch.
Another live query has made the first write wait. -/
def reverted : World :=
  ((World.start { queries := [("two", { filter := some (.tagged "eq"
      [.path .here [.key (.text "x")], .literal (.number (.ofNat 2))]) })] }).toOption.getD {}).play
    [.bind "r" (.newRecord [("x", .number .one)] none),
      .bind "s" (.newCollection [.named "r"] none),
      .bind "l" (.live "s" "two" []),
      .batch [.onRecord "r" (.write "x" (.number (.ofNat 2))), .bind "m" (.live "s" "two" []),
        .onRecord "r" (.write "x" (.number .one))]]

/-- The query asked for in the batch has read the value in between and keeps it. -/
theorem stale_of_reverted : reverted.Stale ⟨3, 4⟩ ⟨1, 2⟩ "two" [] :=
  ⟨⟨4, 5⟩, _, Act.gives_of_toOption (by decide +kernel), by decide +kernel⟩

end ReactiveQuery
