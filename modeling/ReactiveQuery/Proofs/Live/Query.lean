import ReactiveQuery.Engine.Live
import ReactiveQuery.Proofs.Query.Locality
import ReactiveQuery.Proofs.Query.Recorded

/-! Live queries and what they follow.  Whatever a query reads by a key is read by a key that it
follows, and it follows the content of its source and of the arguments that its paths start at. -/

namespace ReactiveQuery

/-- What a step comes from. -/
theorem Component.AllBecome.exists_of_mem :
  ∀ {cs : List Component} {steps : List Step} {step : Step},
    Component.AllBecome cs steps → step ∈ steps → ∃ c ∈ cs, c.Becomes step
  | [], [], _, _, member => absurd member List.not_mem_nil
  | [], _ :: _, _, become, _ | _ :: _, [], _, become, _ => become.elim
  | c :: cs, s :: steps, step, become, member => by
    rcases List.mem_cons.mp member with rfl | member
    · exact ⟨c, List.mem_cons_self, become.1⟩
    · obtain ⟨c', inside, becomes⟩ := become.2.exists_of_mem member
      exact ⟨c', List.mem_cons_of_mem _ inside, becomes⟩

theorem Component.AllBecome.length_eq {cs : List Component} {steps : List Step}
    (become : Component.AllBecome cs steps) : steps.length = cs.length := by
  induction cs generalizing steps with
  | nil =>
    cases steps with
    | nil => rfl
    | cons _ _ => exact become.elim
  | cons c cs ih =>
    cases steps with
    | nil => exact become.elim
    | cons _ _ => simp [ih become.2]

theorem List.exists_of_mapM_eq_some {α β : Type} {f : α → Option β} {xs : List α} {ys : List β}
    (given : xs.mapM f = some ys) : ∀ x ∈ xs, ∃ y ∈ ys, f x = some y := by
  induction xs generalizing ys with
  | nil => nofun
  | cons x xs ih =>
    rw [List.mapM_cons] at given
    simp only [Option.bind_eq_bind, Option.bind_eq_some_iff, pure, Option.some.injEq] at given
    obtain ⟨y, first, rest, others, rfl⟩ := given
    refine List.forall_mem_cons.mpr ⟨⟨y, List.mem_cons_self, first⟩, fun x' member => ?_⟩
    obtain ⟨y', member', here⟩ := ih others x' member
    exact ⟨y', List.mem_cons_of_mem _ member', here⟩

theorem List.exists_mem_of_mapM_eq_some {α β : Type} {f : α → Option β} {xs : List α}
    {ys : List β} (given : xs.mapM f = some ys) : ∀ y ∈ ys, ∃ x ∈ xs, f x = some y := by
  induction xs generalizing ys with
  | nil =>
    obtain rfl : [] = ys := by simpa using given
    nofun
  | cons x xs ih =>
    rw [List.mapM_cons] at given
    simp only [Option.bind_eq_bind, Option.bind_eq_some_iff, pure, Option.some.injEq] at given
    obtain ⟨y, first, rest, others, rfl⟩ := given
    refine List.forall_mem_cons.mpr ⟨⟨x, List.mem_cons_self, first⟩, fun y' member => ?_⟩
    obtain ⟨x', member', here⟩ := ih others y' member
    exact ⟨x', List.mem_cons_of_mem _ member', here⟩

theorem List.mapM_option_congr {α β : Type} {f g : α → Option β} {xs : List α}
    (same : ∀ x ∈ xs, f x = g x) : xs.mapM f = xs.mapM g := by
  induction xs with
  | nil => rfl
  | cons x xs ih =>
    rw [List.mapM_cons, List.mapM_cons, same x List.mem_cons_self,
      ih fun y member => same y (List.mem_cons_of_mem _ member)]

/-- A path names a field: it has a written key with that text, or a computed key, which may come to
any text. -/
def Path.Names (p : Path) (h : Heap) (key : String) : Prop :=
  p.hasComputedKey = true ∨ ∃ v, .key v ∈ p.components ∧ h.text v = some key

namespace Path.Names

variable {p : Path} {h : Heap} {key : String}

/-- The names of a path are those of its steps. -/
theorem covered {steps : List Step} (become : Component.AllBecome p.components steps) (loc : Nat) :
    ∀ step ∈ steps, step.Covered h (fun _ => p.Names h) loc := by
  intro step member
  obtain ⟨c, inside, becomes⟩ := become.exists_of_mem member
  cases c with
  | key v =>
    obtain rfl : step = .key v := becomes
    exact fun s text => .inr ⟨v, inside, text⟩
  | computed n =>
    have computed : p.hasComputedKey = true := List.any_eq_true.mpr ⟨_, inside, rfl⟩
    cases step with
    | key _ => exact fun _ _ => .inl computed
    | computed _ => exact fun _ => .inl computed

/-- What a path names is followed along it. -/
theorem along {keys : List String} (names : p.Names h key) (texts : p.literalKeys h = some keys)
    (wrap : Topic → Dependency) (target : Option Nat) :
    ∃ k, (k = none ∨ k = some (.field key)) ∧ wrap ⟨target, k⟩ ∈
      keys.flatMap (Dependency.ofKey wrap target) ++
        if p.hasComputedKey then [wrap ⟨target, none⟩] else [] := by
  rcases names with computed | ⟨v, written, text⟩
  · exact ⟨none, .inl rfl, List.mem_append_right _ (by simp [computed])⟩
  · obtain ⟨s, listed, text'⟩ := List.exists_of_mapM_eq_some texts v
      (List.mem_filterMap.mpr ⟨_, written, rfl⟩)
    obtain rfl : key = s := Option.some.inj (text.symm.trans text')
    refine ⟨some (.field key), .inr rfl,
      List.mem_append_left _ (List.mem_flatMap.mpr ⟨key, listed, ?_⟩)⟩
    unfold Dependency.ofKey
    split <;> exact List.mem_cons_self

/-- What a path names is among what it depends on, by name or because all fields are. -/
theorem exists_dependency {params : List Value} {ds : List Dependency} (names : p.Names h key)
    (found : Dependency.ofPath h params p = some ds) :
    ∃ d ∈ ds, d.topic.key = none ∨ d.topic.key = some (.field key) := by
  simp only [Dependency.ofPath, Option.bind_eq_bind, Option.bind_eq_some_iff] at found
  obtain ⟨keys, texts, found⟩ := found
  cases root : p.root with
  | here =>
    simp only [root, pure, Option.some.injEq] at found
    obtain ⟨k, named, followed⟩ := names.along texts .record none
    exact ⟨.record ⟨none, k⟩, found ▸ followed, named⟩
  | arg i =>
    simp only [root, pure, Option.some.injEq] at found
    obtain ⟨k, named, followed⟩ := names.along texts .query ((params[i]?).bind Value.id?)
    exact ⟨.query ⟨_, k⟩, found ▸ List.mem_append_right _ followed, named⟩

theorem of_text {k : Heap} (names : p.Names h key)
    (same : ∀ v, .key v ∈ p.components → k.text v = h.text v) : p.Names k key :=
  names.imp_right fun ⟨v, written, text⟩ => ⟨v, written, (same v written).trans text⟩

end Path.Names

/-- What a plain path depends on is the same in every heap. -/
theorem Dependency.ofPath_plain {p : Path} (plain : p.Plain) (params : List Value) (h k : Heap) :
    ofPath h params p = ofPath k params p := by
  have keys : p.literalKeys h = p.literalKeys k := by
    refine List.mapM_option_congr fun v member => Heap.text_plain ?_ h k
    obtain ⟨c, inside, here⟩ := List.mem_filterMap.mp member
    cases c with
    | key v' =>
      cases here
      exact plain v inside
    | computed _ => cases here
  simp only [ofPath, keys]

theorem Dependency.all_plain {d : Definition} (plain : ∀ p ∈ d.paths, p.Plain) (source : Ref)
    (params : List Value) (h k : Heap) : all h source d params = all k source d params := by
  unfold all
  rw [List.mapM_option_congr fun p member => ofPath_plain (plain p member) params h k]

/-- A live query: what was asked, what that was compiled to, and what it follows. -/
structure LiveQuery where
  result : Ref
  source : Ref
  text : String
  params : List Value
  definition : Definition
  dependencies : List Dependency

namespace LiveQuery

/-- The job that refreshes the result. -/
def job (q : LiveQuery) : Job := .refresh q.result q.source q.definition q.params

def context (q : LiveQuery) : Context := ⟨q.source, q.params⟩

/-- The way in which a dependency reaches the query. -/
def route (q : LiveQuery) : Dependency → Route
  | .source _ => .source
  | .query _ => .query (collectionIds q.params)
  | .record _ => .record

/-- Does an event on a pair of target and key make the result stale? -/
def Hears (q : LiveQuery) (pair : Nat × EventKey) : Prop :=
  ∃ d ∈ q.dependencies, d.topic ∈ Event.topics pair.1 pair.2 ∧
    (q.route d).accepts ⟨pair.1, pair.2, .null, .null⟩ = true

/-- The source, and the collections among the arguments that some path starts at. -/
def Uses (q : LiveQuery) (loc : Nat) : Prop :=
  loc = q.source.loc ∨ ∃ p ∈ q.definition.paths, ∃ i r, p.root = .arg i ∧
    q.params[i]? = some (.collection r) ∧ r.loc = loc

/-- A live query as it can come about in a run of a given size. -/
structure Formed (containers : List Value) (size : Nat) (q : LiveQuery) : Prop where
  result : (Value.collection q.result).Fits containers size
  source : (Value.collection q.source).Fits containers size
  params : ∀ v ∈ q.params, v.Fits containers size
  definition : q.definition.Sound containers size
  follows : ∃ h, Dependency.all h q.source q.definition q.params = some q.dependencies

/-- Wherever the query reads by a key, the key is among those given for the place. -/
def Reads (q : LiveQuery) (h : Heap) (F : Nat → String → Prop) : Prop :=
  ∀ root steps, Definition.Records q.definition.paths root steps → q.context.Walks h F root steps

/-- Paths from arguments take no more than one step, and collections among the arguments hold no
records and no collections. -/
def Shallow (q : LiveQuery) (h : Heap) : Prop :=
  ∀ p ∈ q.definition.paths, ∀ i, p.root = .arg i → p.components.length ≤ 1 ∧
    ∀ r, q.params[i]? = some (.collection r) → ∀ v ∈ h.items r, v.places = []

theorem reads_all (q : LiveQuery) (h : Heap) : q.Reads h fun _ _ => True := by
  intro root steps _
  have covered : ∀ step ∈ steps, ∀ loc, step.Covered h (fun _ _ => True) loc := fun step _ _ => by
    cases step <;> simp [Step.Covered]
  cases root with
  | here => exact covered
  | arg i => exact .inl covered

variable {q : LiveQuery} {containers : List Value} {size : Nat}

theorem Formed.later {more : List Value} {larger : Nat} (formed : q.Formed containers size)
    (grown : containers <+: more) (bigger : size ≤ larger) : q.Formed more larger where
  result := formed.result.later grown bigger
  source := formed.source.later grown bigger
  params v member := (formed.params v member).later grown bigger
  definition := formed.definition.later grown bigger
  follows := formed.follows

/-- What a path gives rise to is followed. -/
theorem Formed.path_follows (formed : q.Formed containers size) {p : Path}
    (member : p ∈ q.definition.paths) :
    ∃ h ds, Dependency.ofPath h q.params p = some ds ∧ ∀ d ∈ ds, d ∈ q.dependencies := by
  obtain ⟨h, all⟩ := formed.follows
  simp only [Dependency.all, Option.bind_eq_bind, Option.bind_eq_some_iff, pure,
    Option.some.injEq] at all
  obtain ⟨lists, found, listed⟩ := all
  obtain ⟨ds, inside, here⟩ := List.exists_of_mapM_eq_some found p member
  refine ⟨h, ds, here, fun d member => ?_⟩
  rw [← listed]
  exact List.mem_cons_of_mem _ (List.mem_flatten.mpr ⟨ds, inside, member⟩)

theorem Formed.hears_source (formed : q.Formed containers size) :
    q.Hears (q.source.loc + 1, .content) := by
  obtain ⟨h, all⟩ := formed.follows
  have number : q.source.id = q.source.loc + 1 := formed.source.1
  simp only [Dependency.all, Option.bind_eq_bind, Option.bind_eq_some_iff, pure,
    Option.some.injEq] at all
  obtain ⟨lists, -, listed⟩ := all
  refine ⟨.source ⟨some q.source.id, some .content⟩, ?_, ?_, rfl⟩
  · rw [← listed]
    exact List.mem_cons_self
  · simp [Dependency.topic, Event.topics, number]

theorem mem_collectionIds {params : List Value} {r : Ref} (member : .collection r ∈ params) :
    r.id ∈ collectionIds params :=
  List.mem_filterMap.mpr ⟨_, member, rfl⟩

/-- The query hears of the content of what it uses. -/
theorem Formed.hears_content (formed : q.Formed containers size) {loc : Nat} (uses : q.Uses loc) :
    q.Hears (loc + 1, .content) := by
  rcases uses with rfl | ⟨p, member, i, r, root, param, rfl⟩
  · exact formed.hears_source
  · obtain ⟨h, ds, found, follows⟩ := formed.path_follows member
    have among : .collection r ∈ q.params := List.mem_of_getElem? param
    have number : r.id = r.loc + 1 := (formed.params _ among).1
    simp only [Dependency.ofPath, root, param, Option.bind_eq_bind, Option.bind_eq_some_iff, pure,
      Option.some.injEq] at found
    obtain ⟨keys, -, listed⟩ := found
    refine ⟨.query ⟨some r.id, some .content⟩, follows _ ?_, ?_, ?_⟩
    · rw [← listed]
      simp
    · simp [Dependency.topic, Event.topics, number]
    · have inside := mem_collectionIds among
      rw [number] at inside
      simp [route, Route.accepts, inside]

/-- Followed keys cover the steps of their path, at every place that the target lets through. -/
theorem covered {p : Path} {steps : List Step} {h : Heap} {keys : List String}
    {wrap : Topic → Dependency} {target : Option Nat} {loc : Nat} (plain : p.Plain)
    (texts : p.literalKeys h = some keys) (become : Component.AllBecome p.components steps)
    (topic : ∀ t, (wrap t).topic = t)
    (accepts : ∀ t l key, key ≠ .content → (q.route (wrap t)).accepts ⟨l, key, .null, .null⟩ = true)
    (reaches : target = none ∨ target = some (loc + 1))
    (follows : ∀ d ∈ keys.flatMap (Dependency.ofKey wrap target) ++
      (if p.hasComputedKey then [wrap ⟨target, none⟩] else []), d ∈ q.dependencies) (k : Heap) :
    ∀ step ∈ steps, step.Covered k (fun l key => q.Hears (l + 1, .field key)) loc := by
  refine fun step member => (Path.Names.covered become loc step member).mono fun key names => ?_
  have known : p.Names h key := names.of_text fun v written => Heap.text_plain (plain v written) h k
  obtain ⟨topicKey, named, followed⟩ := known.along texts wrap target
  refine ⟨_, follows _ followed, ?_, accepts _ _ _ (by simp)⟩
  rw [topic]
  rcases reaches with rfl | rfl <;> rcases named with rfl | rfl <;> simp [Event.topics]

/-- A walk that takes its first step from a record, takes it from the argument itself. -/
theorem Formed.record_of_drill (formed : q.Formed containers size) {h : Heap} {i : Nat} {r : Ref}
    (flat : ∀ r, q.params[i]? = some (.collection r) → ∀ v ∈ h.items r, v.places = [])
    (drilled : h.drill (q.context.param i) = some (.record r)) :
    q.params[i]? = some (.record r) ∧ r.id = r.loc + 1 := by
  simp only [Context.param, context] at drilled
  cases given : q.params[i]? with
  | none => simp [given, Heap.drill] at drilled
  | some v =>
    have fits := formed.params v (List.mem_of_getElem? given)
    simp only [given, Option.getD_some] at drilled
    cases v with
    | record r' =>
      simp only [Heap.drill, Option.some.injEq, Value.record.injEq] at drilled
      subst drilled
      exact ⟨rfl, fits.1⟩
    | collection c =>
      simp only [Heap.drill] at drilled
      split at drilled
      · cases drilled
      · cases drilled
      · next v rest _ listed =>
        rw [Option.some.injEq] at drilled
        have first : .record r ∈ h.items c := by
          rw [listed, drilled]
          exact List.mem_cons_self
        exact absurd (flat c given _ first) (by simp [Value.places])
    | _ => simp [Heap.drill] at drilled

/-- Wherever the query reads by a key it hears of changes there, if it is shallow. -/
theorem Formed.reads (formed : q.Formed containers size) {h : Heap} (shallow : q.Shallow h) :
    q.Reads h fun l key => q.Hears (l + 1, .field key) := by
  rintro root steps ⟨cs, member, become⟩
  have plain := formed.definition.paths _ member
  obtain ⟨h₀, ds, found, follows⟩ := formed.path_follows member
  cases root with
  | here =>
    simp only [Dependency.ofPath, Option.bind_eq_bind, Option.bind_eq_some_iff, pure,
      Option.some.injEq] at found
    obtain ⟨keys, texts, listed⟩ := found
    refine fun step inside loc => covered plain texts become (fun _ => rfl)
      (fun _ _ key other => ?_) (.inl rfl) (listed ▸ follows) h step inside
    simpa [route, Route.accepts] using other
  | arg i =>
    simp only [Dependency.ofPath, Option.bind_eq_bind, Option.bind_eq_some_iff, pure,
      Option.some.injEq] at found
    obtain ⟨keys, texts, listed⟩ := found
    -- A shallow query reads an argument by one step at most, and its items hold no places.
    obtain ⟨short, flat⟩ := shallow _ member i rfl
    rw [← become.length_eq] at short
    rcases steps with _ | ⟨step, _ | ⟨_, _⟩⟩
    · exact .inl (by simp)
    · refine .inr ⟨step, rfl, fun r drilled => ?_⟩
      obtain ⟨param, number⟩ := formed.record_of_drill flat drilled
      have target : some r.id = some (r.loc + 1) := by rw [number]
      have passes : ∀ t l key, key ≠ .content →
          (q.route (.query t)).accepts ⟨l, key, .null, .null⟩ = true := fun _ _ key other => by
        have : (key != .content) = true := by simpa using other
        simp [route, Route.accepts, this]
      refine covered plain texts become (fun _ => rfl) passes (.inr target) (fun d inside => ?_) h
        step (by simp)
      refine follows d ?_
      rw [← listed, param]
      exact List.mem_append_right _ inside
    · simp at short

end LiveQuery

end ReactiveQuery
