import Mathlib.Data.List.Forall2
import ReactiveQuery.Proofs.Bus.Made
import ReactiveQuery.Proofs.Query.Folding

/-! What a query refers to.  Building it records its paths and no others, each when it is complete;
compiling it lets every name that it calls stand for the function registered at that moment. -/

namespace ReactiveQuery

mutual
/-- The paths of an expression as they are completed: those in the keys of a path before the path. -/
def Node.paths : Node → List Path
  | .literal _ => []
  | .unary _ a => a.paths
  | .binary _ a b => a.paths ++ b.paths
  | .ternary a b c => a.paths ++ b.paths ++ c.paths
  | .path root components => Component.pathsOfAll components ++ [⟨root, components⟩]
  | .object members => Node.pathsOfMembers members
  | .array items => Node.pathsOfAll items
  | .call _ args => Node.pathsOfAll args

def Node.pathsOfAll : List Node → List Path
  | [] => []
  | n :: ns => n.paths ++ Node.pathsOfAll ns

def Node.pathsOfMembers : List (String × Node) → List Path
  | [] => []
  | (_, n) :: ns => n.paths ++ Node.pathsOfMembers ns

def Component.pathsOfAll : List Component → List Path
  | [] => []
  | .key _ :: cs => Component.pathsOfAll cs
  | .computed n :: cs => n.paths ++ Component.pathsOfAll cs
end

mutual
/-- The names that an expression calls. -/
def Node.names : Node → List String
  | .literal _ => []
  | .unary _ a => a.names
  | .binary _ a b => a.names ++ b.names
  | .ternary a b c => a.names ++ b.names ++ c.names
  | .path _ components => Component.namesOfAll components
  | .object members => Node.namesOfMembers members
  | .array items => Node.namesOfAll items
  | .call name args => name :: Node.namesOfAll args

def Node.namesOfAll : List Node → List String
  | [] => []
  | n :: ns => n.names ++ Node.namesOfAll ns

def Node.namesOfMembers : List (String × Node) → List String
  | [] => []
  | (_, n) :: ns => n.names ++ Node.namesOfMembers ns

def Component.namesOfAll : List Component → List String
  | [] => []
  | .key _ :: cs => Component.namesOfAll cs
  | .computed n :: cs => n.names ++ Component.namesOfAll cs
end

namespace OrderKey

def paths (o : OrderKey) : List Path := Component.pathsOfAll o.path.components ++ [o.path]

def names (o : OrderKey) : List String := Component.namesOfAll o.path.components

end OrderKey

namespace Query

/-- The paths of the filter, the projection and the order, in this sequence. -/
def paths (q : Query) : List Path :=
  q.filter.paths ++ (q.select.map Node.paths).getD [] ++ q.order.flatMap OrderKey.paths

def names (q : Query) : List String :=
  q.filter.names ++ (q.select.map Node.names).getD [] ++ q.order.flatMap OrderKey.names

end Query

theorem Node.pathsOfAll_eq (ns : List Node) : Node.pathsOfAll ns = ns.flatMap Node.paths := by
  induction ns with
  | nil => rfl
  | cons n ns ih => rw [Node.pathsOfAll, ih, List.flatMap_cons]

/-- An operator node has the paths of its operands. -/
theorem Node.paths_ofTag {tag : String} {operands : List Node} {n : Node}
    (made : Node.ofTag tag operands = .ok n) : n.paths = operands.flatMap Node.paths := by
  unfold Node.ofTag at made
  split at made <;> try cases made
  case h_1 | h_2 => simp [Node.paths]
  case h_5 | h_6 => simp [Node.paths]
  case h_9 => rw [Node.paths, Node.pathsOfAll_eq]
  case h_10 =>
    split at made <;> cases made
    simp [Node.paths]

theorem Build.paths_wrap {tag : String} {count : Nat} {n m : Node}
    (made : Build.wrap tag count n = .ok m) : m.paths = n.paths := by
  refine Build.wrap_induction (P := (·.paths = n.paths)) (fun k k' operands shape same made => ?_)
    rfl made
  rw [Node.paths_ofTag made, ← same]
  rcases shape with rfl | rfl <;> simp [Node.paths]

/-- Building that succeeds adds paths to those that were recorded before, of which this is told. -/
def Build.Records {α : Type} (x : Build α) (P : α → List Path → Prop) : Prop :=
  ∀ b a b', x.run.run b = (.ok a, b') → ∃ ps, b'.paths = ps.reverse ++ b.paths ∧ P a ps

namespace Build.Records

variable {α β : Type} {x : Build α} {P : α → List Path → Prop} {R : β → List Path → Prop}

theorem ret {a : α} (given : P a []) : Records (pure a) P := by
  rintro b a' b' ⟨⟩
  exact ⟨[], rfl, given⟩

/-- What follows adds its paths after the first ones. -/
theorem bind {g : α → Build β} (first : x.Records P)
    (rest : ∀ a ps, P a ps → (g a).Records fun c qs => R c (ps ++ qs)) : (x >>= g).Records R := by
  intro b c b' run
  obtain ⟨a, u, begun, ends⟩ := ok_bind run
  obtain ⟨ps, recorded, here⟩ := first b a u begun
  obtain ⟨qs, added, given⟩ := rest a ps here u c b' ends
  exact ⟨ps ++ qs, by rw [added, recorded, List.reverse_append, List.append_assoc], given⟩

theorem read (names : FieldMap Value) (t : Term) :
    (Build.read names t).Records fun _ ps => ps = [] := by
  rintro b a b' ⟨⟩
  exact ⟨[], rfl, rfl⟩

theorem record (p : Path) : (Build.record p).Records fun _ ps => ps = [p] := by
  rintro b a b' ⟨⟩
  exact ⟨[p], rfl, rfl⟩

theorem lift {r : Except Error α} (given : ∀ a, r = .ok a → P a []) :
    Records (ExceptT.mk (pure r)) P := by
  intro b a b' run
  have : (r, b) = (.ok a, b') := run
  cases this
  exact ⟨[], rfl, given a rfl⟩

end Build.Records

section
variable (names : FieldMap Value)

mutual
/-- Building an expression records its paths. -/
theorem Draft.build_records : ∀ d : Draft, (d.build names).Records fun n ps => n.paths = ps
  | .literal t => by
    rw [Draft.build]
    refine (Build.Records.read names t).bind fun v ps none => .ret ?_
    rw [none, Node.paths]
    rfl
  | .path root components => by
    rw [Draft.build]
    refine (Draft.buildComponents_records components).bind fun cs ps inner => ?_
    refine (Build.Records.record _).bind fun _ qs last => .ret ?_
    rw [Node.paths, inner, last, List.append_nil]
  | .object members => by
    rw [Draft.build]
    refine (Draft.buildMembers_records members).bind fun ns ps all => .ret ?_
    rw [Node.paths, all, List.append_nil]
  | .call name args => by
    rw [Draft.build]
    refine (Draft.buildAll_records args).bind fun ns ps all => .ret ?_
    rw [Node.paths, all, List.append_nil]
  | .chain tag count inner => by
    rw [Draft.build]
    refine (Draft.build_records inner).bind fun n ps all => .lift fun m made => ?_
    rw [Build.paths_wrap made, all, List.append_nil]
  | .tagged tag operands => by
    rw [Draft.build]
    refine (Draft.buildAll_records operands).bind fun ns ps all => .lift fun m made => ?_
    rw [Node.paths_ofTag made, ← Node.pathsOfAll_eq, all, List.append_nil]

theorem Draft.buildAll_records : ∀ ds : List Draft,
    (Draft.buildAll names ds).Records fun ns ps => Node.pathsOfAll ns = ps
  | [] => by
    rw [Draft.buildAll]
    exact .ret (by rw [Node.pathsOfAll])
  | d :: ds => by
    rw [Draft.buildAll]
    refine (Draft.build_records d).bind fun n ps first => ?_
    refine (Draft.buildAll_records ds).bind fun ns qs rest => .ret ?_
    rw [Node.pathsOfAll, first, rest, List.append_nil]

theorem Draft.buildMembers_records : ∀ ds : List (String × Draft),
    (Draft.buildMembers names ds).Records fun ns ps => Node.pathsOfMembers ns = ps
  | [] => by
    rw [Draft.buildMembers]
    exact .ret (by rw [Node.pathsOfMembers])
  | (key, d) :: ds => by
    rw [Draft.buildMembers]
    refine (Draft.build_records d).bind fun n ps first => ?_
    refine (Draft.buildMembers_records ds).bind fun ns qs rest => .ret ?_
    rw [Node.pathsOfMembers, first, rest, List.append_nil]

theorem Draft.buildComponents_records : ∀ ds : List DraftComponent,
    (Draft.buildComponents names ds).Records fun cs ps => Component.pathsOfAll cs = ps
  | [] => by
    rw [Draft.buildComponents]
    exact .ret (by rw [Component.pathsOfAll])
  | .key t :: ds => by
    rw [Draft.buildComponents]
    refine (Build.Records.read names t).bind fun v ps none => ?_
    refine (Draft.buildComponents_records ds).bind fun cs qs rest => .ret ?_
    rw [Component.pathsOfAll, none, rest, List.append_nil, List.nil_append]
  | .computed d :: ds => by
    rw [Draft.buildComponents]
    refine (Draft.build_records d).bind fun n ps first => ?_
    refine (Draft.buildComponents_records ds).bind fun cs qs rest => .ret ?_
    rw [Component.pathsOfAll, first, rest, List.append_nil]
end

theorem QueryDraft.buildOrder_records (os : List OrderDraft) :
    (os.mapM (QueryDraft.buildOrder names)).Records fun keys ps =>
      keys.flatMap OrderKey.paths = ps := by
  induction os with
  | nil => exact .ret rfl
  | cons o os ih =>
    rw [List.mapM_cons]
    refine Build.Records.bind (P := fun key ps => OrderKey.paths key = ps) ?_ fun key ps first => ?_
    · rw [QueryDraft.buildOrder]
      refine (Draft.buildComponents_records names o.components).bind fun cs ps inner => ?_
      refine (Build.Records.record _).bind fun _ qs last => .ret ?_
      rw [OrderKey.paths, inner, last, List.append_nil]
    · refine ih.bind fun keys qs rest => .ret ?_
      rw [List.flatMap_cons, first, rest, List.append_nil]

/-- Building a query records its paths. -/
theorem QueryDraft.build_records (q : QueryDraft) :
    (q.build names).Records fun query ps => query.paths = ps := by
  have selects : (q.select.mapM (Draft.build names)).Records fun select ps =>
      (select.map Node.paths).getD [] = ps := by
    cases q.select with
    | none => exact .ret rfl
    | some d =>
      refine (Draft.build_records names d).bind fun n ps all => .ret ?_
      rw [List.append_nil]
      exact all
  have rest : ∀ filter : Node, Build.Records (do
      let select ← q.select.mapM (Draft.build names)
      let order ← q.order.mapM (QueryDraft.buildOrder names)
      return ({ filter, select, order, sortFirst := q.sortFirst } : Query))
      fun query ps => query.paths = filter.paths ++ ps := fun filter => by
    refine selects.bind fun select ps chosen => ?_
    refine (QueryDraft.buildOrder_records names q.order).bind fun order qs sorted => .ret ?_
    rw [Query.paths, chosen, sorted, List.append_nil, List.append_assoc]
  unfold QueryDraft.build
  cases q.failure with
  | some error =>
    intro b a b' run
    cases run
  | none =>
    cases q.filter with
    | none => exact rest _
    | some d =>
      refine (Draft.build_records names d).bind fun filter ps all => ?_
      rw [← all]
      exact rest filter

end

/-- The functions that names stand for, one for each. -/
def Extensions.Resolves (es : Extensions) : List String → List Extension → Prop :=
  List.Forall₂ fun name f => es.find? name = some f

namespace Extensions.Resolves

variable {es : Extensions} {names names' : List String} {fs gs : List Extension}

theorem nil : es.Resolves [] [] := List.Forall₂.nil

theorem append (first : es.Resolves names fs) (rest : es.Resolves names' gs) :
    es.Resolves (names ++ names') (fs ++ gs) := List.rel_append first rest

end Extensions.Resolves

section
variable {scope : CompileScope}

/-- Computing operators on literals beforehand loses no call. -/
theorem Code.functions_unary? {op : UnaryOp} {a c : Code} {p q : Regex.Cache}
    (compiled : (Code.unary? scope op a).run.run p = (.ok c, q)) : c.functions = a.functions := by
  unfold Code.unary? at compiled
  split at compiled
  · obtain ⟨v, u, -, made⟩ := ok_bind compiled
    cases made
    rfl
  · cases compiled
    rfl

theorem Code.functions_binary? {op : BinaryOp} {a b c : Code} {p q : Regex.Cache}
    (compiled : (Code.binary? scope op a b).run.run p = (.ok c, q)) :
    c.functions = a.functions ++ b.functions := by
  unfold Code.binary? at compiled
  split at compiled
  · obtain ⟨v, u, -, made⟩ := ok_bind compiled
    cases made
    rfl
  · cases compiled
    rfl

theorem Code.functions_ternary? (a b c : Code) :
    (Code.ternary? a b c).functions = a.functions ++ b.functions ++ c.functions := by
  unfold Code.ternary?
  split <;> rfl

mutual
/-- Compiling lets the names of an expression stand for the functions that are registered. -/
theorem Node.compile_resolves : ∀ (n : Node) {c : Code} {p q : Regex.Cache},
    (n.compile scope).run.run p = (.ok c, q) → scope.extensions.Resolves n.names c.functions
  | .literal v, c, p, q, compiled => by
    rw [Node.compile] at compiled
    cases compiled
    exact .nil
  | .unary op a, c, p, q, compiled => by
    rw [Node.compile] at compiled
    obtain ⟨x, u, first, rest⟩ := ok_bind compiled
    rw [Node.names, Code.functions_unary? rest]
    exact Node.compile_resolves a first
  | .binary op a b, c, p, q, compiled => by
    rw [Node.compile] at compiled
    obtain ⟨x, u, first, rest⟩ := ok_bind compiled
    obtain ⟨y, u', second, rest⟩ := ok_bind rest
    rw [Node.names, Code.functions_binary? rest]
    exact (Node.compile_resolves a first).append (Node.compile_resolves b second)
  | .ternary a b c, code, p, q, compiled => by
    rw [Node.compile] at compiled
    obtain ⟨x, u, first, rest⟩ := ok_bind compiled
    obtain ⟨y, u', second, rest⟩ := ok_bind rest
    obtain ⟨z, u'', third, rest⟩ := ok_bind rest
    cases rest
    rw [Node.names, Code.functions_ternary?]
    exact ((Node.compile_resolves a first).append (Node.compile_resolves b second)).append
      (Node.compile_resolves c third)
  | .path root components, c, p, q, compiled => by
    rw [Node.compile] at compiled
    obtain ⟨steps, u, first, rest⟩ := ok_bind compiled
    cases rest
    rw [Node.names, Code.functions]
    exact Component.compileAll_resolves components first
  | .object members, c, p, q, compiled => by
    rw [Node.compile] at compiled
    obtain ⟨codes, u, first, rest⟩ := ok_bind compiled
    cases rest
    rw [Node.names, Code.functions]
    exact Node.compileMembers_resolves members first
  | .array items, c, p, q, compiled => by
    rw [Node.compile] at compiled
    obtain ⟨codes, u, first, rest⟩ := ok_bind compiled
    cases rest
    rw [Node.names, Code.functions]
    exact Node.compileAll_resolves items first
  | .call name args, c, p, q, compiled => by
    rw [Node.compile] at compiled
    split at compiled
    · cases compiled
    · next function found =>
      obtain ⟨codes, u, first, rest⟩ := ok_bind compiled
      cases rest
      rw [Node.names, Code.functions]
      exact List.Forall₂.cons found (Node.compileAll_resolves args first)

theorem Node.compileAll_resolves : ∀ (ns : List Node) {cs : List Code} {p q : Regex.Cache},
    (Node.compileAll scope ns).run.run p = (.ok cs, q) →
    scope.extensions.Resolves (Node.namesOfAll ns) (Code.functionsOfAll cs)
  | [], cs, p, q, compiled => by
    rw [Node.compileAll] at compiled
    cases compiled
    exact .nil
  | n :: ns, cs, p, q, compiled => by
    rw [Node.compileAll] at compiled
    obtain ⟨x, u, first, rest⟩ := ok_bind compiled
    obtain ⟨xs, u', others, rest⟩ := ok_bind rest
    cases rest
    rw [Node.namesOfAll, Code.functionsOfAll]
    exact (Node.compile_resolves n first).append (Node.compileAll_resolves ns others)

theorem Node.compileMembers_resolves : ∀ (ns : List (String × Node)) {cs : List (String × Code)}
    {p q : Regex.Cache}, (Node.compileMembers scope ns).run.run p = (.ok cs, q) →
    scope.extensions.Resolves (Node.namesOfMembers ns) (Code.functionsOfMembers cs)
  | [], cs, p, q, compiled => by
    rw [Node.compileMembers] at compiled
    cases compiled
    exact .nil
  | (key, n) :: ns, cs, p, q, compiled => by
    rw [Node.compileMembers] at compiled
    obtain ⟨x, u, first, rest⟩ := ok_bind compiled
    obtain ⟨xs, u', others, rest⟩ := ok_bind rest
    cases rest
    rw [Node.namesOfMembers, Code.functionsOfMembers]
    exact (Node.compile_resolves n first).append (Node.compileMembers_resolves ns others)

theorem Component.compileAll_resolves : ∀ (cs : List Component) {steps : List Step}
    {p q : Regex.Cache}, (Component.compileAll scope cs).run.run p = (.ok steps, q) →
    scope.extensions.Resolves (Component.namesOfAll cs) (Step.functionsOfAll steps)
  | [], steps, p, q, compiled => by
    rw [Component.compileAll] at compiled
    cases compiled
    exact .nil
  | .key v :: cs, steps, p, q, compiled => by
    rw [Component.compileAll] at compiled
    obtain ⟨xs, u, others, rest⟩ := ok_bind compiled
    cases rest
    rw [Component.namesOfAll, Step.functionsOfAll]
    exact Component.compileAll_resolves cs others
  | .computed n :: cs, steps, p, q, compiled => by
    rw [Component.compileAll] at compiled
    obtain ⟨x, u, first, rest⟩ := ok_bind compiled
    obtain ⟨xs, u', others, rest⟩ := ok_bind rest
    have head := Node.compile_resolves n first
    have tail := Component.compileAll_resolves cs others
    cases rest
    rw [Component.namesOfAll]
    -- A key that turns out literal calls nothing.
    split
    · rw [Step.functionsOfAll]
      exact head.append tail
    · rw [Step.functionsOfAll]
      exact head.append tail
end

theorem OrderKey.compileAll_resolves {os : List OrderKey} {keys : List SortKey}
    {p q : Regex.Cache} (compiled : (os.mapM (OrderKey.compile scope)).run.run p = (.ok keys, q)) :
    scope.extensions.Resolves (os.flatMap OrderKey.names) (keys.flatMap SortKey.functions) := by
  induction os generalizing keys p with
  | nil =>
    cases compiled
    exact .nil
  | cons o os ih =>
    rw [List.mapM_cons] at compiled
    obtain ⟨key, u, first, rest⟩ := ok_bind compiled
    obtain ⟨keys', u', others, rest⟩ := ok_bind rest
    obtain ⟨steps, u'', walked, made⟩ := ok_bind first
    cases made
    cases rest
    exact (Component.compileAll_resolves o.path.components walked).append (ih others)

/-- What a query is compiled to calls the functions that its names stand for just then, and lists the
paths that it is given. -/
theorem Query.compile_resolves {query : Query} {d : Definition} {listed : List Path}
    {p q : Regex.Cache} (compiled : (query.compile scope listed).run.run p = (.ok d, q)) :
    scope.extensions.Resolves query.names d.functions ∧ d.paths = listed := by
  obtain ⟨filter, u, first, rest⟩ := ok_bind compiled
  obtain ⟨select, u', second, rest⟩ := ok_bind rest
  obtain ⟨sort, u'', third, rest⟩ := ok_bind rest
  have selected : scope.extensions.Resolves ((query.select.map Node.names).getD [])
      ((select.map Code.functions).getD []) := by
    cases given : query.select with
    | none =>
      rw [given] at second
      cases second
      exact .nil
    | some n =>
      rw [given] at second
      obtain ⟨c, _, code, made⟩ := ok_bind second
      cases made
      exact Node.compile_resolves n code
  have sorted := OrderKey.compileAll_resolves third
  cases rest
  refine ⟨((Node.compile_resolves _ first).append selected).append ?_, rfl⟩
  cases sort with
  | nil => exact sorted
  | cons key keys => exact sorted

end

end ReactiveQuery
