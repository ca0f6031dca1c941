import ReactiveQuery.Proofs.Query.Folding

/-! Literals against paths that read the same values.  An expression of literals comes to what it
comes to with paths in their places, unless one of its constant parts cannot be computed: then it
is not even compiled, also where no evaluation comes to that part. -/

namespace ReactiveQuery

/-- What keys lead to from a value, one after the other. -/
def Heap.follow (h : Heap) (current : Value) : List Value → Option Value
  | [] => some current
  | key :: keys =>
    match h.drill current with
    | none => some .null
    | some v => do h.follow (← h.read v key) keys

section
variable (h : Heap) (record : Value)

mutual
/-- An expression of literals, operators and templates, and the same with each literal replaced by a
path that reads its value from a record. -/
def Node.ReadBy : Node → Node → Prop
  | .literal v, m => ∃ keys, m = .path .here (keys.map .key) ∧ h.follow record keys = some v
  | .unary op a, m => ∃ a', m = .unary op a' ∧ a.ReadBy a'
  | .binary op a b, m => ∃ a' b', m = .binary op a' b' ∧ a.ReadBy a' ∧ b.ReadBy b'
  | .ternary a b c, m =>
    ∃ a' b' c', m = .ternary a' b' c' ∧ a.ReadBy a' ∧ b.ReadBy b' ∧ c.ReadBy c'
  | .object members, m => ∃ members', m = .object members' ∧ Node.ReadByMembers members members'
  | .array items, m => ∃ items', m = .array items' ∧ Node.ReadByAll items items'
  | .path .., _ | .call .., _ => False

def Node.ReadByAll : List Node → List Node → Prop
  | [], ms => ms = []
  | n :: ns, ms => ∃ m ms', ms = m :: ms' ∧ n.ReadBy m ∧ Node.ReadByAll ns ms'

def Node.ReadByMembers : List (String × Node) → List (String × Node) → Prop
  | [], ms => ms = []
  | (k, n) :: ns, ms => ∃ m ms', ms = (k, m) :: ms' ∧ n.ReadBy m ∧ Node.ReadByMembers ns ms'
end

end

/-- An expression without calls and without constant parts. -/
structure Node.Varies (scope : CompileScope) (n : Node) : Prop where
  free : n.CallFree
  unknown : n.constant? scope.heap = none
  faultless : n.fault? scope = none
  frozen : n.frozen scope.heap = n

section
variable {h : Heap} {record : Value}

theorem Component.varies_keys (scope : CompileScope) (keys : List Value) :
    Component.AllOf (fun _ => True) (fun _ _ => True) (keys.map .key) ∧
      Component.faultOfAll scope (keys.map .key) = none ∧
      Component.frozenAll scope.heap (keys.map .key) = keys.map .key := by
  induction keys with
  | nil =>
    rw [List.map_nil, Component.AllOf, Component.faultOfAll, Component.frozenAll]
    exact ⟨trivial, rfl, rfl⟩
  | cons key keys ih =>
    rw [List.map_cons, Component.AllOf, Component.faultOfAll, Component.frozenAll, ih.2.2]
    exact ⟨⟨trivial, ih.1⟩, ih.2.1, rfl⟩

mutual
theorem Node.ReadBy.varies (scope : CompileScope) : ∀ {n m : Node}, n.ReadBy h record m →
    n.CallFree ∧ m.Varies scope
  | .literal v, m, read => by
    rw [Node.ReadBy] at read
    obtain ⟨keys, rfl, -⟩ := read
    obtain ⟨free, faultless, frozen⟩ := Component.varies_keys scope keys
    rw [Node.CallFree, Node.All]
    refine ⟨trivial, ?_, by rw [Node.constant?], by rwa [Node.fault?], by rw [Node.frozen, frozen]⟩
    rw [Node.CallFree, Node.All]
    exact ⟨trivial, free⟩
  | .unary op a, m, read => by
    rw [Node.ReadBy] at read
    obtain ⟨a', rfl, operand⟩ := read
    obtain ⟨free, varies⟩ := Node.ReadBy.varies scope operand
    have unknown : (Node.unary op a').constant? scope.heap = none := by
      rw [Node.constant?, varies.unknown]
      rfl
    rw [Node.CallFree, Node.All]
    refine ⟨free, ?_, unknown, ?_, ?_⟩
    · rw [Node.CallFree, Node.All]
      exact varies.free
    · rw [Node.fault?, varies.faultless, varies.unknown]
      rfl
    · rw [Node.frozen, unknown, varies.frozen]
      rfl
  | .binary op a b, m, read => by
    rw [Node.ReadBy] at read
    obtain ⟨a', b', rfl, left, right⟩ := read
    obtain ⟨freeL, variesL⟩ := Node.ReadBy.varies scope left
    obtain ⟨freeR, variesR⟩ := Node.ReadBy.varies scope right
    have unknown : (Node.binary op a' b').constant? scope.heap = none := by
      rw [Node.constant?, variesL.unknown]
      rfl
    rw [Node.CallFree, Node.All]
    refine ⟨⟨freeL, freeR⟩, ?_, unknown, ?_, ?_⟩
    · rw [Node.CallFree, Node.All]
      exact ⟨variesL.free, variesR.free⟩
    · rw [Node.fault?, variesL.faultless, variesR.faultless, variesL.unknown]
      rfl
    · rw [Node.frozen, unknown, variesL.frozen, variesR.frozen]
      rfl
  | .ternary a b c, m, read => by
    rw [Node.ReadBy] at read
    obtain ⟨a', b', c', rfl, cond, yes, no⟩ := read
    obtain ⟨freeC, variesC⟩ := Node.ReadBy.varies scope cond
    obtain ⟨freeY, variesY⟩ := Node.ReadBy.varies scope yes
    obtain ⟨freeN, variesN⟩ := Node.ReadBy.varies scope no
    have unknown : (Node.ternary a' b' c').constant? scope.heap = none := by
      rw [Node.constant?, variesC.unknown]
      rfl
    rw [Node.CallFree, Node.All]
    refine ⟨⟨freeC, freeY, freeN⟩, ?_, unknown, ?_, ?_⟩
    · rw [Node.CallFree, Node.All]
      exact ⟨variesC.free, variesY.free, variesN.free⟩
    · rw [Node.fault?, variesC.faultless, variesY.faultless, variesN.faultless]
      rfl
    · rw [Node.frozen, unknown, variesC.frozen, variesY.frozen, variesN.frozen]
      rfl
  | .object members, m, read => by
    rw [Node.ReadBy] at read
    obtain ⟨members', rfl, all⟩ := read
    obtain ⟨free, free', faultless, frozen⟩ := Node.ReadByMembers.varies scope all
    rw [Node.CallFree, Node.All]
    refine ⟨free, ?_, by rw [Node.constant?], by rwa [Node.fault?], by rw [Node.frozen, frozen]⟩
    rwa [Node.CallFree, Node.All]
  | .array items, m, read => by
    rw [Node.ReadBy] at read
    obtain ⟨items', rfl, all⟩ := read
    obtain ⟨free, free', faultless, frozen⟩ := Node.ReadByAll.varies scope all
    rw [Node.CallFree, Node.All]
    refine ⟨free, ?_, by rw [Node.constant?], by rwa [Node.fault?], by rw [Node.frozen, frozen]⟩
    rwa [Node.CallFree, Node.All]
  | .path .., _, read | .call .., _, read => by
    rw [Node.ReadBy] at read
    exact read.elim

theorem Node.ReadByAll.varies (scope : CompileScope) : ∀ {ns ms : List Node},
    Node.ReadByAll h record ns ms →
    Node.AllOf (fun _ => True) (fun _ _ => True) ns ∧
      Node.AllOf (fun _ => True) (fun _ _ => True) ms ∧
      Node.faultOfAll scope ms = none ∧ Node.frozenAll scope.heap ms = ms
  | [], ms, read => by
    rw [Node.ReadByAll] at read
    subst read
    rw [Node.AllOf, Node.faultOfAll, Node.frozenAll]
    exact ⟨trivial, trivial, rfl, rfl⟩
  | n :: ns, ms, read => by
    rw [Node.ReadByAll] at read
    obtain ⟨m, ms, rfl, head, tail⟩ := read
    obtain ⟨free, varies⟩ := Node.ReadBy.varies scope head
    obtain ⟨frees, frees', faultless, frozen⟩ := Node.ReadByAll.varies scope tail
    rw [Node.AllOf, Node.AllOf, Node.faultOfAll, Node.frozenAll, varies.faultless, varies.frozen,
      frozen]
    exact ⟨⟨free, frees⟩, ⟨varies.free, frees'⟩, faultless, rfl⟩

theorem Node.ReadByMembers.varies (scope : CompileScope) : ∀ {ns ms : List (String × Node)},
    Node.ReadByMembers h record ns ms →
    Node.AllOfMembers (fun _ => True) (fun _ _ => True) ns ∧
      Node.AllOfMembers (fun _ => True) (fun _ _ => True) ms ∧
      Node.faultOfMembers scope ms = none ∧ Node.frozenMembers scope.heap ms = ms
  | [], ms, read => by
    rw [Node.ReadByMembers] at read
    subst read
    rw [Node.AllOfMembers, Node.faultOfMembers, Node.frozenMembers]
    exact ⟨trivial, trivial, rfl, rfl⟩
  | (k, n) :: ns, ms, read => by
    rw [Node.ReadByMembers] at read
    obtain ⟨m, ms, rfl, head, tail⟩ := read
    obtain ⟨free, varies⟩ := Node.ReadBy.varies scope head
    obtain ⟨frees, frees', faultless, frozen⟩ := Node.ReadByMembers.varies scope tail
    rw [Node.AllOfMembers, Node.AllOfMembers, Node.faultOfMembers, Node.frozenMembers,
      varies.faultless, varies.frozen, frozen]
    exact ⟨⟨free, frees⟩, ⟨varies.free, frees'⟩, faultless, rfl⟩
end

section
variable {g : Heap} (same : g.cells = h.cells)
include same

theorem Heap.drill_cells (v : Value) : g.drill v = h.drill v := by
  cases v <;> simp only [drill, Heap.items, Heap.collection?, Heap.cell?, same]

theorem Heap.read_cells (v key : Value) : g.read v key = h.read v key := by
  cases v <;> simp only [Heap.read, Heap.text_cells same, Heap.items, Heap.fields,
    Heap.collection?, Heap.record?, Heap.cell?, same]

end

variable {es : Extensions} {call : Caller} {ctx : Context}

/-- A walk along written keys comes to what they lead to. -/
theorem Component.walk_keys {w : World} (same : w.heap.cells = h.cells) {keys : List Value}
    {current v : Value} (found : h.follow current keys = some v) :
    (Component.walk es call ctx record current (keys.map .key)).on w = (.ok v, w) := by
  induction keys generalizing current with
  | nil =>
    rw [List.map_nil, Component.walk, Act.on_pure, Option.some.inj found]
  | cons key keys ih =>
    rw [Heap.follow] at found
    rw [List.map_cons, Component.walk, Act.on_bind_ok (Act.on_get w), Heap.drill_cells same]
    cases there : h.drill current with
    | none =>
      rw [there] at found
      rw [Act.on_pure, Option.some.inj found]
    | some u =>
      rw [there] at found
      obtain ⟨next, reads, found⟩ := Option.bind_eq_some_iff.mp found
      have asked : (Act.ask (·.read u key)).on w = (.ok next, w) := by
        rw [Act.on_ask, Heap.read_cells same, reads]
        rfl
      rw [Act.on_bind_ok asked]
      exact ih found

mutual
/-- As long as the record stays as it is, reading the values comes to the same as having them. -/
theorem Node.ReadBy.interpret : ∀ {n m : Node}, n.ReadBy h record m →
    Act.Settled (·.cells = h.cells) Eq (n.interpret es call ctx record)
      (m.interpret es call ctx record)
  -- A literal stands for a path of keys, which finds that value in the record as it is.
  | .literal v, m, read => by
    rw [Node.ReadBy] at read
    obtain ⟨keys, rfl, found⟩ := read
    have reads : ∀ w : World, w.heap.cells = h.cells →
        (Node.interpret es call ctx record (.path .here (keys.map .key))).on w = (.ok v, w) :=
      fun w same => by
        rw [Node.interpret]
        exact Component.walk_keys same found
    rw [Node.interpret]
    exact .of_on (fun w same => (reads w same).symm) fun w same => by rwa [reads w same]
  | .unary op a, m, read => by
    rw [Node.ReadBy] at read
    obtain ⟨a', rfl, operand⟩ := read
    rw [Node.interpret, Node.interpret]
    exact Act.Related.bind_same (Node.ReadBy.interpret operand) fun _ => Act.Settled.ask _
  | .binary op a b, m, read => by
    rw [Node.ReadBy] at read
    obtain ⟨a', b', rfl, left, right⟩ := read
    rw [Node.interpret_binary, Node.interpret_binary]
    exact .operate_same (fun l => (Node.ReadBy.interpret right).holding [l])
      (Node.ReadBy.interpret left) fun _ _ => Act.Settled.judge _
  | .ternary a b c, m, read => by
    rw [Node.ReadBy] at read
    obtain ⟨a', b', c', rfl, cond, yes, no⟩ := read
    rw [Node.interpret, Node.interpret]
    refine Act.Related.bind_same (Node.ReadBy.interpret cond) fun v => ?_
    split
    · exact Node.ReadBy.interpret yes
    · exact Node.ReadBy.interpret no
  | .object members, m, read => by
    rw [Node.ReadBy] at read
    obtain ⟨members', rfl, all⟩ := read
    rw [Node.interpret, Node.interpret]
    exact Act.Related.bind_same (Node.ReadByMembers.interpret all [])
      (Act.Settled.freshObject fun _ _ => id)
  | .array items, m, read => by
    rw [Node.ReadBy] at read
    obtain ⟨items', rfl, all⟩ := read
    rw [Node.interpret, Node.interpret]
    exact Act.Related.bind_same (Node.ReadByAll.interpret all [])
      (Act.Settled.freshArray fun _ _ => id)
  | .path .., _, read | .call .., _, read => by
    rw [Node.ReadBy] at read
    exact read.elim

theorem Node.ReadByAll.interpret : ∀ {ns ms : List Node}, Node.ReadByAll h record ns ms →
    ∀ done, Act.Settled (·.cells = h.cells) Eq (Node.interpretAll es call ctx record done ns)
      (Node.interpretAll es call ctx record done ms)
  | [], ms, read, done => by
    rw [Node.ReadByAll] at read
    rw [read, Node.interpretAll]
    exact Act.Related.ret rfl
  | n :: ns, ms, read, done => by
    rw [Node.ReadByAll] at read
    obtain ⟨m, ms, rfl, head, tail⟩ := read
    rw [Node.interpretAll, Node.interpretAll]
    exact Act.Related.bind_same ((Node.ReadBy.interpret head).holding done) fun v =>
      Node.ReadByAll.interpret tail (done ++ [v])

theorem Node.ReadByMembers.interpret : ∀ {ns ms : List (String × Node)},
    Node.ReadByMembers h record ns ms → ∀ done, Act.Settled (·.cells = h.cells) Eq
      (Node.interpretMembers es call ctx record done ns)
      (Node.interpretMembers es call ctx record done ms)
  | [], ms, read, done => by
    rw [Node.ReadByMembers] at read
    rw [read, Node.interpretMembers]
    exact Act.Related.ret rfl
  | (k, n) :: ns, ms, read, done => by
    rw [Node.ReadByMembers] at read
    obtain ⟨m, ms, rfl, head, tail⟩ := read
    rw [Node.interpretMembers, Node.interpretMembers]
    exact Act.Related.bind_same ((Node.ReadBy.interpret head).holding done.values) fun v =>
      Node.ReadByMembers.interpret tail (done.insert k v)
end

end

/-- Compiles an expression in the present world, and evaluates what this gives. -/
def Node.run (call : Caller) (ctx : Context) (record : Value) (n : Node) : Act Value := do
  let c ← Act.compile (n.compile ·)
  c.evaluate call ctx record

/-- What compilation can see in a world. -/
def World.scope (w : World) : CompileScope := ⟨w.heap, w.extensions⟩

section
variable {call : Caller} {ctx : Context} {record : Value} {n : Node} {w : World}

/-- An expression without faults runs as it means with its constant parts frozen. -/
theorem Node.run_faultless (suits : call.Oblivious ∨ n.CallFree) (reachable : w.patterns.Reachable)
    (faultless : n.fault? w.scope = none) :
    Act.Compare False World.Twins Eq ((n.run call ctx record).on w)
      (((n.frozen w.heap).interpret w.extensions call ctx record).on w) := by
  have compiles : (n.compile w.scope).Comes (n.fault? w.scope)
      (·.Freezes w.scope call ctx record n) := n.compile_freezes suits
  rw [faultless] at compiles
  obtain ⟨after, c, compiled, freezes⟩ := compiles w.patterns reachable
  have ran : (Act.compile (n.compile ·)).on w =
      (.ok c, { w with patterns := ((n.compile w.scope).run.run w.patterns).2 }) := by
    rw [Act.on_compile]
    exact Prod.ext compiled rfl
  rw [Node.run, Act.on_bind_ok ran]
  exact freezes.twin _ _ ((World.Twins.refl reachable).reread after reachable)

end

/-- With paths in the places of its literals an expression runs as it means. -/
theorem Node.ReadBy.run {call : Caller} {ctx : Context} {record : Value} {n m : Node} {w : World}
    (read : n.ReadBy w.heap record m) (reachable : w.patterns.Reachable) :
    Act.Compare False World.Twins Eq ((m.run call ctx record).on w)
      ((n.interpret w.extensions call ctx record).on w) := by
  obtain ⟨-, varies⟩ := Node.ReadBy.varies w.scope read
  have runs : Act.Compare False World.Twins Eq ((m.run call ctx record).on w)
      (((m.frozen w.heap).interpret w.extensions call ctx record).on w) :=
    Node.run_faultless (.inr varies.free) reachable varies.faultless
  rwa [show m.frozen w.heap = m from varies.frozen,
    ← (Node.ReadBy.interpret read).on rfl] at runs

end ReactiveQuery
