import ReactiveQuery.Proofs.Query.Steady

/-! Compilation keeps the meaning of expressions but for their constant parts, which it freezes; and
it fails when one of these does.  Constants that hold no record or collection have one value in
every heap, so that expressions with no others keep their meaning altogether. -/

namespace ReactiveQuery

/-- Compilation, through any cache of patterns, comes to a fault, or else to something of which this
is told. -/
def Compile.Comes {α : Type} (x : Compile α) (fault : Option Fault) (V : α → Prop) : Prop :=
  ∀ p : Regex.Cache, p.Reachable → (x.run.run p).2.Reachable ∧
    match fault with
    | some e => (x.run.run p).1 = .error e
    | none => ∃ a, (x.run.run p).1 = .ok a ∧ V a

namespace Compile.Comes

variable {α β : Type} {x : Compile α} {fault fault' : Option Fault} {V : α → Prop} {W : β → Prop}

theorem ret {a : α} (given : V a) : (pure a : Compile α).Comes none V :=
  fun _ reachable => ⟨reachable, a, rfl, given⟩

theorem bind {g : α → Compile β} (first : x.Comes fault V)
    (rest : ∀ a, V a → (g a).Comes fault' W) : (x >>= g).Comes (fault.or fault') W := by
  intro p reachable
  obtain ⟨after, outcome⟩ := first p reachable
  rw [run_bind]
  generalize x.run.run p = run at after outcome ⊢
  obtain ⟨r, q⟩ := run
  cases fault with
  | some e =>
    obtain rfl : r = .error e := outcome
    exact ⟨after, rfl⟩
  | none =>
    obtain ⟨a, rfl, given⟩ : ∃ a, r = .ok a ∧ V a := outcome
    exact rest a given q after

theorem map {f : α → β} (first : x.Comes fault V) (rest : ∀ a, V a → W (f a)) :
    (x >>= fun a => pure (f a)).Comes fault W := by
  have whole := first.bind (W := W) fun a given => ret (a := f a) (rest a given)
  rwa [Option.or_none] at whole

theorem of_run {r : Except Fault α} (computes : ∀ p : Regex.Cache, p.Reachable →
    (x.run.run p).1 = r ∧ (x.run.run p).2.Reachable) : x.Comes (Fault.of? r) (r = .ok ·) := by
  intro p reachable
  obtain ⟨outcome, after⟩ := computes p reachable
  refine ⟨after, ?_⟩
  cases r with
  | error e => exact outcome
  | ok a => exact ⟨a, outcome, rfl⟩

/-- Compilation that succeeds did not come to a fault. -/
theorem of_ok {a : α} {p q : Regex.Cache} (comes : x.Comes fault V) (reachable : p.Reachable)
    (compiled : x.run.run p = (.ok a, q)) : fault = none ∧ V a ∧ q.Reachable := by
  have outcome := comes p reachable
  rw [compiled] at outcome
  cases fault with
  | some e => cases outcome.2
  | none =>
    obtain ⟨after, _, ⟨⟩, given⟩ := outcome
    exact ⟨rfl, given, after⟩

end Compile.Comes

section
variable (scope : CompileScope) (call : Caller) (ctx : Context) (record : Value)

/-- Code that is literal where an expression is constant, and that does what the expression means
when its constant parts are frozen. -/
structure Code.Freezes (c : Code) (n : Node) : Prop where
  literal : c.literal? = n.constant? scope.heap
  twin : Act.Twin Eq (c.evaluate call ctx record)
    ((n.frozen scope.heap).interpret scope.extensions call ctx record)

/-- Steps that walk as the components of a path do. -/
def Step.Faithful (steps : List Step) (components : List Component) : Prop :=
  ∀ current, Act.Twin Eq (Step.walk call ctx record current steps)
    (Component.walk scope.extensions call ctx record current components)

variable {scope call ctx record}

theorem Code.eq_literal {c : Code} {v : Value} (h : c.literal? = some v) : c = .literal v := by
  cases c <;> cases h
  rfl

theorem Code.Freezes.constant {n : Node} {v : Value} (known : n.constant? scope.heap = some v) :
    (Code.literal v).Freezes scope call ctx record n := by
  refine ⟨known.symm, ?_⟩
  rw [Node.frozen_eq_literal.mpr known, Code.evaluate, Node.interpret]
  exact Act.Related.ret rfl

/-- Code that does what the frozen parts of an expression mean freezes it, if it is not constant. -/
theorem Code.Freezes.dynamic {n m : Node} {c : Code} (dynamic : c.literal? = none)
    (unknown : n.constant? scope.heap = none) (frozen : n.frozen scope.heap = m)
    (twin : Act.Twin Eq (c.evaluate call ctx record)
      (m.interpret scope.extensions call ctx record)) :
    c.Freezes scope call ctx record n :=
  ⟨dynamic.trans unknown.symm, frozen ▸ twin⟩

theorem Code.Freezes.unary {op : UnaryOp} {a : Code} {n : Node}
    (operand : a.Freezes scope call ctx record n) :
    (Code.unary? scope op a).Comes
      ((n.constant? scope.heap).bind fun v => Fault.of? (op.meaning scope.heap v))
      (·.Freezes scope call ctx record (.unary op n)) := by
  rw [← operand.literal]
  cases literal : a.literal? with
  | some v =>
    obtain rfl := Code.eq_literal literal
    have computed : (Compile.ofOption (op.apply scope.heap v)).Comes
        (Fault.of? (op.meaning scope.heap v)) (op.meaning scope.heap v = .ok ·) :=
      .of_run fun p reachable => by
        rw [Compile.run_ofOption]
        exact ⟨rfl, reachable⟩
    refine computed.map fun w given => .constant ?_
    rw [Node.constant?, ← operand.literal]
    exact congrArg Except.toOption given
  | none =>
    have dynamic : Code.unary? scope op a = pure (.unary op a) := by
      cases a <;> first | rfl | cases literal
    have unknown : (Node.unary op n).constant? scope.heap = none := by
      rw [Node.constant?, ← operand.literal, literal]
      rfl
    rw [dynamic]
    refine .ret (.dynamic rfl unknown (by rw [Node.frozen, unknown, Option.elim_none]) ?_)
    rw [Code.evaluate, Node.interpret]
    exact Act.Related.bind_same operand.twin fun _ => Act.Twin.ask _

theorem Code.Freezes.binary {op : BinaryOp} {a b : Code} {m n : Node}
    (left : a.Freezes scope call ctx record m) (right : b.Freezes scope call ctx record n) :
    (Code.binary? scope op a b).Comes
      ((m.constant? scope.heap).bind fun l => (n.constant? scope.heap).bind fun r =>
        Fault.of? (op.meaning scope.heap l r))
      (·.Freezes scope call ctx record (.binary op m n)) := by
  rw [← left.literal, ← right.literal]
  by_cases literal : ∃ l r, a.literal? = some l ∧ b.literal? = some r
  · obtain ⟨l, r, first, second⟩ := literal
    obtain rfl := Code.eq_literal first
    obtain rfl := Code.eq_literal second
    have computed : (op.compute scope.heap l r).Comes (Fault.of? (op.meaning scope.heap l r))
        (op.meaning scope.heap l r = .ok ·) :=
      .of_run fun p => op.run_compute scope.heap l r
    refine computed.map fun v given => .constant ?_
    rw [Node.constant?, ← left.literal, ← right.literal]
    exact congrArg Except.toOption given
  · have dynamic : Code.binary? scope op a b = pure (.binary op a b) := by
      cases a <;> cases b <;> first | rfl | exact absurd ⟨_, _, rfl, rfl⟩ literal
    have unknown : (Node.binary op m n).constant? scope.heap = none := by
      rw [Node.constant?, ← left.literal, ← right.literal]
      cases first : a.literal? <;> cases second : b.literal? <;>
        first | rfl | exact absurd ⟨_, _, first, second⟩ literal
    have none : ((a.literal?).bind fun l => (b.literal?).bind fun r =>
        Fault.of? (op.meaning scope.heap l r)) = none := by
      cases first : a.literal? <;> cases second : b.literal? <;>
        first | rfl | exact absurd ⟨_, _, first, second⟩ literal
    rw [dynamic, none]
    refine .ret (.dynamic rfl unknown (by rw [Node.frozen, unknown, Option.elim_none]) ?_)
    rw [Code.evaluate_binary, Node.interpret_binary]
    exact left.twin.operate right.twin (Act.Twin.compute op)

theorem Code.Freezes.ternary {a b c : Code} {l m n : Node}
    (cond : a.Freezes scope call ctx record l) (yes : b.Freezes scope call ctx record m)
    (no : c.Freezes scope call ctx record n) :
    (Code.ternary? a b c).Freezes scope call ctx record (.ternary l m n) := by
  have known : (Node.ternary l m n).constant? scope.heap = do
      let u ← a.literal?
      let v ← b.literal?
      let w ← c.literal?
      return if u.truthy then v else w := by
    rw [Node.constant?, cond.literal, yes.literal, no.literal]
  unfold Code.ternary?
  split
  · exact .constant known
  · next apart =>
    have unknown : (Node.ternary l m n).constant? scope.heap = none := by
      rw [known]
      cases a <;> cases b <;> cases c <;> first | rfl | exact absurd rfl (apart _ _ _ rfl rfl)
    refine .dynamic rfl unknown (by rw [Node.frozen, unknown, Option.elim_none]) ?_
    rw [Code.evaluate, Node.interpret]
    refine Act.Related.bind_same cond.twin fun v => ?_
    split
    · exact yes.twin
    · exact no.twin

/-- Walks stop together where they find nothing, and go on together where they find a value. -/
theorem Act.Twin.drill {go go' : Value → Act Value} (current : Value)
    (same : ∀ x, Act.Twin Eq (go x) (go' x)) :
    Act.Twin Eq
      (do match (← get).heap.drill current with
        | none => return .null
        | some x => go x)
      (do match (← get).heap.drill current with
        | none => return .null
        | some x => go' x) := by
  intro u v twins
  rw [Act.on_bind, Act.on_bind, Act.on_get, Act.on_get]
  simp only
  rw [← twins.heap]
  cases u.heap.drill current with
  | none => exact .ok rfl twins
  | some x => exact same x u v twins

theorem Step.Faithful.key {steps : List Step} {components : List Component} (k : Value)
    (rest : Step.Faithful scope call ctx record steps components) :
    Step.Faithful scope call ctx record (.key k :: steps) (.key k :: components) := fun current => by
  rw [Step.walk, Component.walk]
  exact Act.Twin.drill current fun x => Act.Related.bind_same (Act.Twin.ask _) rest

theorem Step.Faithful.computed {steps : List Step} {components : List Component} {c : Code}
    {n : Node} (key : Act.Twin Eq (c.evaluate call ctx record)
      (n.interpret scope.extensions call ctx record))
    (rest : Step.Faithful scope call ctx record steps components) :
    Step.Faithful scope call ctx record (.computed c :: steps) (.computed n :: components) :=
    fun current => by
  rw [Step.walk, Component.walk]
  exact Act.Twin.drill current fun x => Act.Related.bind_same (key.holding [x]) fun _ =>
    Act.Related.bind_same (Act.Twin.ask _) rest

/-- A computed key that turned out literal is read like a written one. -/
theorem Step.Faithful.computed_literal {steps : List Step} {components : List Component}
    {k : Value} {n : Node} (key : Act.Twin Eq (Code.evaluate call ctx record (.literal k))
      (n.interpret scope.extensions call ctx record))
    (rest : Step.Faithful scope call ctx record steps components) :
    Step.Faithful scope call ctx record (.key k :: steps) (.computed n :: components) := by
  intro current u v twins
  have twin := Step.Faithful.computed key rest current u v twins
  simp only [Step.walk, Code.evaluate, Act.holding_pure, pure_bind] at twin ⊢
  exact twin

mutual
/-- Compilation fails where the expression has a fault, and otherwise freezes it. -/
theorem Node.compile_freezes : ∀ n : Node, call.Oblivious ∨ n.CallFree →
    (n.compile scope).Comes (n.fault? scope) (·.Freezes scope call ctx record n)
  | .literal v, _ => by
    rw [Node.compile, Node.fault?]
    exact .ret (.constant (by rw [Node.constant?]))
  | .unary op a, suits => by
    rw [Node.CallFree, Node.All] at suits
    rw [Node.compile, Node.fault?]
    exact (Node.compile_freezes a suits).bind fun _ operand => operand.unary
  | .binary op a b, suits => by
    rw [Node.CallFree, Node.All] at suits
    rw [Node.compile, Node.fault?]
    exact (Node.compile_freezes a (suits.imp_right (·.1))).bind fun _ left =>
      (Node.compile_freezes b (suits.imp_right (·.2))).bind fun _ right => left.binary right
  | .ternary a b c, suits => by
    rw [Node.CallFree, Node.All] at suits
    rw [Node.compile, Node.fault?]
    exact (Node.compile_freezes a (suits.imp_right (·.1))).bind fun _ cond =>
      (Node.compile_freezes b (suits.imp_right (·.2.1))).bind fun _ yes =>
        (Node.compile_freezes c (suits.imp_right (·.2.2))).map fun _ no => cond.ternary yes no
  | .path root components, suits => by
    rw [Node.CallFree, Node.All] at suits
    rw [Node.compile, Node.fault?]
    refine (Component.compileAll_freezes components (suits.imp_right (·.2))).map fun _ walk => ?_
    refine .dynamic rfl (by rw [Node.constant?]) (by rw [Node.frozen]) ?_
    cases root <;> rw [Code.evaluate, Node.interpret] <;> exact walk _
  | .object members, suits => by
    rw [Node.CallFree, Node.All] at suits
    rw [Node.compile, Node.fault?]
    refine (Node.compileMembers_freezes members suits).map fun _ all => ?_
    refine .dynamic rfl (by rw [Node.constant?]) (by rw [Node.frozen]) ?_
    rw [Code.evaluate, Node.interpret]
    exact Act.Related.bind_same (all []) Act.Twin.freshObject
  | .array items, suits => by
    rw [Node.CallFree, Node.All] at suits
    rw [Node.compile, Node.fault?]
    refine (Node.compileAll_freezes items suits).map fun _ all => ?_
    refine .dynamic rfl (by rw [Node.constant?]) (by rw [Node.frozen]) ?_
    rw [Code.evaluate, Node.interpret]
    exact Act.Related.bind_same (all []) Act.Twin.freshArray
  | .call name args, suits => by
    rw [Node.CallFree, Node.All, or_false] at suits
    rw [Node.compile, Node.fault?]
    cases known : scope.extensions.find? name with
    | none => exact fun _ reachable => ⟨reachable, rfl⟩
    | some function =>
      refine (Node.compileAll_freezes args (.inl suits)).map fun _ all => ?_
      refine .dynamic rfl (by rw [Node.constant?]) (by rw [Node.frozen]) ?_
      rw [Code.evaluate, Node.interpret, known]
      exact Act.Related.bind_same (all []) fun v => Act.Twin.holding (suits function ctx v) v

theorem Node.compileAll_freezes : ∀ ns : List Node,
    call.Oblivious ∨ Node.AllOf (fun _ => True) (fun _ _ => True) ns →
    (Node.compileAll scope ns).Comes (Node.faultOfAll scope ns) fun cs => ∀ done,
      Act.Twin Eq (Code.evaluateAll call ctx record done cs)
        (Node.interpretAll scope.extensions call ctx record done (Node.frozenAll scope.heap ns))
  | [], _ => by
    rw [Node.compileAll, Node.faultOfAll]
    refine .ret fun done => ?_
    rw [Code.evaluateAll, Node.frozenAll, Node.interpretAll]
    exact Act.Related.ret rfl
  | n :: ns, suits => by
    rw [Node.AllOf] at suits
    rw [Node.compileAll, Node.faultOfAll]
    refine (Node.compile_freezes n (suits.imp_right (·.1))).bind fun _ head =>
      (Node.compileAll_freezes ns (suits.imp_right (·.2))).map fun _ tail done => ?_
    rw [Code.evaluateAll, Node.frozenAll, Node.interpretAll]
    exact Act.Related.bind_same (head.twin.holding done) fun _ => tail _

theorem Node.compileMembers_freezes : ∀ ns : List (String × Node),
    call.Oblivious ∨ Node.AllOfMembers (fun _ => True) (fun _ _ => True) ns →
    (Node.compileMembers scope ns).Comes (Node.faultOfMembers scope ns) fun cs => ∀ done,
      Act.Twin Eq (Code.evaluateMembers call ctx record done cs)
        (Node.interpretMembers scope.extensions call ctx record done
          (Node.frozenMembers scope.heap ns))
  | [], _ => by
    rw [Node.compileMembers, Node.faultOfMembers]
    refine .ret fun done => ?_
    rw [Code.evaluateMembers, Node.frozenMembers, Node.interpretMembers]
    exact Act.Related.ret rfl
  | (k, n) :: ns, suits => by
    rw [Node.AllOfMembers] at suits
    rw [Node.compileMembers, Node.faultOfMembers]
    refine (Node.compile_freezes n (suits.imp_right (·.1))).bind fun _ head =>
      (Node.compileMembers_freezes ns (suits.imp_right (·.2))).map fun _ tail done => ?_
    rw [Code.evaluateMembers, Node.frozenMembers, Node.interpretMembers]
    exact Act.Related.bind_same (head.twin.holding done.values) fun _ => tail _

theorem Component.compileAll_freezes : ∀ cs : List Component,
    call.Oblivious ∨ Component.AllOf (fun _ => True) (fun _ _ => True) cs →
    (Component.compileAll scope cs).Comes (Component.faultOfAll scope cs)
      (Step.Faithful scope call ctx record · (Component.frozenAll scope.heap cs))
  | [], _ => by
    rw [Component.compileAll, Component.faultOfAll]
    refine .ret fun current => ?_
    rw [Step.walk, Component.frozenAll, Component.walk]
    exact Act.Related.ret rfl
  | .key k :: cs, suits => by
    rw [Component.AllOf] at suits
    rw [Component.compileAll, Component.faultOfAll, Component.frozenAll]
    exact (Component.compileAll_freezes cs (suits.imp_right (·.2))).map fun _ tail => tail.key k
  | .computed n :: cs, suits => by
    rw [Component.AllOf] at suits
    rw [Component.compileAll, Component.faultOfAll, Component.frozenAll]
    refine (Node.compile_freezes n (suits.imp_right (·.1))).bind fun c head =>
      (Component.compileAll_freezes cs (suits.imp_right (·.2))).map fun _ tail => ?_
    split
    · exact Step.Faithful.computed_literal head.twin tail
    · exact Step.Faithful.computed head.twin tail
end

end

end ReactiveQuery
