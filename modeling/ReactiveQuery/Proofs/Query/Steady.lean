import ReactiveQuery.Proofs.Query.Constant

/-! Freezing constants where their values are settled.  In worlds whose heaps all give them the same
values, an expression and its frozen form mean the same. -/

namespace ReactiveQuery

/-- One world, of which the heap satisfies a condition. -/
structure World.Common (K : Heap → Prop) (u v : World) : Prop where
  same : u = v
  heap : K u.heap

namespace Act

variable {α β : Type} {K : Heap → Prop} {V : α → β → Prop} {x y : Act α}

/-- From every world with such a heap two activities come to related results and leave the same
world, with such a heap. -/
abbrev Settled (K : Heap → Prop) (V : α → β → Prop) := Related False (World.Common K) V

namespace Settled

theorem of_on (same : ∀ w, K w.heap → x.on w = y.on w) (kept : ∀ w, K w.heap → K (y.on w).2.heap) :
    Settled K Eq x y := by
  rintro w _ ⟨rfl, here⟩
  have after := kept w here
  rw [same w here]
  generalize y.on w = outcome at after ⊢
  obtain ⟨e | a, v⟩ := outcome
  · exact .error ⟨rfl, after⟩
  · exact .ok rfl ⟨rfl, after⟩

theorem on (settled : Settled K Eq x y) {w : World} (here : K w.heap) : x.on w = y.on w := by
  have outcome := settled w w ⟨rfl, here⟩
  exact Prod.ext outcome.result outcome.world.same

theorem get : Settled K Eq (get : Act World) (MonadState.get : Act World) :=
  .of_on (fun _ _ => rfl) fun _ => id

theorem ask (question : Heap → Option α) : Settled K Eq (Act.ask question) (Act.ask question) :=
  .of_on (fun _ _ => rfl) fun w here => by rwa [on_ask]

theorem judge (question : Heap → Except Fault α) :
    Settled K Eq (Act.judge question) (Act.judge question) :=
  .of_on (fun _ _ => rfl) fun w here => by rwa [on_judge]

theorem holding {x : Act α} {y : Act β} (h : Settled K V x y) (held : List Value) :
    Settled K V (Act.holding held x) (Act.holding held y) :=
  Related.holding (fun _ _ common => ⟨by rw [common.same], common.heap⟩)
    (fun _ _ _ _ before after => ⟨by rw [before.same, after.same], after.heap⟩) h

end Settled

end Act

/-- Operands that are there already, in every world with the same heap, are only put together. -/
theorem Act.on_operate {op : BinaryOp} {x y : Act Value} {l r : Value} {w : World}
    (left : x.on w = (.ok l, w))
    (right : ∀ held, y.on { w with held } = (.ok r, { w with held })) :
    (Act.operate op x y fun l r => Act.judge (op.meaning · l r)).on w =
      (op.meaning w.heap l r, w) := by
  have second : ∀ values, (Act.holding values y).on w = (.ok r, w) := fun values => by
    rw [Act.on_holding, right]
  cases op
  case and | or =>
    rw [Act.operate, Act.on_bind_ok left]
    simp only [BinaryOp.meaning, BinaryOp.apply]
    split <;> simp_all
  all_goals
    rw [Act.operate, Act.on_bind_ok left, Act.on_bind_ok (second _), Act.on_judge]
    all_goals rintro ⟨⟩

section
variable {es : Extensions} {call : Caller} {ctx : Context} {record : Value}

/-- In a world with this heap a constant part comes to its value, and does nothing else. -/
theorem Node.interpret_constant : ∀ {n : Node} {v : Value} {w : World},
    n.constant? w.heap = some v → (n.interpret es call ctx record).on w = (.ok v, w)
  | .literal u, v, w, known => by
    rw [Node.constant?] at known
    rw [Node.interpret, Option.some.inj known, Act.on_pure]
  | .unary op a, v, w, known => by
    rw [Node.constant?] at known
    obtain ⟨u, operand, known⟩ := Option.bind_eq_some_iff.mp known
    rw [Node.interpret, Act.on_bind_ok (Node.interpret_constant operand), Act.on_ask]
    exact congrArg (·, w) (Except.ok_of_toOption known)
  | .binary op a b, v, w, known => by
    rw [Node.constant?] at known
    obtain ⟨l, left, known⟩ := Option.bind_eq_some_iff.mp known
    obtain ⟨r, right, known⟩ := Option.bind_eq_some_iff.mp known
    rw [Node.interpret_binary, Act.on_operate (Node.interpret_constant left) fun held =>
      Node.interpret_constant (w := { w with held }) right, Except.ok_of_toOption known]
  | .ternary a b c, v, w, known => by
    rw [Node.constant?] at known
    obtain ⟨cond, first, known⟩ := Option.bind_eq_some_iff.mp known
    obtain ⟨yes, second, known⟩ := Option.bind_eq_some_iff.mp known
    obtain ⟨no, third, known⟩ := Option.bind_eq_some_iff.mp known
    cases known
    rw [Node.interpret, Act.on_bind_ok (Node.interpret_constant first)]
    split
    · exact Node.interpret_constant second
    · exact Node.interpret_constant third
  | .path .., _, _, known | .object _, _, _, known | .array _, _, _, known
  | .call .., _, _, known => by rw [Node.constant?] at known; cases known

variable {K : Heap → Prop} {h : Heap}

/-- A condition on heaps that giving tags away does not touch. -/
def Heap.Untagged (K : Heap → Prop) : Prop := ∀ h tag, K h → K { h with nextTag := tag }

namespace Act.Settled

theorem freshArray (tags : Heap.Untagged K) (items : List Value) :
    Settled K Eq (Act.freshArray items) (Act.freshArray items) :=
  .of_on (fun _ _ => rfl) fun w => tags w.heap _

theorem freshObject (tags : Heap.Untagged K) (fields : FieldMap Value) :
    Settled K Eq (Act.freshObject fields) (Act.freshObject fields) :=
  .of_on (fun _ _ => rfl) fun w => tags w.heap _

end Act.Settled

/-- Calls that keep a condition on heaps. -/
def Caller.Settled (call : Caller) (K : Heap → Prop) : Prop :=
  ∀ function ctx args, Act.Settled K Eq (call function ctx args) (call function ctx args)

theorem Node.settled_constant {n : Node} {v : Value}
    (steady : ∀ k, K k → n.frozen k = n.frozen h) (known : n.constant? h = some v) :
    Act.Settled K Eq ((n.frozen h).interpret es call ctx record)
      (n.interpret es call ctx record) := by
  have always : ∀ w : World, K w.heap → (n.interpret es call ctx record).on w = (.ok v, w) :=
    fun w here => Node.interpret_constant
      ((Node.constant_of_frozen (steady w.heap here)).trans known)
  rw [Node.frozen_eq_literal.mpr known, Node.interpret]
  exact .of_on (fun w here => (always w here).symm) fun w here => by rwa [always w here]

mutual
/-- What freezes alike in all heaps of a kind means what it meant in them. -/
theorem Node.interpret_frozen (tags : Heap.Untagged K) : ∀ n : Node,
    call.Settled K ∨ n.CallFree → (∀ k, K k → n.frozen k = n.frozen h) →
    Act.Settled K Eq ((n.frozen h).interpret es call ctx record)
      (n.interpret es call ctx record)
  | .literal v, _, _ => by
    rw [Node.frozen, Node.interpret]
    exact Act.Related.ret rfl
  | .unary op a, suits, steady => by
    rw [Node.CallFree, Node.All] at suits
    cases known : (Node.unary op a).constant? h with
    | some v => exact Node.settled_constant steady known
    | none =>
      have parts : ∀ k, K k → a.frozen k = a.frozen h := fun k here => by
        have same := steady k here
        rw [Node.frozen, Node.frozen, Node.constant_of_frozen (steady k here), known] at same
        exact (Node.unary.inj same).2
      rw [Node.frozen, known, Option.elim_none, Node.interpret, Node.interpret]
      have operand := Node.interpret_frozen tags a suits parts
      exact operand.bind_same fun _ => Act.Settled.ask _
  | .binary op a b, suits, steady => by
    rw [Node.CallFree, Node.All] at suits
    cases known : (Node.binary op a b).constant? h with
    | some v => exact Node.settled_constant steady known
    | none =>
      have parts : ∀ k, K k → a.frozen k = a.frozen h ∧ b.frozen k = b.frozen h :=
        fun k here => by
          have same := steady k here
          rw [Node.frozen, Node.frozen, Node.constant_of_frozen (steady k here), known] at same
          exact (Node.binary.inj same).2
      rw [Node.frozen, known, Option.elim_none, Node.interpret_binary, Node.interpret_binary]
      have left := Node.interpret_frozen tags a (suits.imp_right (·.1)) fun k here =>
        (parts k here).1
      have right := Node.interpret_frozen tags b (suits.imp_right (·.2)) fun k here =>
        (parts k here).2
      exact .operate_same (fun l => right.holding [l]) left fun _ _ => Act.Settled.judge _
  | .ternary a b c, suits, steady => by
    rw [Node.CallFree, Node.All] at suits
    cases known : (Node.ternary a b c).constant? h with
    | some v => exact Node.settled_constant steady known
    | none =>
      have parts : ∀ k, K k → a.frozen k = a.frozen h ∧ b.frozen k = b.frozen h ∧
          c.frozen k = c.frozen h := fun k here => by
        have same := steady k here
        rw [Node.frozen, Node.frozen, Node.constant_of_frozen (steady k here), known] at same
        exact Node.ternary.inj same
      rw [Node.frozen, known, Option.elim_none, Node.interpret, Node.interpret]
      have cond := Node.interpret_frozen tags a (suits.imp_right (·.1)) fun k here =>
        (parts k here).1
      refine cond.bind_same fun v => ?_
      split
      · exact Node.interpret_frozen tags b (suits.imp_right (·.2.1)) fun k here =>
          (parts k here).2.1
      · exact Node.interpret_frozen tags c (suits.imp_right (·.2.2)) fun k here =>
          (parts k here).2.2
  | .path root components, suits, steady => by
    rw [Node.CallFree, Node.All] at suits
    have parts : ∀ k, K k → Component.frozenAll k components = Component.frozenAll h components :=
      fun k here => by
        have same := steady k here
        rw [Node.frozen, Node.frozen] at same
        exact (Node.path.inj same).2
    rw [Node.frozen, Node.interpret, Node.interpret]
    exact Component.walk_frozen tags components (suits.imp_right (·.2)) parts _
  | .object members, suits, steady => by
    rw [Node.CallFree, Node.All] at suits
    have parts : ∀ k, K k → Node.frozenMembers k members = Node.frozenMembers h members :=
      fun k here => by
        have same := steady k here
        rw [Node.frozen, Node.frozen] at same
        exact Node.object.inj same
    rw [Node.frozen, Node.interpret, Node.interpret]
    exact Act.Related.bind_same (Node.interpretMembers_frozen tags members suits parts [])
      (Act.Settled.freshObject tags)
  | .array items, suits, steady => by
    rw [Node.CallFree, Node.All] at suits
    have parts : ∀ k, K k → Node.frozenAll k items = Node.frozenAll h items := fun k here => by
      have same := steady k here
      rw [Node.frozen, Node.frozen] at same
      exact Node.array.inj same
    rw [Node.frozen, Node.interpret, Node.interpret]
    exact Act.Related.bind_same (Node.interpretAll_frozen tags items suits parts [])
      (Act.Settled.freshArray tags)
  | .call name args, suits, steady => by
    rw [Node.CallFree, Node.All, or_false] at suits
    have parts : ∀ k, K k → Node.frozenAll k args = Node.frozenAll h args := fun k here => by
      have same := steady k here
      rw [Node.frozen, Node.frozen] at same
      exact (Node.call.inj same).2
    rw [Node.frozen, Node.interpret, Node.interpret]
    split
    · exact fun _ _ common => .error common
    · exact Act.Related.bind_same (Node.interpretAll_frozen tags args (.inl suits) parts [])
        fun values => (suits _ ctx values).holding values

theorem Node.interpretAll_frozen (tags : Heap.Untagged K) : ∀ ns : List Node,
    call.Settled K ∨ Node.AllOf (fun _ => True) (fun _ _ => True) ns →
    (∀ k, K k → Node.frozenAll k ns = Node.frozenAll h ns) → ∀ done,
      Act.Settled K Eq (Node.interpretAll es call ctx record done (Node.frozenAll h ns))
        (Node.interpretAll es call ctx record done ns)
  | [], _, _, done => by
    rw [Node.frozenAll, Node.interpretAll]
    exact Act.Related.ret rfl
  | n :: ns, suits, steady, done => by
    rw [Node.AllOf] at suits
    have parts : ∀ k, K k → n.frozen k = n.frozen h ∧ Node.frozenAll k ns = Node.frozenAll h ns :=
      fun k here => by
        have same := steady k here
        rw [Node.frozenAll, Node.frozenAll] at same
        exact List.cons.inj same
    rw [Node.frozenAll, Node.interpretAll, Node.interpretAll]
    have head := Node.interpret_frozen tags n (suits.imp_right (·.1)) fun k here =>
      (parts k here).1
    have tail := Node.interpretAll_frozen tags ns (suits.imp_right (·.2)) fun k here =>
      (parts k here).2
    exact Act.Related.bind_same (head.holding done) fun v => tail (done ++ [v])

theorem Node.interpretMembers_frozen (tags : Heap.Untagged K) : ∀ ns : List (String × Node),
    call.Settled K ∨ Node.AllOfMembers (fun _ => True) (fun _ _ => True) ns →
    (∀ k, K k → Node.frozenMembers k ns = Node.frozenMembers h ns) → ∀ done,
      Act.Settled K Eq
        (Node.interpretMembers es call ctx record done (Node.frozenMembers h ns))
        (Node.interpretMembers es call ctx record done ns)
  | [], _, _, done => by
    rw [Node.frozenMembers, Node.interpretMembers]
    exact Act.Related.ret rfl
  | (key, n) :: ns, suits, steady, done => by
    rw [Node.AllOfMembers] at suits
    have parts : ∀ k, K k → n.frozen k = n.frozen h ∧
        Node.frozenMembers k ns = Node.frozenMembers h ns := fun k here => by
      have same := steady k here
      rw [Node.frozenMembers, Node.frozenMembers] at same
      exact (List.cons.inj same).imp (fun first => (Prod.mk.inj first).2) id
    rw [Node.frozenMembers, Node.interpretMembers, Node.interpretMembers]
    have head := Node.interpret_frozen tags n (suits.imp_right (·.1)) fun k here =>
      (parts k here).1
    have tail := Node.interpretMembers_frozen tags ns (suits.imp_right (·.2)) fun k here =>
      (parts k here).2
    exact Act.Related.bind_same (head.holding done.values) fun v => tail (done.insert key v)

theorem Component.walk_frozen (tags : Heap.Untagged K) : ∀ cs : List Component,
    call.Settled K ∨ Component.AllOf (fun _ => True) (fun _ _ => True) cs →
    (∀ k, K k → Component.frozenAll k cs = Component.frozenAll h cs) → ∀ current,
      Act.Settled K Eq (Component.walk es call ctx record current (Component.frozenAll h cs))
        (Component.walk es call ctx record current cs)
  | [], _, _, current => by
    rw [Component.frozenAll, Component.walk]
    exact Act.Related.ret rfl
  | .key v :: cs, suits, steady, current => by
    rw [Component.AllOf] at suits
    have parts : ∀ k, K k → Component.frozenAll k cs = Component.frozenAll h cs :=
      fun k here => by
        have same := steady k here
        rw [Component.frozenAll, Component.frozenAll] at same
        exact (List.cons.inj same).2
    rw [Component.frozenAll, Component.walk, Component.walk]
    have tail := Component.walk_frozen tags cs (suits.imp_right (·.2)) parts
    refine Act.Settled.get.bind_same fun w => ?_
    split
    · exact Act.Related.ret rfl
    · exact Act.Related.bind_same (Act.Settled.ask _) tail
  | .computed n :: cs, suits, steady, current => by
    rw [Component.AllOf] at suits
    have parts : ∀ k, K k → n.frozen k = n.frozen h ∧
        Component.frozenAll k cs = Component.frozenAll h cs := fun k here => by
      have same := steady k here
      rw [Component.frozenAll, Component.frozenAll] at same
      exact (List.cons.inj same).imp Component.computed.inj id
    rw [Component.frozenAll, Component.walk, Component.walk]
    have head := Node.interpret_frozen tags n (suits.imp_right (·.1)) fun k here =>
      (parts k here).1
    have tail := Component.walk_frozen tags cs (suits.imp_right (·.2)) fun k here =>
      (parts k here).2
    refine Act.Settled.get.bind_same fun w => ?_
    split
    · exact Act.Related.ret rfl
    · next v _ =>
      exact Act.Related.bind_same (head.holding [v]) fun _ =>
        Act.Related.bind_same (Act.Settled.ask _) tail
end

end

end ReactiveQuery
