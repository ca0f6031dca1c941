import ReactiveQuery.Proofs.Query.Shape
import ReactiveQuery.Proofs.Query.Twin

/-! The constant parts of an expression, made of literals and operators alone.  Freezing puts the
values that they have in one heap in their places; where these depend on no heap, the expression
goes on meaning what it meant. -/

namespace ReactiveQuery

/-- The fault of a computation that failed. -/
def Fault.of? {α : Type} : Except Fault α → Option Fault
  | .ok _ => none
  | .error e => some e

def UnaryOp.meaning (h : Heap) (op : UnaryOp) (v : Value) : Except Fault Value :=
  ((op.apply h v).map .ok).getD (.error .endless)

section
variable (h : Heap)

/-- The value of an expression made of literals and operators alone, when every operator in it has
one. -/
def Node.constant? : Node → Option Value
  | .literal v => some v
  | .unary op a => do (op.meaning h (← a.constant?)).toOption
  | .binary op a b => do (op.meaning h (← a.constant?) (← b.constant?)).toOption
  | .ternary a b c => do
    let cond ← a.constant?
    let yes ← b.constant?
    let no ← c.constant?
    return if cond.truthy then yes else no
  | .path .. | .object _ | .array _ | .call .. => none

mutual
/-- The expression with its constant parts replaced by their values. -/
def Node.frozen : Node → Node
  | .literal v => .literal v
  | .unary op a => (Node.constant? h (.unary op a)).elim (.unary op a.frozen) .literal
  | .binary op a b =>
    (Node.constant? h (.binary op a b)).elim (.binary op a.frozen b.frozen) .literal
  | .ternary a b c =>
    (Node.constant? h (.ternary a b c)).elim (.ternary a.frozen b.frozen c.frozen) .literal
  | .path root components => .path root (Component.frozenAll components)
  | .object members => .object (Node.frozenMembers members)
  | .array items => .array (Node.frozenAll items)
  | .call name args => .call name (Node.frozenAll args)

def Node.frozenAll : List Node → List Node
  | [] => []
  | n :: ns => n.frozen :: Node.frozenAll ns

def Node.frozenMembers : List (String × Node) → List (String × Node)
  | [] => []
  | (k, n) :: ns => (k, n.frozen) :: Node.frozenMembers ns

def Component.frozenAll : List Component → List Component
  | [] => []
  | .key v :: cs => .key v :: Component.frozenAll cs
  | .computed n :: cs => .computed n.frozen :: Component.frozenAll cs
end

end

section
variable (scope : CompileScope)

mutual
/-- The first fault among the operators on constants and the names that are called, whether or not
an evaluation would come to them. -/
def Node.fault? : Node → Option Fault
  | .literal _ => none
  | .unary op a =>
    a.fault?.or ((a.constant? scope.heap).bind fun v => Fault.of? (op.meaning scope.heap v))
  | .binary op a b =>
    a.fault?.or (b.fault?.or ((a.constant? scope.heap).bind fun l =>
      (b.constant? scope.heap).bind fun r => Fault.of? (op.meaning scope.heap l r)))
  | .ternary a b c => a.fault?.or (b.fault?.or c.fault?)
  | .path _ components => Component.faultOfAll components
  | .object members => Node.faultOfMembers members
  | .array items => Node.faultOfAll items
  | .call name args =>
    match scope.extensions.find? name with
    | none => some (.raised (.unknownExtension name))
    | some _ => Node.faultOfAll args

def Node.faultOfAll : List Node → Option Fault
  | [] => none
  | n :: ns => n.fault?.or (Node.faultOfAll ns)

def Node.faultOfMembers : List (String × Node) → Option Fault
  | [] => none
  | (_, n) :: ns => n.fault?.or (Node.faultOfMembers ns)

def Component.faultOfAll : List Component → Option Fault
  | [] => none
  | .key _ :: cs => Component.faultOfAll cs
  | .computed n :: cs => n.fault?.or (Component.faultOfAll cs)
end

end

section
variable {h : Heap} {n : Node} {v : Value}

/-- An expression freezes to a literal when it is constant. -/
theorem Node.frozen_eq_literal : n.frozen h = .literal v ↔ n.constant? h = some v := by
  cases n with
  | literal u => rw [Node.frozen, Node.constant?, Node.literal.injEq, Option.some.injEq]
  | unary | binary | ternary =>
    rw [Node.frozen]
    cases Node.constant? h _ <;> simp
  | path | object | array | call => rw [Node.frozen, Node.constant?]; simp

/-- An expression that freezes alike in two heaps has the same value in both, or none. -/
theorem Node.constant_of_frozen {k : Heap} (same : n.frozen k = n.frozen h) :
    n.constant? k = n.constant? h :=
  Option.ext fun v => by
    rw [← Node.frozen_eq_literal, ← Node.frozen_eq_literal, same]

end

theorem Except.ok_of_toOption {ε α : Type} {x : Except ε α} {a : α} (h : x.toOption = some a) :
    x = .ok a := by
  cases x <;> cases h
  rfl

section
variable {h : Heap}

theorem UnaryOp.places_meaning {op : UnaryOp} {v w : Value} (given : op.meaning h v = .ok w) :
    w.places = [] := by
  rw [meaning] at given
  cases applied : op.apply h v <;> rw [applied] at given <;> cases given
  exact places_apply applied

/-- The value of a constant holds no record or collection that its literals do not hold. -/
theorem Node.places_constant : ∀ {n : Node} {v : Value}, n.constant? h = some v →
    ∀ l ∈ v.places, l ∈ n.places
  | .literal u, v, known, l, held => by
    rw [Node.constant?] at known
    rwa [Node.places, Option.some.inj known]
  | .unary op a, v, known, l, held => by
    rw [Node.constant?] at known
    obtain ⟨u, -, known⟩ := Option.bind_eq_some_iff.mp known
    rw [op.places_meaning (Except.ok_of_toOption known)] at held
    cases held
  | .binary op a b, v, known, l, held => by
    rw [Node.constant?] at known
    obtain ⟨x, left, known⟩ := Option.bind_eq_some_iff.mp known
    obtain ⟨y, right, known⟩ := Option.bind_eq_some_iff.mp known
    rw [Node.places, List.mem_append]
    exact (op.places_meaning (Except.ok_of_toOption known) held).imp
      (Node.places_constant left l) (Node.places_constant right l)
  | .ternary a b c, v, known, l, held => by
    rw [Node.constant?] at known
    obtain ⟨cond, -, known⟩ := Option.bind_eq_some_iff.mp known
    obtain ⟨yes, second, known⟩ := Option.bind_eq_some_iff.mp known
    obtain ⟨no, third, known⟩ := Option.bind_eq_some_iff.mp known
    cases known
    rw [Node.places, List.mem_append, List.mem_append]
    split at held
    · exact .inl (.inr (Node.places_constant second l held))
    · exact .inr (Node.places_constant third l held)
  | .path .., _, known, _, _ | .object _, _, known, _, _ | .array _, _, known, _, _
  | .call .., _, known, _, _ => by rw [Node.constant?] at known; cases known

theorem Node.plain_constant {n : Node} {v : Value} (plain : n.places = [])
    (known : n.constant? h = some v) : v.places = [] :=
  List.eq_nil_iff_forall_not_mem.mpr fun l held => by
    have within := Node.places_constant known l held
    rw [plain] at within
    cases within

end

/-- Two heaps in which values with such places read alike. -/
structure Heap.Alike (P : Nat → Prop) (h h' : Heap) : Prop where
  text : ∀ v : Value, (∀ l ∈ v.places, P l) → h.text v = h'.text v
  contains : ∀ v w : Value, (∀ l ∈ v.places, P l) → (∀ l ∈ w.places, P l) →
    h.contains w v = h'.contains w v

namespace Heap.Alike

/-- Values that hold no record or collection read alike in all heaps. -/
theorem plain (h h' : Heap) : Alike (fun _ => False) h h' where
  text _ inside := Heap.text_plain (List.eq_nil_iff_forall_not_mem.mpr inside) h h'
  contains _ _ left right := Heap.contains_plain (List.eq_nil_iff_forall_not_mem.mpr left)
    (List.eq_nil_iff_forall_not_mem.mpr right) h h'

theorem cells {h h' : Heap} (same : h.cells = h'.cells) : Alike (fun _ => True) h h' where
  text v _ := Heap.text_cells same v
  contains v w _ _ := Heap.contains_cells same v w

end Heap.Alike

section
variable {P : Nat → Prop} {h h' : Heap}

theorem Node.constant_alike (alike : Heap.Alike P h h') : ∀ {n : Node},
    (∀ l ∈ n.places, P l) → n.constant? h = n.constant? h'
  | .literal v, _ => by rw [Node.constant?, Node.constant?]
  | .unary op a, inside => by
    rw [Node.places] at inside
    rw [Node.constant?, Node.constant?, Node.constant_alike alike inside]
    refine Option.bind_congr fun v known => ?_
    have text := alike.text v fun l held => inside l (Node.places_constant known l held)
    rw [UnaryOp.meaning, UnaryOp.meaning, op.apply_congr text]
  | .binary op a b, inside => by
    simp only [Node.places, List.mem_append] at inside
    rw [Node.constant?, Node.constant?,
      Node.constant_alike alike fun l held => inside l (.inl held),
      Node.constant_alike alike fun l held => inside l (.inr held)]
    refine Option.bind_congr fun x left => Option.bind_congr fun y right => ?_
    have within : ∀ l ∈ x.places, P l := fun l held =>
      inside l (.inl (Node.places_constant left l held))
    have within' : ∀ l ∈ y.places, P l := fun l held =>
      inside l (.inr (Node.places_constant right l held))
    rw [op.meaning_congr (alike.text x within) (alike.text y within')
      (alike.contains x y within within')]
  | .ternary a b c, inside => by
    simp only [Node.places, List.mem_append] at inside
    rw [Node.constant?, Node.constant?,
      Node.constant_alike alike fun l held => inside l (.inl (.inl held)),
      Node.constant_alike alike fun l held => inside l (.inl (.inr held)),
      Node.constant_alike alike fun l held => inside l (.inr held)]
  | .path .., _ | .object _, _ | .array _, _ | .call .., _ => by
    rw [Node.constant?, Node.constant?]

mutual
/-- Where all literals read alike, an expression freezes alike. -/
theorem Node.frozen_alike (alike : Heap.Alike P h h') : ∀ n : Node, (∀ l ∈ n.places, P l) →
    n.frozen h = n.frozen h'
  | .literal v, _ => by rw [Node.frozen, Node.frozen]
  | .unary op a, inside => by
    rw [Node.frozen, Node.frozen, Node.constant_alike alike inside]
    rw [Node.places] at inside
    rw [Node.frozen_alike alike a inside]
  | .binary op a b, inside => by
    rw [Node.frozen, Node.frozen, Node.constant_alike alike inside]
    simp only [Node.places, List.mem_append] at inside
    rw [Node.frozen_alike alike a fun l held => inside l (.inl held),
      Node.frozen_alike alike b fun l held => inside l (.inr held)]
  | .ternary a b c, inside => by
    rw [Node.frozen, Node.frozen, Node.constant_alike alike inside]
    simp only [Node.places, List.mem_append] at inside
    rw [Node.frozen_alike alike a fun l held => inside l (.inl (.inl held)),
      Node.frozen_alike alike b fun l held => inside l (.inl (.inr held)),
      Node.frozen_alike alike c fun l held => inside l (.inr held)]
  | .path root components, inside => by
    rw [Node.frozen, Node.frozen, Component.frozenAll_alike alike components inside]
  | .object members, inside => by
    rw [Node.frozen, Node.frozen, Node.frozenMembers_alike alike members inside]
  | .array items, inside => by
    rw [Node.frozen, Node.frozen, Node.frozenAll_alike alike items inside]
  | .call name args, inside => by
    rw [Node.frozen, Node.frozen, Node.frozenAll_alike alike args inside]

theorem Node.frozenAll_alike (alike : Heap.Alike P h h') : ∀ ns : List Node,
    (∀ l ∈ Node.placesOfAll ns, P l) → Node.frozenAll h ns = Node.frozenAll h' ns
  | [], _ => by rw [Node.frozenAll, Node.frozenAll]
  | n :: ns, inside => by
    simp only [Node.placesOfAll, List.mem_append] at inside
    rw [Node.frozenAll, Node.frozenAll,
      Node.frozen_alike alike n fun l held => inside l (.inl held),
      Node.frozenAll_alike alike ns fun l held => inside l (.inr held)]

theorem Node.frozenMembers_alike (alike : Heap.Alike P h h') : ∀ ns : List (String × Node),
    (∀ l ∈ Node.placesOfMembers ns, P l) → Node.frozenMembers h ns = Node.frozenMembers h' ns
  | [], _ => by rw [Node.frozenMembers, Node.frozenMembers]
  | (k, n) :: ns, inside => by
    simp only [Node.placesOfMembers, List.mem_append] at inside
    rw [Node.frozenMembers, Node.frozenMembers,
      Node.frozen_alike alike n fun l held => inside l (.inl held),
      Node.frozenMembers_alike alike ns fun l held => inside l (.inr held)]

theorem Component.frozenAll_alike (alike : Heap.Alike P h h') : ∀ cs : List Component,
    (∀ l ∈ Component.placesOfAll cs, P l) → Component.frozenAll h cs = Component.frozenAll h' cs
  | [], _ => by rw [Component.frozenAll, Component.frozenAll]
  | .key v :: cs, inside => by
    simp only [Component.placesOfAll, List.mem_append] at inside
    rw [Component.frozenAll, Component.frozenAll,
      Component.frozenAll_alike alike cs fun l held => inside l (.inr held)]
  | .computed n :: cs, inside => by
    simp only [Component.placesOfAll, List.mem_append] at inside
    rw [Component.frozenAll, Component.frozenAll,
      Node.frozen_alike alike n fun l held => inside l (.inl held),
      Component.frozenAll_alike alike cs fun l held => inside l (.inr held)]
end

end

/-- The fault of a text that is used as a pattern and is none. -/
def Fault.IsPattern (e : Fault) : Prop :=
  ∃ p, e = .raised (.invalidPattern p "not a pattern") ∧ Regex.Program.ofText? p = none

/-- An expression without calls. -/
abbrev Node.CallFree (n : Node) : Prop := n.All (fun _ => True) fun _ _ => True

section
variable {scope : CompileScope} {e : Fault}

theorem Fault.of?_eq_some {α : Type} {x : Except Fault α} :
    Fault.of? x = some e ↔ x = .error e := by
  cases x <;> simp [Fault.of?]

/-- On values that hold no record or collection an operator can only fail to read a pattern. -/
theorem BinaryOp.isPattern_of_plain {op : BinaryOp} {h : Heap} {l r : Value}
    (left : l.places = []) (right : r.places = []) (failed : op.meaning h l r = .error e) :
    e.IsPattern := by
  by_cases regex : op = .regex
  · subst regex
    obtain ⟨s, found⟩ := Heap.exists_text_plain right h
    cases l with
    | text p =>
      simp only [meaning, patternMeaning, found] at failed
      cases written : Regex.Program.ofText? p <;> rw [written] at failed <;> cases failed
      exact ⟨p, rfl, written⟩
    | _ => cases failed
  · obtain ⟨v, applied⟩ := op.exists_apply_plain left right h
    rw [meaning_of_ne regex, applied] at failed
    cases failed

mutual
theorem Node.isPattern_of_plain : ∀ n : Node, n.places = [] → n.CallFree →
    n.fault? scope = some e → e.IsPattern
  | .literal _, _, _, failed => by rw [Node.fault?] at failed; cases failed
  | .unary op a, plain, free, failed => by
    rw [Node.CallFree, Node.All] at free
    rw [Node.places] at plain
    rw [Node.fault?, Option.or_eq_some_iff] at failed
    obtain failed | ⟨-, failed⟩ := failed
    · exact Node.isPattern_of_plain a plain free failed
    · obtain ⟨v, known, failed⟩ := Option.bind_eq_some_iff.mp failed
      obtain ⟨w, applied⟩ :=
        op.exists_apply_plain (Node.plain_constant plain known) scope.heap
      rw [UnaryOp.meaning, applied] at failed
      cases failed
  | .binary op a b, plain, free, failed => by
    rw [Node.CallFree, Node.All] at free
    rw [Node.places, List.append_eq_nil_iff] at plain
    rw [Node.fault?, Option.or_eq_some_iff, Option.or_eq_some_iff] at failed
    obtain failed | ⟨-, failed | ⟨-, failed⟩⟩ := failed
    · exact Node.isPattern_of_plain a plain.1 free.1 failed
    · exact Node.isPattern_of_plain b plain.2 free.2 failed
    · obtain ⟨l, left, failed⟩ := Option.bind_eq_some_iff.mp failed
      obtain ⟨r, right, failed⟩ := Option.bind_eq_some_iff.mp failed
      exact op.isPattern_of_plain (Node.plain_constant plain.1 left)
        (Node.plain_constant plain.2 right) (Fault.of?_eq_some.mp failed)
  | .ternary a b c, plain, free, failed => by
    rw [Node.CallFree, Node.All] at free
    rw [Node.places, List.append_eq_nil_iff, List.append_eq_nil_iff] at plain
    rw [Node.fault?, Option.or_eq_some_iff, Option.or_eq_some_iff] at failed
    obtain failed | ⟨-, failed | ⟨-, failed⟩⟩ := failed
    · exact Node.isPattern_of_plain a plain.1.1 free.1 failed
    · exact Node.isPattern_of_plain b plain.1.2 free.2.1 failed
    · exact Node.isPattern_of_plain c plain.2 free.2.2 failed
  | .path _ components, plain, free, failed => by
    rw [Node.CallFree, Node.All] at free
    rw [Node.fault?] at failed
    exact Component.isPattern_of_plain components plain free.2 failed
  | .object members, plain, free, failed => by
    rw [Node.CallFree, Node.All] at free
    rw [Node.fault?] at failed
    exact Node.isPattern_of_plainMembers members plain free failed
  | .array items, plain, free, failed => by
    rw [Node.CallFree, Node.All] at free
    rw [Node.fault?] at failed
    exact Node.isPattern_of_plainAll items plain free failed
  | .call .., _, free, _ => by
    rw [Node.CallFree, Node.All] at free
    exact free.elim

theorem Node.isPattern_of_plainAll : ∀ ns : List Node, Node.placesOfAll ns = [] →
    Node.AllOf (fun _ => True) (fun _ _ => True) ns → Node.faultOfAll scope ns = some e →
      e.IsPattern
  | [], _, _, failed => by rw [Node.faultOfAll] at failed; cases failed
  | n :: ns, plain, free, failed => by
    rw [Node.AllOf] at free
    rw [Node.placesOfAll, List.append_eq_nil_iff] at plain
    rw [Node.faultOfAll, Option.or_eq_some_iff] at failed
    obtain failed | ⟨-, failed⟩ := failed
    · exact Node.isPattern_of_plain n plain.1 free.1 failed
    · exact Node.isPattern_of_plainAll ns plain.2 free.2 failed

theorem Node.isPattern_of_plainMembers : ∀ ns : List (String × Node),
    Node.placesOfMembers ns = [] → Node.AllOfMembers (fun _ => True) (fun _ _ => True) ns →
      Node.faultOfMembers scope ns = some e → e.IsPattern
  | [], _, _, failed => by rw [Node.faultOfMembers] at failed; cases failed
  | (_, n) :: ns, plain, free, failed => by
    rw [Node.AllOfMembers] at free
    rw [Node.placesOfMembers, List.append_eq_nil_iff] at plain
    rw [Node.faultOfMembers, Option.or_eq_some_iff] at failed
    obtain failed | ⟨-, failed⟩ := failed
    · exact Node.isPattern_of_plain n plain.1 free.1 failed
    · exact Node.isPattern_of_plainMembers ns plain.2 free.2 failed

theorem Component.isPattern_of_plain : ∀ cs : List Component, Component.placesOfAll cs = [] →
    Component.AllOf (fun _ => True) (fun _ _ => True) cs →
      Component.faultOfAll scope cs = some e → e.IsPattern
  | [], _, _, failed => by rw [Component.faultOfAll] at failed; cases failed
  | .key _ :: cs, plain, free, failed => by
    rw [Component.AllOf] at free
    rw [Component.placesOfAll, List.append_eq_nil_iff] at plain
    rw [Component.faultOfAll] at failed
    exact Component.isPattern_of_plain cs plain.2 free.2 failed
  | .computed n :: cs, plain, free, failed => by
    rw [Component.AllOf] at free
    rw [Component.placesOfAll, List.append_eq_nil_iff] at plain
    rw [Component.faultOfAll, Option.or_eq_some_iff] at failed
    obtain failed | ⟨-, failed⟩ := failed
    · exact Node.isPattern_of_plain n plain.1 free.1 failed
    · exact Component.isPattern_of_plain cs plain.2 free.2 failed
end

end

end ReactiveQuery
