import ReactiveQuery.Proofs.Query.Direct
import ReactiveQuery.Query.Draft

/-! Expressions without calls, of which every literal and every path satisfies a condition. -/

namespace ReactiveQuery

section
variable (lit : Value → Prop) (path : Root → List Step → Prop)

mutual
/-- Code without calls, whose literals and paths all satisfy conditions. -/
def Code.All : Code → Prop
  | .literal v => lit v
  | .unary _ a => a.All
  | .binary _ a b => a.All ∧ b.All
  | .ternary a b c => a.All ∧ b.All ∧ c.All
  | .path root steps => path root steps ∧ Step.AllOf steps
  | .object members => Code.AllOfMembers members
  | .array items => Code.AllOf items
  | .call .. => False

def Code.AllOf : List Code → Prop
  | [] => True
  | c :: cs => c.All ∧ Code.AllOf cs

def Code.AllOfMembers : List (String × Code) → Prop
  | [] => True
  | (_, c) :: cs => c.All ∧ Code.AllOfMembers cs

def Step.AllOf : List Step → Prop
  | [] => True
  | .key v :: steps => lit v ∧ Step.AllOf steps
  | .computed c :: steps => c.All ∧ Step.AllOf steps
end

/-- A definition without calls, whose literals and paths all satisfy conditions. -/
structure Definition.All (d : Definition) : Prop where
  filter : d.filter.All lit path
  select : ∀ c ∈ d.select, c.All lit path
  sort : ∀ keys ∈ d.sort, ∀ key ∈ keys, path key.root key.steps ∧ Step.AllOf lit path key.steps

end

section
variable (lit : Value → Prop) (path : Root → List Component → Prop)

mutual
/-- An expression without calls, whose literals and paths all satisfy conditions. -/
def Node.All : Node → Prop
  | .literal v => lit v
  | .unary _ a => a.All
  | .binary _ a b => a.All ∧ b.All
  | .ternary a b c => a.All ∧ b.All ∧ c.All
  | .path root components => path root components ∧ Component.AllOf components
  | .object members => Node.AllOfMembers members
  | .array items => Node.AllOf items
  | .call .. => False

def Node.AllOf : List Node → Prop
  | [] => True
  | n :: ns => n.All ∧ Node.AllOf ns

def Node.AllOfMembers : List (String × Node) → Prop
  | [] => True
  | (_, n) :: ns => n.All ∧ Node.AllOfMembers ns

def Component.AllOf : List Component → Prop
  | [] => True
  | .key v :: components => lit v ∧ Component.AllOf components
  | .computed n :: components => n.All ∧ Component.AllOf components
end

end

section
variable {lit lit' : Value → Prop} {path path' : Root → List Step → Prop}

mutual
/-- Weaker conditions hold of the same code. -/
theorem Code.All.mono (lits : ∀ v, lit v → lit' v)
    (paths : ∀ root steps, path root steps → path' root steps) :
    ∀ {c : Code}, c.All lit path → c.All lit' path'
  | .literal v, h => by rw [Code.All] at h ⊢; exact lits v h
  | .unary _ a, h => by rw [Code.All] at h ⊢; exact h.mono lits paths
  | .binary _ a b, h => by rw [Code.All] at h ⊢; exact ⟨h.1.mono lits paths, h.2.mono lits paths⟩
  | .ternary a b c, h => by
    rw [Code.All] at h ⊢
    exact ⟨h.1.mono lits paths, h.2.1.mono lits paths, h.2.2.mono lits paths⟩
  | .path root steps, h => by
    rw [Code.All] at h ⊢
    exact ⟨paths root steps h.1, Step.AllOf.mono lits paths h.2⟩
  | .object members, h => by rw [Code.All] at h ⊢; exact Code.AllOfMembers.mono lits paths h
  | .array items, h => by rw [Code.All] at h ⊢; exact Code.AllOf.mono lits paths h
  | .call .., h => by rw [Code.All] at h; exact h.elim

theorem Code.AllOf.mono (lits : ∀ v, lit v → lit' v)
    (paths : ∀ root steps, path root steps → path' root steps) :
    ∀ {cs : List Code}, Code.AllOf lit path cs → Code.AllOf lit' path' cs
  | [], _ => by rw [Code.AllOf]; trivial
  | _ :: _, h => by
    rw [Code.AllOf] at h ⊢
    exact ⟨h.1.mono lits paths, Code.AllOf.mono lits paths h.2⟩

theorem Code.AllOfMembers.mono (lits : ∀ v, lit v → lit' v)
    (paths : ∀ root steps, path root steps → path' root steps) :
    ∀ {cs : List (String × Code)},
      Code.AllOfMembers lit path cs → Code.AllOfMembers lit' path' cs
  | [], _ => by rw [Code.AllOfMembers]; trivial
  | (_, _) :: _, h => by
    rw [Code.AllOfMembers] at h ⊢
    exact ⟨h.1.mono lits paths, Code.AllOfMembers.mono lits paths h.2⟩

theorem Step.AllOf.mono (lits : ∀ v, lit v → lit' v)
    (paths : ∀ root steps, path root steps → path' root steps) :
    ∀ {steps : List Step}, Step.AllOf lit path steps → Step.AllOf lit' path' steps
  | [], _ => by rw [Step.AllOf]; trivial
  | .key _ :: _, h => by rw [Step.AllOf] at h ⊢; exact ⟨lits _ h.1, Step.AllOf.mono lits paths h.2⟩
  | .computed _ :: _, h => by
    rw [Step.AllOf] at h ⊢
    exact ⟨h.1.mono lits paths, Step.AllOf.mono lits paths h.2⟩
end

theorem Definition.All.mono (lits : ∀ v, lit v → lit' v)
    (paths : ∀ root steps, path root steps → path' root steps) {d : Definition}
    (h : d.All lit path) : d.All lit' path' where
  filter := h.filter.mono lits paths
  select := fun c chosen => (h.select c chosen).mono lits paths
  sort := fun keys sorted key member =>
    ⟨paths _ _ (h.sort keys sorted key member).1,
      Step.AllOf.mono lits paths (h.sort keys sorted key member).2⟩

end

section
variable {lit lit' : Value → Prop} {path path' : Root → List Component → Prop}

mutual
theorem Node.All.mono (lits : ∀ v, lit v → lit' v)
    (paths : ∀ root components, path root components → path' root components) :
    ∀ {n : Node}, n.All lit path → n.All lit' path'
  | .literal v, h => by rw [Node.All] at h ⊢; exact lits v h
  | .unary _ a, h => by rw [Node.All] at h ⊢; exact h.mono lits paths
  | .binary _ a b, h => by rw [Node.All] at h ⊢; exact ⟨h.1.mono lits paths, h.2.mono lits paths⟩
  | .ternary a b c, h => by
    rw [Node.All] at h ⊢
    exact ⟨h.1.mono lits paths, h.2.1.mono lits paths, h.2.2.mono lits paths⟩
  | .path root components, h => by
    rw [Node.All] at h ⊢
    exact ⟨paths root components h.1, Component.AllOf.mono lits paths h.2⟩
  | .object members, h => by rw [Node.All] at h ⊢; exact Node.AllOfMembers.mono lits paths h
  | .array items, h => by rw [Node.All] at h ⊢; exact Node.AllOf.mono lits paths h
  | .call .., h => by rw [Node.All] at h; exact h.elim

theorem Node.AllOf.mono (lits : ∀ v, lit v → lit' v)
    (paths : ∀ root components, path root components → path' root components) :
    ∀ {ns : List Node}, Node.AllOf lit path ns → Node.AllOf lit' path' ns
  | [], _ => by rw [Node.AllOf]; trivial
  | _ :: _, h => by
    rw [Node.AllOf] at h ⊢
    exact ⟨h.1.mono lits paths, Node.AllOf.mono lits paths h.2⟩

theorem Node.AllOfMembers.mono (lits : ∀ v, lit v → lit' v)
    (paths : ∀ root components, path root components → path' root components) :
    ∀ {ns : List (String × Node)}, Node.AllOfMembers lit path ns → Node.AllOfMembers lit' path' ns
  | [], _ => by rw [Node.AllOfMembers]; trivial
  | (_, _) :: _, h => by
    rw [Node.AllOfMembers] at h ⊢
    exact ⟨h.1.mono lits paths, Node.AllOfMembers.mono lits paths h.2⟩

theorem Component.AllOf.mono (lits : ∀ v, lit v → lit' v)
    (paths : ∀ root components, path root components → path' root components) :
    ∀ {cs : List Component}, Component.AllOf lit path cs → Component.AllOf lit' path' cs
  | [], _ => by rw [Component.AllOf]; trivial
  | .key _ :: _, h => by
    rw [Component.AllOf] at h ⊢
    exact ⟨lits _ h.1, Component.AllOf.mono lits paths h.2⟩
  | .computed _ :: _, h => by
    rw [Component.AllOf] at h ⊢
    exact ⟨h.1.mono lits paths, Component.AllOf.mono lits paths h.2⟩
end

theorem Node.allOf_iff {ns : List Node} : Node.AllOf lit path ns ↔ ∀ n ∈ ns, n.All lit path := by
  induction ns with
  | nil => simp [Node.AllOf]
  | cons n ns ih => simp [Node.AllOf, ih]

theorem Component.AllOf.key {cs : List Component} {v : Value} (h : Component.AllOf lit path cs)
    (member : .key v ∈ cs) : lit v := by
  induction cs with
  | nil => exact absurd member List.not_mem_nil
  | cons c cs ih =>
    cases c <;> rw [Component.AllOf] at h <;> rcases List.mem_cons.mp member with same | member
    · cases same
      exact h.1
    · exact ih h.2 member
    · cases same
    · exact ih h.2 member

/-- The operator node of a tag is made of its operands. -/
theorem Node.all_ofTag {tag : String} {operands : List Node} {n : Node}
    (all : ∀ m ∈ operands, m.All lit path) (made : Node.ofTag tag operands = .ok n) :
    n.All lit path := by
  unfold Node.ofTag at made
  split at made <;> try cases made
  case h_1 | h_2 =>
    rw [Node.All]
    exact all _ (by simp)
  case h_5 | h_6 =>
    rw [Node.All]
    exact ⟨all _ (by simp), all _ (by simp), all _ (by simp)⟩
  case h_9 =>
    rw [Node.All]
    exact Node.allOf_iff.mpr all
  case h_10 =>
    split at made <;> cases made
    rw [Node.All]
    exact ⟨all _ (by simp), all _ (by simp)⟩

/-- What operator nodes of a node, or of it and a one, take over from it holds of what it is wrapped
in. -/
theorem Build.wrap_induction {P : Node → Prop} {tag : String} {count : Nat} {n m : Node}
    (step : ∀ k k' operands, operands = [k] ∨ operands = [k, .literal (.number .one)] → P k →
      Node.ofTag tag operands = .ok k' → P k')
    (start : P n) (made : Build.wrap tag count n = .ok m) : P m := by
  induction count generalizing n with
  | zero =>
    cases made
    exact start
  | succ count ih =>
    rw [Build.wrap] at made
    simp only [bind, Except.bind] at made
    split at made
    · cases made
    · next n' made' =>
      refine ih (step n n' _ ?_ start made') made
      split
      · exact .inl rfl
      · exact .inr rfl

theorem Build.all_wrap {tag : String} {count : Nat} {n m : Node} (one : lit (.number .one))
    (all : n.All lit path) (made : Build.wrap tag count n = .ok m) : m.All lit path := by
  refine Build.wrap_induction (P := (·.All lit path))
    (fun k k' operands shape all made => ?_) all made
  refine Node.all_ofTag (fun o member => ?_) made
  rcases shape with rfl | rfl <;> simp only [List.mem_cons, List.not_mem_nil, or_false] at member
  · exact member ▸ all
  · rcases member with rfl | rfl
    · exact all
    · rw [Node.All]
      exact one

end

end ReactiveQuery
