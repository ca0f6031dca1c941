import ReactiveQuery.Proofs.Query.Fitting

/-! Reading and compiling queries without calls.  The literals of what is compiled hold no record
and no collection and fit the run, and every path in it was recorded when the query was read. -/

namespace ReactiveQuery

section
mutual
/-- Is a written query free of calls, records and collections? -/
def Draft.isPlain : Draft → Bool
  | .literal t => t.isPlain
  | .path _ components => DraftComponent.allPlain components
  | .object members => Draft.membersPlain members
  | .call .. => false
  | .chain _ _ inner => inner.isPlain
  | .tagged _ operands => Draft.allPlain operands

def Draft.allPlain : List Draft → Bool
  | [] => true
  | d :: ds => d.isPlain && Draft.allPlain ds

def Draft.membersPlain : List (String × Draft) → Bool
  | [] => true
  | (_, d) :: ds => d.isPlain && Draft.membersPlain ds

def DraftComponent.allPlain : List DraftComponent → Bool
  | [] => true
  | .key t :: cs => t.isPlain && DraftComponent.allPlain cs
  | .computed d :: cs => d.isPlain && DraftComponent.allPlain cs
end

/-- Is every part of a written query free of calls, records and collections? -/
def QueryDraft.isPlain (q : QueryDraft) : Bool :=
  q.filter.all Draft.isPlain && q.select.all Draft.isPlain &&
    q.order.all fun o => DraftComponent.allPlain o.components

end

/-- A value without records and collections that fits. -/
def Value.PlainFits (containers : List Value) (size : Nat) (v : Value) : Prop :=
  v.places = [] ∧ v.Fits containers size

/-- A path whose written keys hold no record and no collection. -/
def Path.Plain (p : Path) : Prop := ∀ v, .key v ∈ p.components → v.places = []

/-- An expression without calls, whose literals satisfy a condition and whose paths are among those
recorded. -/
abbrev Node.Recorded (lit : Value → Prop) (paths : List Path) (n : Node) : Prop :=
  n.All lit fun root components => ⟨root, components⟩ ∈ paths

/-- Keys of a path whose literals satisfy a condition, and whose computed keys are recorded. -/
abbrev Component.Recorded (lit : Value → Prop) (paths : List Path) (cs : List Component) : Prop :=
  Component.AllOf lit (fun root components => ⟨root, components⟩ ∈ paths) cs

/-- From heaps that fit, building only takes tags and records plain paths, and gives what is told of
the containers and the paths. -/
def Build.Fitting {α : Type} (size : Nat) (containers : List Value) (paths : List Path)
    (x : Build α) (Q : List Value → List Path → α → Prop) : Prop :=
  ∀ h : Heap, ∀ a b, h.Fits containers size → (∀ p ∈ paths, p.Plain) →
    x.run.run ⟨h, paths⟩ = (.ok a, b) →
    ∃ more, containers <+: more ∧ b.heap.Fits more size ∧ h.Advances b.heap ∧
      (∀ p ∈ b.paths, p.Plain) ∧ paths ⊆ b.paths ∧ Q more b.paths a

namespace Build.Fitting

variable {α β : Type} {size : Nat} {containers : List Value} {paths : List Path}
  {Q : List Value → List Path → α → Prop} {R : List Value → List Path → β → Prop}

theorem ret {a : α} (given : Q containers paths a) :
    Fitting size containers paths (pure a) Q := by
  rintro h a' b fits plain ⟨⟩
  exact ⟨containers, List.prefix_refl _, fits, .refl _, plain, fun _ => id, given⟩

theorem bind {x : Build α} {f : α → Build β} (first : Fitting size containers paths x Q)
    (rest : ∀ more recorded a, containers <+: more → paths ⊆ recorded → Q more recorded a →
      Fitting size more recorded (f a) R) :
    Fitting size containers paths (x >>= f) R := by
  intro h c b fits plain run
  obtain ⟨a, ⟨k, recorded⟩, begun, run⟩ := ok_bind run
  obtain ⟨more, grown, fits, advances, plain, kept, given⟩ := first h a _ fits plain begun
  obtain ⟨most, grown', fits, advances', plain, kept', given⟩ :=
    rest more recorded a grown kept given k c b fits plain run
  exact ⟨most, grown.trans grown', fits, advances.trans advances', plain,
    fun _ member => kept' (kept member), given⟩

theorem read (t : Term) (plain : t.isPlain = true) :
    Fitting size containers paths (Build.read [] t) fun more _ v => v.PlainFits more size := by
  rintro h v b fits recorded ⟨⟩
  have nameless : ∀ e ∈ ([] : FieldMap Value), e.2.Fits containers size := by simp
  obtain ⟨more, grown, fits, advances, fit, leads⟩ := Term.read_fits t plain nameless h fits
  rw [t.places_nil] at leads
  exact ⟨more, grown, fits, advances, recorded, fun _ => id,
    List.eq_nil_iff_forall_not_mem.mpr fun l held => List.not_mem_nil (leads l held), fit⟩

/-- Recording a path adds it. -/
theorem record {Q : List Value → List Path → Unit → Prop} {p : Path} (plain : p.Plain)
    (given : Q containers (p :: paths) ()) :
    Fitting size containers paths (Build.record p) Q := by
  rintro h u b fits recorded ⟨⟩
  refine ⟨containers, List.prefix_refl _, fits, .refl _, ?_, List.subset_cons_self p paths, given⟩
  exact List.forall_mem_cons.mpr ⟨plain, recorded⟩

theorem lift {r : Except Error α} (given : ∀ a, r = .ok a → Q containers paths a) :
    Fitting size containers paths (ExceptT.mk (pure r)) Q := by
  intro h a b fits plain run
  have : (r, (⟨h, paths⟩ : Building)) = (.ok a, b) := run
  cases this
  exact ⟨containers, List.prefix_refl _, fits, .refl _, plain, fun _ => id, given a rfl⟩

end Build.Fitting

theorem Value.PlainFits.later {containers more : List Value} {size : Nat} {v : Value}
    (fits : v.PlainFits containers size) (grown : containers <+: more) : v.PlainFits more size :=
  ⟨fits.1, Value.fits_later grown v fits.2⟩

section
variable {size : Nat}

theorem Node.Recorded.later {containers more : List Value} {paths recorded : List Path} {n : Node}
    (h : n.Recorded (Value.PlainFits containers size) paths) (grown : containers <+: more)
    (kept : paths ⊆ recorded) :
    n.Recorded (Value.PlainFits more size) recorded :=
  h.mono (fun _ fits => fits.later grown) fun _ _ member => kept member

mutual
/-- Building a plain draft records every path of the expression. -/
theorem Draft.build_recorded : ∀ (d : Draft) {containers : List Value} {paths : List Path},
    d.isPlain = true →
    Build.Fitting size containers paths (d.build []) fun more =>
      Node.Recorded (Value.PlainFits more size)
  | .literal t, containers, paths, plain => by
    rw [Draft.isPlain] at plain
    rw [Draft.build]
    refine (Build.Fitting.read t plain).bind fun more recorded v _ _ fits => ?_
    refine Build.Fitting.ret ?_
    rw [Node.Recorded, Node.All]
    exact fits
  | .path root components, containers, paths, plain => by
    rw [Draft.isPlain] at plain
    rw [Draft.build]
    refine (Draft.buildComponents_recorded components plain).bind
      fun more recorded built _ _ all => ?_
    have path : Path.Plain ⟨root, built⟩ := fun v member => (all.key member).1
    refine Build.Fitting.bind (Q := fun _ recorded _ => ⟨root, built⟩ ∈ recorded)
      (Build.Fitting.record path List.mem_cons_self) fun most recorded' _ grown kept here => ?_
    refine Build.Fitting.ret ?_
    rw [Node.Recorded, Node.All]
    exact ⟨here, all.mono (fun _ fits => fits.later grown) fun _ _ member => kept member⟩
  | .object members, containers, paths, plain => by
    rw [Draft.isPlain] at plain
    rw [Draft.build]
    refine (Draft.buildMembers_recorded members plain).bind fun more recorded built _ _ all => ?_
    refine Build.Fitting.ret ?_
    rw [Node.Recorded, Node.All]
    exact all
  | .call .., containers, paths, plain => by simp [Draft.isPlain] at plain
  | .chain tag count inner, containers, paths, plain => by
    rw [Draft.isPlain] at plain
    rw [Draft.build]
    refine (Draft.build_recorded inner plain).bind fun more recorded n _ _ all => ?_
    exact Build.Fitting.lift fun m made => Build.all_wrap ⟨rfl, trivial⟩ all made
  | .tagged tag operands, containers, paths, plain => by
    rw [Draft.isPlain] at plain
    rw [Draft.build]
    refine (Draft.buildAll_recorded operands plain).bind fun more recorded built _ _ all => ?_
    exact Build.Fitting.lift fun m made => Node.all_ofTag (Node.allOf_iff.mp all) made

theorem Draft.buildAll_recorded : ∀ (ds : List Draft) {containers : List Value}
    {paths : List Path}, Draft.allPlain ds = true →
    Build.Fitting size containers paths (Draft.buildAll [] ds) fun more recorded ns =>
      Node.AllOf (Value.PlainFits more size) (fun root cs => ⟨root, cs⟩ ∈ recorded) ns
  | [], containers, paths, _ => by
    rw [Draft.buildAll]
    exact Build.Fitting.ret (by rw [Node.AllOf]; trivial)
  | d :: ds, containers, paths, plain => by
    rw [Draft.allPlain, Bool.and_eq_true] at plain
    rw [Draft.buildAll]
    refine (Draft.build_recorded d plain.1).bind fun more recorded n _ _ first => ?_
    refine (Draft.buildAll_recorded ds plain.2).bind fun most recorded' ns grown kept rest => ?_
    refine Build.Fitting.ret ?_
    rw [Node.AllOf]
    exact ⟨first.later grown kept, rest⟩

theorem Draft.buildMembers_recorded : ∀ (ds : List (String × Draft)) {containers : List Value}
    {paths : List Path}, Draft.membersPlain ds = true →
    Build.Fitting size containers paths (Draft.buildMembers [] ds) fun more recorded ns =>
      Node.AllOfMembers (Value.PlainFits more size) (fun root cs => ⟨root, cs⟩ ∈ recorded) ns
  | [], containers, paths, _ => by
    rw [Draft.buildMembers]
    exact Build.Fitting.ret (by rw [Node.AllOfMembers]; trivial)
  | (key, d) :: ds, containers, paths, plain => by
    rw [Draft.membersPlain, Bool.and_eq_true] at plain
    rw [Draft.buildMembers]
    refine (Draft.build_recorded d plain.1).bind fun more recorded n _ _ first => ?_
    refine (Draft.buildMembers_recorded ds plain.2).bind fun most recorded' ns grown kept rest => ?_
    refine Build.Fitting.ret ?_
    rw [Node.AllOfMembers]
    exact ⟨first.later grown kept, rest⟩

theorem Draft.buildComponents_recorded : ∀ (ds : List DraftComponent) {containers : List Value}
    {paths : List Path}, DraftComponent.allPlain ds = true →
    Build.Fitting size containers paths (Draft.buildComponents [] ds) fun more recorded cs =>
      Component.Recorded (Value.PlainFits more size) recorded cs
  | [], containers, paths, _ => by
    rw [Draft.buildComponents]
    exact Build.Fitting.ret (by rw [Component.Recorded, Component.AllOf]; trivial)
  | .key t :: ds, containers, paths, plain => by
    rw [DraftComponent.allPlain, Bool.and_eq_true] at plain
    rw [Draft.buildComponents]
    refine (Build.Fitting.read t plain.1).bind fun more recorded v _ _ first => ?_
    refine (Draft.buildComponents_recorded ds plain.2).bind
      fun most recorded' cs grown kept rest => ?_
    refine Build.Fitting.ret ?_
    rw [Component.Recorded, Component.AllOf]
    exact ⟨first.later grown, rest⟩
  | .computed d :: ds, containers, paths, plain => by
    rw [DraftComponent.allPlain, Bool.and_eq_true] at plain
    rw [Draft.buildComponents]
    refine (Draft.build_recorded d plain.1).bind fun more recorded n _ _ first => ?_
    refine (Draft.buildComponents_recorded ds plain.2).bind
      fun most recorded' cs grown kept rest => ?_
    refine Build.Fitting.ret ?_
    rw [Component.Recorded, Component.AllOf]
    exact ⟨first.later grown kept, rest⟩
end

/-- A query whose paths are among those recorded. -/
structure Query.Recorded (lit : Value → Prop) (paths : List Path) (q : Query) : Prop where
  filter : q.filter.Recorded lit paths
  select : ∀ n ∈ q.select, n.Recorded lit paths
  order : ∀ o ∈ q.order, o.path ∈ paths ∧ Component.Recorded lit paths o.path.components

theorem QueryDraft.buildOrder_recorded {containers : List Value} {paths : List Path}
    {os : List OrderDraft} (plain : os.all (fun o => DraftComponent.allPlain o.components) = true) :
    Build.Fitting size containers paths (os.mapM (QueryDraft.buildOrder []))
      fun more recorded keys => ∀ o ∈ keys, o.path ∈ recorded ∧
        Component.Recorded (Value.PlainFits more size) recorded o.path.components := by
  induction os generalizing containers paths with
  | nil => exact Build.Fitting.ret (by simp)
  | cons o os ih =>
    rw [List.all_cons, Bool.and_eq_true] at plain
    rw [List.mapM_cons]
    refine Build.Fitting.bind (Q := fun more recorded key => key.path ∈ recorded ∧
      Component.Recorded (Value.PlainFits more size) recorded
        key.path.components) ?_ fun more recorded key _ _ first => ?_
    · rw [QueryDraft.buildOrder]
      refine (Draft.buildComponents_recorded o.components plain.1).bind
        fun more recorded built _ _ all => ?_
      have path : Path.Plain ⟨o.root, built⟩ := fun v member => (all.key member).1
      refine Build.Fitting.bind (Q := fun _ recorded _ => ⟨o.root, built⟩ ∈ recorded)
        (Build.Fitting.record path List.mem_cons_self) fun most recorded' _ grown kept here => ?_
      exact Build.Fitting.ret
        ⟨here, all.mono (fun _ fits => fits.later grown) fun _ _ member => kept member⟩
    · refine (ih plain.2).bind fun most recorded' keys grown kept rest => Build.Fitting.ret ?_
      refine List.forall_mem_cons.mpr ⟨⟨kept first.1, ?_⟩, rest⟩
      exact first.2.mono (fun _ fits => fits.later grown) fun _ _ member => kept member

/-- Reading a plain query records every path of it. -/
theorem QueryDraft.build_recorded {containers : List Value} {paths : List Path} {q : QueryDraft}
    (plain : q.isPlain = true) :
    Build.Fitting size containers paths (q.build []) fun more =>
      Query.Recorded (Value.PlainFits more size) := by
  simp only [QueryDraft.isPlain, Bool.and_eq_true] at plain
  obtain ⟨⟨filter, select⟩, order⟩ := plain
  have second : ∀ more recorded, Build.Fitting size more recorded (q.select.mapM (Draft.build []))
      fun more recorded select =>
        ∀ n ∈ select, Node.Recorded (Value.PlainFits more size) recorded n := by
    intro more recorded
    cases given : q.select with
    | none => exact Build.Fitting.ret (by simp)
    | some d =>
      exact (Draft.build_recorded d (by simpa [given] using select)).bind
        fun _ _ n _ _ all => Build.Fitting.ret (by simpa using all)
  have rest : ∀ more recorded (filter : Node),
      filter.Recorded (Value.PlainFits more size) recorded →
      Build.Fitting size more recorded (do
        let select ← q.select.mapM (Draft.build [])
        let order ← q.order.mapM (buildOrder [])
        return ({ filter, select, order, sortFirst := q.sortFirst } : Query))
        fun more => Query.Recorded (Value.PlainFits more size) := by
    intro more recorded filter all
    refine (second more recorded).bind fun more' recorded' select grown' kept' selected => ?_
    refine (QueryDraft.buildOrder_recorded order).bind
      fun more'' recorded'' order grown'' kept'' ordered => ?_
    exact Build.Fitting.ret ⟨all.later (grown'.trans grown'') fun _ member =>
      kept'' (kept' member), fun n chosen => (selected n chosen).later grown'' kept'', ordered⟩
  unfold build
  cases q.failure with
  | some error =>
    intro h a b fits plain run
    cases run
  | none =>
    cases given : q.filter with
    | none =>
      refine rest _ _ _ ?_
      rw [Node.Recorded, Node.All]
      exact ⟨rfl, trivial⟩
    | some d =>
      exact (Draft.build_recorded d (by simpa [given] using filter)).bind
        fun _ _ filter _ _ all => rest _ _ filter all

/-- The step that a component is compiled to. -/
def Component.Becomes : Component → Step → Prop
  | .key v, step => step = .key v
  | .computed _, _ => True

def Component.AllBecome : List Component → List Step → Prop
  | [], [] => True
  | c :: cs, step :: steps => c.Becomes step ∧ Component.AllBecome cs steps
  | _, _ => False

/-- A path of code that was recorded. -/
def Definition.Records (paths : List Path) (root : Root) (steps : List Step) : Prop :=
  ∃ cs, ⟨root, cs⟩ ∈ paths ∧ Component.AllBecome cs steps

/-- Code without calls, whose literals satisfy a condition and whose paths were recorded. -/
abbrev Code.Recorded (lit : Value → Prop) (paths : List Path) (c : Code) : Prop :=
  c.All lit (Definition.Records paths)

theorem Value.PlainFits.primitive {containers : List Value} (p : Primitive) :
    p.toValue.PlainFits containers size :=
  ⟨p.places_toValue, Value.fits_primitive p⟩

section
variable {lit : Value → Prop} {paths : List Path} {scope : CompileScope}

theorem Code.Recorded.literal {v : Value} (holds : lit v) :
    (Code.literal v).Recorded lit paths := by
  rw [Code.Recorded, Code.All]
  exact holds

theorem Code.Recorded.unary (prims : ∀ p : Primitive, lit p.toValue) {op : UnaryOp} {a c : Code}
    {p q : Regex.Cache} (operand : a.Recorded lit paths)
    (compiled : (Code.unary? scope op a).run.run p = (.ok c, q)) :
    c.Recorded lit paths ∧ q = p := by
  by_cases literal : ∃ v, a = .literal v
  · obtain ⟨v, rfl⟩ := literal
    obtain ⟨w, p', computed, rest⟩ := ok_bind compiled
    obtain ⟨applied, rfl⟩ := Compile.ok_ofOption computed
    obtain ⟨given, rfl⟩ := UnaryOp.primitive_of_apply applied
    cases rest
    exact ⟨.literal (prims given), rfl⟩
  · have dynamic : Code.unary? scope op a = pure (.unary op a) := by
      cases a <;> first | rfl | exact absurd ⟨_, rfl⟩ literal
    rw [dynamic] at compiled
    cases compiled
    exact ⟨by rwa [Code.Recorded, Code.All], rfl⟩

theorem Code.Recorded.binary (prims : ∀ p : Primitive, lit p.toValue) {op : BinaryOp}
    {a b c : Code} {p q : Regex.Cache} (left : a.Recorded lit paths) (right : b.Recorded lit paths)
    (reachable : p.Reachable) (compiled : (Code.binary? scope op a b).run.run p = (.ok c, q)) :
    c.Recorded lit paths ∧ q.Reachable := by
  by_cases literal : ∃ l r, a = .literal l ∧ b = .literal r
  · obtain ⟨l, r, rfl, rfl⟩ := literal
    obtain ⟨v, p', computed, rest⟩ := ok_bind compiled
    cases rest
    have outcome := op.run_compute scope.heap l r reachable
    rw [computed] at outcome
    rw [Code.Recorded, Code.All] at left right
    refine ⟨.literal ?_, outcome.2⟩
    rcases BinaryOp.of_meaning outcome.1.symm with rfl | rfl | ⟨given, rfl⟩
    · exact left
    · exact right
    · exact prims given
  · have dynamic : Code.binary? scope op a b = pure (.binary op a b) := by
      cases a <;> cases b <;> first | rfl | exact absurd ⟨_, _, rfl, rfl⟩ literal
    rw [dynamic] at compiled
    cases compiled
    exact ⟨by rw [Code.Recorded, Code.All]; exact ⟨left, right⟩, reachable⟩

theorem Code.Recorded.ternary {a b c : Code} (cond : a.Recorded lit paths)
    (yes : b.Recorded lit paths) (no : c.Recorded lit paths) :
    (Code.ternary? a b c).Recorded lit paths := by
  unfold Code.ternary?
  split
  · rw [Code.Recorded, Code.All] at yes no
    refine .literal ?_
    split
    · exact yes
    · exact no
  · rw [Code.Recorded, Code.All]
    exact ⟨cond, yes, no⟩

mutual
/-- Compiling keeps to the recorded paths. -/
theorem Node.compile_recorded (prims : ∀ p : Primitive, lit p.toValue) :
    ∀ (n : Node) {c : Code} {p q : Regex.Cache}, p.Reachable →
    n.Recorded lit paths → (n.compile scope).run.run p = (.ok c, q) →
    c.Recorded lit paths ∧ q.Reachable
  | .literal v, c, p, q, reachable, shape, compiled => by
    rw [Node.Recorded, Node.All] at shape
    rw [Node.compile] at compiled
    cases compiled
    exact ⟨by rw [Code.Recorded, Code.All]; exact shape, reachable⟩
  | .unary op a, c, p, q, reachable, shape, compiled => by
    rw [Node.Recorded, Node.All] at shape
    rw [Node.compile] at compiled
    obtain ⟨x, p₁, first, rest⟩ := ok_bind compiled
    obtain ⟨all, reachable⟩ := Node.compile_recorded prims a reachable shape first
    obtain ⟨all, rfl⟩ := all.unary prims rest
    exact ⟨all, reachable⟩
  | .binary op a b, c, p, q, reachable, shape, compiled => by
    rw [Node.Recorded, Node.All] at shape
    rw [Node.compile] at compiled
    obtain ⟨x, p₁, first, rest⟩ := ok_bind compiled
    obtain ⟨y, p₂, second, rest⟩ := ok_bind rest
    obtain ⟨left, reachable⟩ := Node.compile_recorded prims a reachable shape.1 first
    obtain ⟨right, reachable⟩ := Node.compile_recorded prims b reachable shape.2 second
    exact left.binary prims right reachable rest
  | .ternary a b c, code, p, q, reachable, shape, compiled => by
    rw [Node.Recorded, Node.All] at shape
    rw [Node.compile] at compiled
    obtain ⟨x, p₁, first, rest⟩ := ok_bind compiled
    obtain ⟨y, p₂, second, rest⟩ := ok_bind rest
    obtain ⟨z, p₃, third, rest⟩ := ok_bind rest
    obtain ⟨cond, reachable⟩ := Node.compile_recorded prims a reachable shape.1 first
    obtain ⟨yes, reachable⟩ := Node.compile_recorded prims b reachable shape.2.1 second
    obtain ⟨no, reachable⟩ := Node.compile_recorded prims c reachable shape.2.2 third
    cases rest
    exact ⟨cond.ternary yes no, reachable⟩
  | .path root components, c, p, q, reachable, shape, compiled => by
    rw [Node.Recorded, Node.All] at shape
    rw [Node.compile] at compiled
    obtain ⟨steps, p₁, first, rest⟩ := ok_bind compiled
    obtain ⟨all, become, reachable⟩ :=
      Component.compileAll_recorded prims components reachable shape.2 first
    cases rest
    refine ⟨?_, reachable⟩
    rw [Code.Recorded, Code.All]
    exact ⟨⟨components, shape.1, become⟩, all⟩
  | .object members, c, p, q, reachable, shape, compiled => by
    rw [Node.Recorded, Node.All] at shape
    rw [Node.compile] at compiled
    obtain ⟨codes, p₁, first, rest⟩ := ok_bind compiled
    obtain ⟨all, reachable⟩ := Node.compileMembers_recorded prims members reachable shape first
    cases rest
    exact ⟨by rw [Code.Recorded, Code.All]; exact all, reachable⟩
  | .array items, c, p, q, reachable, shape, compiled => by
    rw [Node.Recorded, Node.All] at shape
    rw [Node.compile] at compiled
    obtain ⟨codes, p₁, first, rest⟩ := ok_bind compiled
    obtain ⟨all, reachable⟩ := Node.compileAll_recorded prims items reachable shape first
    cases rest
    exact ⟨by rw [Code.Recorded, Code.All]; exact all, reachable⟩
  | .call .., c, p, q, _, shape, _ => by
    rw [Node.Recorded, Node.All] at shape
    exact shape.elim

theorem Node.compileAll_recorded (prims : ∀ p : Primitive, lit p.toValue) :
    ∀ (ns : List Node) {cs : List Code} {p q : Regex.Cache},
    p.Reachable →
    Node.AllOf lit (fun root cs => ⟨root, cs⟩ ∈ paths) ns →
    (Node.compileAll scope ns).run.run p = (.ok cs, q) →
    Code.AllOf lit (Definition.Records paths) cs ∧ q.Reachable
  | [], cs, p, q, reachable, _, compiled => by
    rw [Node.compileAll] at compiled
    cases compiled
    exact ⟨by rw [Code.AllOf]; trivial, reachable⟩
  | n :: ns, cs, p, q, reachable, shape, compiled => by
    rw [Node.AllOf] at shape
    rw [Node.compileAll] at compiled
    obtain ⟨x, p₁, first, rest⟩ := ok_bind compiled
    obtain ⟨xs, p₂, others, rest⟩ := ok_bind rest
    obtain ⟨head, reachable⟩ := Node.compile_recorded prims n reachable shape.1 first
    obtain ⟨tail, reachable⟩ := Node.compileAll_recorded prims ns reachable shape.2 others
    cases rest
    exact ⟨by rw [Code.AllOf]; exact ⟨head, tail⟩, reachable⟩

theorem Node.compileMembers_recorded (prims : ∀ p : Primitive, lit p.toValue) :
    ∀ (ns : List (String × Node)) {cs : List (String × Code)}
    {p q : Regex.Cache}, p.Reachable →
    Node.AllOfMembers lit (fun root cs => ⟨root, cs⟩ ∈ paths) ns →
    (Node.compileMembers scope ns).run.run p = (.ok cs, q) →
    Code.AllOfMembers lit (Definition.Records paths) cs ∧ q.Reachable
  | [], cs, p, q, reachable, _, compiled => by
    rw [Node.compileMembers] at compiled
    cases compiled
    exact ⟨by rw [Code.AllOfMembers]; trivial, reachable⟩
  | (key, n) :: ns, cs, p, q, reachable, shape, compiled => by
    rw [Node.AllOfMembers] at shape
    rw [Node.compileMembers] at compiled
    obtain ⟨x, p₁, first, rest⟩ := ok_bind compiled
    obtain ⟨xs, p₂, others, rest⟩ := ok_bind rest
    obtain ⟨head, reachable⟩ := Node.compile_recorded prims n reachable shape.1 first
    obtain ⟨tail, reachable⟩ := Node.compileMembers_recorded prims ns reachable shape.2 others
    cases rest
    exact ⟨by rw [Code.AllOfMembers]; exact ⟨head, tail⟩, reachable⟩

theorem Component.compileAll_recorded (prims : ∀ p : Primitive, lit p.toValue) :
    ∀ (cs : List Component) {steps : List Step}
    {p q : Regex.Cache}, p.Reachable →
    Component.Recorded lit paths cs →
    (Component.compileAll scope cs).run.run p = (.ok steps, q) →
    Step.AllOf lit (Definition.Records paths) steps ∧
      Component.AllBecome cs steps ∧ q.Reachable
  | [], steps, p, q, reachable, _, compiled => by
    rw [Component.compileAll] at compiled
    cases compiled
    exact ⟨by rw [Step.AllOf]; trivial, trivial, reachable⟩
  | .key v :: cs, steps, p, q, reachable, shape, compiled => by
    rw [Component.Recorded, Component.AllOf] at shape
    rw [Component.compileAll] at compiled
    obtain ⟨xs, p₁, others, rest⟩ := ok_bind compiled
    obtain ⟨tail, become, reachable⟩ :=
      Component.compileAll_recorded prims cs reachable shape.2 others
    cases rest
    exact ⟨by rw [Step.AllOf]; exact ⟨shape.1, tail⟩, ⟨rfl, become⟩, reachable⟩
  | .computed n :: cs, steps, p, q, reachable, shape, compiled => by
    rw [Component.Recorded, Component.AllOf] at shape
    rw [Component.compileAll] at compiled
    obtain ⟨x, p₁, first, rest⟩ := ok_bind compiled
    obtain ⟨xs, p₂, others, rest⟩ := ok_bind rest
    obtain ⟨head, reachable⟩ := Node.compile_recorded prims n reachable shape.1 first
    obtain ⟨tail, become, reachable⟩ :=
      Component.compileAll_recorded prims cs reachable shape.2 others
    cases rest
    refine ⟨?_, ⟨trivial, become⟩, reachable⟩
    split
    · rw [Code.Recorded, Code.All] at head
      rw [Step.AllOf]
      exact ⟨head, tail⟩
    · rw [Step.AllOf]
      exact ⟨head, tail⟩
end

theorem OrderKey.compileAll_recorded (prims : ∀ p : Primitive, lit p.toValue)
    {os : List OrderKey} {keys : List SortKey} {p q : Regex.Cache} (reachable : p.Reachable)
    (shape : ∀ o ∈ os, o.path ∈ paths ∧ Component.Recorded lit paths o.path.components)
    (compiled : (os.mapM (OrderKey.compile scope)).run.run p = (.ok keys, q)) :
    (∀ key ∈ keys, Definition.Records paths key.root key.steps ∧
      Step.AllOf lit (Definition.Records paths) key.steps) ∧
      q.Reachable := by
  induction os generalizing keys p with
  | nil =>
    cases compiled
    exact ⟨by simp, reachable⟩
  | cons o os ih =>
    rw [List.mapM_cons] at compiled
    obtain ⟨key, p₁, first, rest⟩ := ok_bind compiled
    obtain ⟨keys', p₂, others, rest⟩ := ok_bind rest
    obtain ⟨steps, p₃, walked, made⟩ := ok_bind first
    obtain ⟨here, components⟩ := shape o List.mem_cons_self
    obtain ⟨all, become, reachable⟩ :=
      Component.compileAll_recorded prims _ reachable components walked
    cases made
    cases rest
    obtain ⟨tail, reachable⟩ := ih reachable
      (fun o member => shape o (List.mem_cons_of_mem _ member)) others
    exact ⟨List.forall_mem_cons.mpr ⟨⟨⟨_, here, become⟩, all⟩, tail⟩, reachable⟩

/-- What a query is compiled to keeps to the recorded paths. -/
theorem Query.compile_recorded (prims : ∀ p : Primitive, lit p.toValue) {query : Query}
    {d : Definition} {listed : List Path}
    {p q : Regex.Cache} (reachable : p.Reachable) (shape : query.Recorded lit paths)
    (compiled : (query.compile scope listed).run.run p = (.ok d, q)) :
    d.All lit (Definition.Records paths) ∧ d.paths = listed ∧
      q.Reachable := by
  obtain ⟨filter, p₁, first, rest⟩ := ok_bind compiled
  obtain ⟨select, p₂, second, rest⟩ := ok_bind rest
  obtain ⟨sort, p₃, third, rest⟩ := ok_bind rest
  obtain ⟨filtered, reachable⟩ := Node.compile_recorded prims _ reachable shape.filter first
  have selected : (∀ c ∈ select, Code.Recorded lit paths c) ∧ p₂.Reachable := by
    cases given : query.select with
    | none =>
      rw [given] at second
      cases second
      exact ⟨by simp, reachable⟩
    | some n =>
      rw [given] at second
      obtain ⟨c, p₄, code, made⟩ := ok_bind second
      obtain ⟨all, reachable⟩ := Node.compile_recorded prims n reachable (shape.select n given) code
      cases made
      exact ⟨by simpa using all, reachable⟩
  obtain ⟨sorted, reachable⟩ := OrderKey.compileAll_recorded prims selected.2 shape.order third
  cases rest
  refine ⟨⟨filtered, selected.1, fun keys given key member => ?_⟩, rfl, reachable⟩
  simp only [Option.mem_def] at given
  split at given <;> cases given
  exact sorted key member

end

end

/-- A definition whose literals hold no record and no collection and fit, and which lists its
paths. -/
structure Definition.Sound (containers : List Value) (size : Nat) (d : Definition) : Prop where
  code : d.All (Value.PlainFits containers size) (Definition.Records d.paths)
  paths : ∀ p ∈ d.paths, p.Plain

theorem Definition.Sound.later {containers more : List Value} {size larger : Nat} {d : Definition}
    (sound : d.Sound containers size) (grown : containers <+: more) (bigger : size ≤ larger) :
    d.Sound more larger :=
  ⟨sound.code.mono (fun _ fits => ⟨fits.1, fits.2.later grown bigger⟩) fun _ _ => id, sound.paths⟩

end ReactiveQuery
