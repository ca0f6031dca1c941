import ReactiveQuery.Proofs.Handle.Known
import ReactiveQuery.Proofs.Query.Folding
import ReactiveQuery.Proofs.Query.Shape

/-! Reading.  Written values and queries lead to places that came about as they were read, and to
those of the names in them; compiling adds none. -/

namespace ReactiveQuery

variable {P : Nat → Prop} {k : Nat}

theorem Known.ofPairs {n : Nat} {pairs : List (String × Value)}
    (known : ∀ e ∈ pairs, Known P n e.2.places) :
    Known P n (Value.placesOfFields (FieldMap.ofPairs pairs)) := by
  refine Known.fields_iff.mpr fun e member => ?_
  obtain ⟨e', member, same⟩ := FieldMap.mem_ofPairs member
  exact same ▸ known e' member

namespace Term

variable {names : FieldMap Value} {h : Heap}

mutual
/-- Reading a value makes cells that hold what the value holds. -/
theorem within_read : ∀ (t : Term) {h : Heap}, h.Within P →
    (∀ e ∈ names, Known P h.cells.size e.2.places) →
    ((t.read names).run h).2.Within P ∧
      Known P ((t.read names).run h).2.cells.size ((t.read names).run h).1.places
  | .null, _, knows, _ | .bool _, _, knows, _ | .number _, _, knows, _ | .text _, _, knows, _
  | .copies .., _, knows, _ => by
    rw [read]
    exact ⟨knows, by simp [Value.places]⟩
  | .named name, h, knows, known => by
    rw [read]
    refine ⟨knows, ?_⟩
    change Known P h.cells.size ((FieldMap.get? name names).getD .null).places
    cases found : FieldMap.get? name names with
    | none => simp [Value.places]
    | some v => exact known _ (FieldMap.mem_of_get? found)
  | .array items, _, knows, known => by
    rw [read]
    obtain ⟨after, held⟩ := within_readAll items knows known
    exact ⟨after.freshTag, held⟩
  | .object pairs, _, knows, known => by
    rw [read]
    obtain ⟨after, held⟩ := within_readPairs pairs knows known
    exact ⟨after.freshTag, .ofPairs held⟩
  | .record id fields, h, knows, known => by
    rw [read]
    obtain ⟨after, held⟩ := within_readPairs fields knows known
    refine ⟨after.allocate id (.ofPairs held), Known.cons_iff.mpr ⟨?_, .nil⟩⟩
    exact ⟨Nat.lt_of_lt_of_eq (Nat.lt_succ_self _) (Array.size_push _).symm, after.new_place.2⟩
  | .collection id items, h, knows, known => by
    rw [read]
    obtain ⟨after, held⟩ := within_readAll items knows known
    refine ⟨after.allocate id (Known.append_iff.mpr ⟨held, .nil⟩), Known.cons_iff.mpr ⟨?_, .nil⟩⟩
    exact ⟨Nat.lt_of_lt_of_eq (Nat.lt_succ_self _) (Array.size_push _).symm, after.new_place.2⟩

theorem within_readAll : ∀ (ts : List Term) {h : Heap}, h.Within P →
    (∀ e ∈ names, Known P h.cells.size e.2.places) →
    ((readAll names ts).run h).2.Within P ∧ Known P ((readAll names ts).run h).2.cells.size
      (Value.placesOfItems ((readAll names ts).run h).1)
  | [], _, knows, _ => by
    rw [readAll]
    exact ⟨knows, .nil⟩
  | t :: ts, h, knows, known => by
    rw [readAll]
    obtain ⟨after, first⟩ := within_read t knows known
    obtain ⟨last, rest⟩ := within_readAll ts after fun e member =>
      (known e member).later (t.extends_read names h).size
    exact ⟨last, Known.append_iff.mpr ⟨first.later (extends_readAll names ts _).size, rest⟩⟩

theorem within_readPairs : ∀ (ts : List (String × Term)) {h : Heap}, h.Within P →
    (∀ e ∈ names, Known P h.cells.size e.2.places) →
    ((readPairs names ts).run h).2.Within P ∧ ∀ e ∈ ((readPairs names ts).run h).1,
      Known P ((readPairs names ts).run h).2.cells.size e.2.places
  | [], _, knows, _ => by
    rw [readPairs]
    exact ⟨knows, fun _ => (absurd · List.not_mem_nil)⟩
  | (key, t) :: ts, h, knows, known => by
    rw [readPairs]
    obtain ⟨after, first⟩ := within_read t knows known
    obtain ⟨last, rest⟩ := within_readPairs ts after fun e member =>
      (known e member).later (t.extends_read names h).size
    exact ⟨last, List.forall_mem_cons.mpr
      ⟨first.later (extends_readPairs names ts _).size, rest⟩⟩
end

end Term

/-- The places in the written keys of a path. -/
def Path.places (p : Path) : List Nat :=
  p.components.flatMap fun
    | .key v => v.places
    | .computed _ => []

def Query.places (q : Query) : List Nat :=
  q.filter.places ++ (q.select.map Node.places).getD [] ++
    q.order.flatMap fun o => Component.placesOfAll o.path.components

theorem Known.path {root : Root} {components : List Component}
    (known : Known P k (Component.placesOfAll components)) :
    Known P k (Path.places ⟨root, components⟩) := by
  unfold Path.places
  induction components with
  | nil => exact .nil
  | cons c cs ih =>
    cases c <;> rw [Component.placesOfAll, Known.append_iff] at known
    · exact Known.append_iff.mpr ⟨known.1, ih known.2⟩
    · exact Known.append_iff.mpr ⟨.nil, ih known.2⟩

theorem Known.nodes_iff {ns : List Node} :
    Known P k (Node.placesOfAll ns) ↔ ∀ n ∈ ns, Known P k n.places := by
  induction ns with
  | nil => simp [Node.placesOfAll]
  | cons n ns ih => simp [Node.placesOfAll, ih]

/-- The operator node of a tag leads where its operands lead. -/
theorem Known.ofTag {tag : String} {operands : List Node} {n : Node}
    (known : ∀ m ∈ operands, Known P k m.places) (made : Node.ofTag tag operands = .ok n) :
    Known P k n.places := by
  unfold Node.ofTag at made
  split at made <;> try cases made
  case h_1 | h_2 =>
    rw [Node.places]
    exact known _ (by simp)
  case h_5 | h_6 => simp_all [Node.places]
  case h_9 =>
    rw [Node.places]
    exact Known.nodes_iff.mpr known
  case h_10 =>
    split at made <;> cases made
    simp_all [Node.places]

theorem Known.wrap {tag : String} {count : Nat} {n m : Node} (known : Known P k n.places)
    (made : Build.wrap tag count n = .ok m) : Known P k m.places := by
  refine Build.wrap_induction (P := (Known P k ·.places)) (fun l l' operands shape known made => ?_)
    known made
  refine Known.ofTag (fun o member => ?_) made
  rcases shape with rfl | rfl <;> simp only [List.mem_cons, List.not_mem_nil, or_false] at member
  · exact member ▸ known
  · rcases member with rfl | rfl
    · exact known
    · simp [Node.places, Value.places]

/-- From known places only, building comes to known places only. -/
def Build.Discreet {α : Type} (P : Nat → Prop) (n : Nat) (x : Build α) (Q : Nat → α → Prop) :
    Prop :=
  ∀ b : Building, b.heap.cells.size = n → b.heap.Within P → Known P n (b.paths.flatMap Path.places) →
    n ≤ (x.run.run b).2.heap.cells.size ∧ (x.run.run b).2.heap.Within P ∧
      Known P (x.run.run b).2.heap.cells.size ((x.run.run b).2.paths.flatMap Path.places) ∧
      ∀ a, (x.run.run b).1 = .ok a → Q (x.run.run b).2.heap.cells.size a

namespace Build.Discreet

variable {n : Nat} {α β : Type} {Q : Nat → α → Prop} {R : Nat → β → Prop} {x : Build α}

theorem ret {a : α} (given : Q n a) : Discreet P n (pure a) Q := fun _ size knows known =>
  ⟨size.symm ▸ Nat.le_refl _, knows, size.symm ▸ known, fun a' same => by
    rw [← Except.ok.inj same]
    exact size.symm ▸ given⟩

theorem fault (e : Error) : Discreet P n (throw e : Build α) Q := fun _ size knows known =>
  ⟨size.symm ▸ Nat.le_refl _, knows, size.symm ▸ known, nofun⟩

theorem bind {f : α → Build β} (first : Discreet P n x Q)
    (rest : ∀ m a, n ≤ m → Q m a → Discreet P m (f a) R) : Discreet P n (x >>= f) R := by
  intro b size knows known
  obtain ⟨more, after, recorded, gives⟩ := first b size knows known
  rw [run_bind]
  rcases outcome : x.run.run b with ⟨_ | a, b'⟩ <;> rw [outcome] at more after recorded gives
  · exact ⟨more, after, recorded, nofun⟩
  · obtain ⟨further, last, recorded', gives'⟩ :=
      rest _ a more (gives a rfl) b' rfl after recorded
    exact ⟨Nat.le_trans more further, last, recorded', gives'⟩

theorem read (t : Term) : Discreet P n (Build.read [] t) fun m v => Known P m v.places := by
  rintro b rfl knows known
  have unnamed : ∀ e ∈ ([] : FieldMap Value), Known P b.heap.cells.size e.2.places :=
    fun _ => (absurd · List.not_mem_nil)
  obtain ⟨after, held⟩ := t.within_read knows unnamed
  have more := (t.extends_read [] b.heap).size
  exact ⟨more, after, known.later more, fun v same => Except.ok.inj same ▸ held⟩

theorem record {p : Path} (known : Known P n p.places) :
    Discreet P n (Build.record p) fun _ _ => True := fun _ size knows recorded =>
  ⟨size.symm ▸ Nat.le_refl _, knows, size.symm ▸ Known.append_iff.mpr ⟨known, recorded⟩,
    fun _ _ => trivial⟩

theorem lift {r : Except Error α} (given : ∀ a, r = .ok a → Q n a) :
    Discreet P n (ExceptT.mk (pure r)) Q := by
  cases r with
  | error e => exact fault e
  | ok a => exact ret (given a rfl)

theorem mapM {f : α → Build β} {as : List α} (stays : ∀ m k b, m ≤ k → R m b → R k b)
    (each : ∀ a m, Discreet P m (f a) R) :
    Discreet P n (as.mapM f) fun m bs => ∀ b ∈ bs, R m b := by
  induction as generalizing n with
  | nil => exact ret fun _ => (absurd · List.not_mem_nil)
  | cons a as ih =>
    rw [List.mapM_cons]
    refine (each a n).bind fun m b _ given => ih.bind fun k bs further rest => ret ?_
    exact List.forall_mem_cons.mpr ⟨stays m k b further given, rest⟩

end Build.Discreet

namespace Draft

open Build.Discreet

mutual
/-- A draft is built into an expression that leads to new places only. -/
theorem discreet_build : ∀ (d : Draft) {n : Nat},
    Build.Discreet P n (d.build []) fun m e => Known P m e.places
  | .literal t, _ => by
    rw [build]
    exact (read t).bind fun _ _ _ known => ret (by rwa [Node.places])
  | .path root components, _ => by
    rw [build]
    exact (discreet_buildComponents components).bind fun _ _ _ known =>
      (record known.path).bind fun _ _ more _ => ret (by rw [Node.places]; exact known.later more)
  | .object members, _ => by
    rw [build]
    exact (discreet_buildMembers members).bind fun _ _ _ known => ret (by rwa [Node.places])
  | .call _ args, _ => by
    rw [build]
    exact (discreet_buildAll args).bind fun _ _ _ known => ret (by rwa [Node.places])
  | .chain tag count inner, _ => by
    rw [build]
    exact (discreet_build inner).bind fun _ _ _ known => lift fun _ => known.wrap
  | .tagged tag operands, _ => by
    rw [build]
    exact (discreet_buildAll operands).bind fun _ _ _ known =>
      lift fun _ => Known.ofTag (Known.nodes_iff.mp known)

theorem discreet_buildAll : ∀ (ds : List Draft) {n : Nat},
    Build.Discreet P n (buildAll [] ds) fun m ns => Known P m (Node.placesOfAll ns)
  | [], _ => by
    rw [buildAll]
    exact ret .nil
  | d :: ds, _ => by
    rw [buildAll]
    refine (discreet_build d).bind fun _ _ _ first => (discreet_buildAll ds).bind
      fun _ _ more rest => ret ?_
    exact Known.append_iff.mpr ⟨first.later more, rest⟩

theorem discreet_buildMembers : ∀ (ds : List (String × Draft)) {n : Nat},
    Build.Discreet P n (buildMembers [] ds) fun m ns => Known P m (Node.placesOfMembers ns)
  | [], _ => by
    rw [buildMembers]
    exact ret .nil
  | (_, d) :: ds, _ => by
    rw [buildMembers]
    refine (discreet_build d).bind fun _ _ _ first => (discreet_buildMembers ds).bind
      fun _ _ more rest => ret ?_
    exact Known.append_iff.mpr ⟨first.later more, rest⟩

theorem discreet_buildComponents : ∀ (cs : List DraftComponent) {n : Nat},
    Build.Discreet P n (buildComponents [] cs) fun m cs => Known P m (Component.placesOfAll cs)
  | [], _ => by
    rw [buildComponents]
    exact ret .nil
  | .key t :: cs, _ => by
    rw [buildComponents]
    refine (read t).bind fun _ _ _ first => (discreet_buildComponents cs).bind
      fun _ _ more rest => ret ?_
    exact Known.append_iff.mpr ⟨first.later more, rest⟩
  | .computed d :: cs, _ => by
    rw [buildComponents]
    refine (discreet_build d).bind fun _ _ _ first => (discreet_buildComponents cs).bind
      fun _ _ more rest => ret ?_
    exact Known.append_iff.mpr ⟨first.later more, rest⟩
end

end Draft

section
open Build.Discreet

theorem QueryDraft.discreet_buildOrder (o : OrderDraft) (n : Nat) :
    Build.Discreet P n (buildOrder [] o) fun m key =>
      Known P m (Component.placesOfAll key.path.components) :=
  (Draft.discreet_buildComponents o.components).bind fun _ _ _ known =>
    (record known.path).bind fun _ _ more _ => ret (known.later more)

theorem QueryDraft.discreet_build (q : QueryDraft) {n : Nat} :
    Build.Discreet P n (q.build []) fun m query => Known P m query.places := by
  have selects : ∀ m, Build.Discreet P m (q.select.mapM (Draft.build [])) fun k select =>
      Known P k ((select.map Node.places).getD []) := fun m => by
    cases q.select with
    | none => exact ret .nil
    | some d => exact d.discreet_build.bind fun _ _ _ known => ret known
  have rest : ∀ m (filter : Node), Known P m filter.places → Build.Discreet P m (do
      let select ← q.select.mapM (Draft.build [])
      let order ← q.order.mapM (buildOrder [])
      return ({ filter, select, order, sortFirst := q.sortFirst } : Query))
        fun m query => Known P m query.places := fun m filter known =>
    (selects m).bind fun _ _ more chosen =>
      (mapM (fun _ _ _ more known => known.later more) discreet_buildOrder).bind
        fun _ _ further keys => ret (Known.append_iff.mpr ⟨Known.append_iff.mpr
          ⟨known.later (Nat.le_trans more further), chosen.later further⟩,
            Known.flatMap_iff.mpr keys⟩)
  unfold build
  cases q.failure with
  | some error => exact (fault error).bind (Q := fun _ _ => False) fun _ _ _ => False.elim
  | none =>
    cases q.filter with
    | none => exact rest n _ (by simp [Node.places, Value.places])
    | some d => exact d.discreet_build.bind fun m _ _ => rest m _

end

section
variable {scope : CompileScope}

/-- What an operator gives leads where its operands lead. -/
theorem Known.compute {op : BinaryOp} {l r v : Value} {p q : Regex.Cache} {h : Heap}
    (left : Known P k l.places) (right : Known P k r.places)
    (computed : (op.compute h l r).run.run p = (.ok v, q)) : Known P k v.places := by
  by_cases regex : op = .regex
  · subst regex
    cases l with
    | text s =>
      obtain ⟨_, _, -, rest⟩ := ok_bind computed
      obtain ⟨_, _, -, rest⟩ := ok_bind rest
      cases rest
      exact .nil
    | _ =>
      cases computed
      exact .nil
  · have plain : op.compute h l r = Compile.ofOption (op.apply h l r) := by
      cases op <;> first | rfl | exact absurd rfl regex
    rw [plain] at computed
    obtain ⟨applied, -⟩ := Compile.ok_ofOption computed
    rcases BinaryOp.of_apply applied with rfl | rfl | ⟨given, rfl⟩
    · exact left
    · exact right
    · rw [given.places_toValue]
      exact .nil

theorem Known.unary? {op : UnaryOp} {a c : Code} {p q : Regex.Cache} (known : Known P k a.places)
    (compiled : (Code.unary? scope op a).run.run p = (.ok c, q)) : Known P k c.places := by
  cases a with
  | literal v =>
    obtain ⟨_, _, computed, rest⟩ := ok_bind compiled
    cases rest
    rw [Code.places, op.places_apply (Compile.ok_ofOption computed).1]
    exact .nil
  | _ =>
    cases compiled
    rwa [Code.places]

theorem Known.binary? {op : BinaryOp} {a b c : Code} {p q : Regex.Cache}
    (left : Known P k a.places) (right : Known P k b.places)
    (compiled : (Code.binary? scope op a b).run.run p = (.ok c, q)) : Known P k c.places := by
  by_cases literal : ∃ l r, a = .literal l ∧ b = .literal r
  · obtain ⟨l, r, rfl, rfl⟩ := literal
    obtain ⟨_, _, computed, rest⟩ := ok_bind compiled
    cases rest
    rw [Code.places] at left right ⊢
    exact left.compute right computed
  · have dynamic : Code.binary? scope op a b = pure (.binary op a b) := by
      cases a <;> cases b <;> first | rfl | exact absurd ⟨_, _, rfl, rfl⟩ literal
    rw [dynamic] at compiled
    cases compiled
    rw [Code.places]
    exact Known.append_iff.mpr ⟨left, right⟩

theorem Known.ternary? {a b c : Code} (cond : Known P k a.places) (yes : Known P k b.places)
    (no : Known P k c.places) : Known P k (Code.ternary? a b c).places := by
  unfold Code.ternary?
  split
  · rw [Code.places] at yes no ⊢
    split
    · exact yes
    · exact no
  · rw [Code.places]
    exact Known.append_iff.mpr ⟨Known.append_iff.mpr ⟨cond, yes⟩, no⟩

mutual
/-- Compiling adds no places. -/
theorem Node.known_compile : ∀ (n : Node) {c : Code} {p q : Regex.Cache}, Known P k n.places →
    (n.compile scope).run.run p = (.ok c, q) → Known P k c.places
  | .literal v, _, _, _, known, compiled => by
    rw [Node.compile] at compiled
    cases compiled
    rwa [Node.places, ← Code.places] at known
  | .unary op a, _, _, _, known, compiled => by
    rw [Node.places] at known
    rw [Node.compile] at compiled
    obtain ⟨_, _, first, rest⟩ := ok_bind compiled
    exact (Node.known_compile a known first).unary? rest
  | .binary op a b, _, _, _, known, compiled => by
    rw [Node.places, Known.append_iff] at known
    rw [Node.compile] at compiled
    obtain ⟨_, _, first, rest⟩ := ok_bind compiled
    obtain ⟨_, _, second, rest⟩ := ok_bind rest
    exact (Node.known_compile a known.1 first).binary? (Node.known_compile b known.2 second) rest
  | .ternary a b c, _, _, _, known, compiled => by
    rw [Node.places, Known.append_iff, Known.append_iff] at known
    rw [Node.compile] at compiled
    obtain ⟨_, _, first, rest⟩ := ok_bind compiled
    obtain ⟨_, _, second, rest⟩ := ok_bind rest
    obtain ⟨_, _, third, rest⟩ := ok_bind rest
    cases rest
    exact (Node.known_compile a known.1.1 first).ternary? (Node.known_compile b known.1.2 second)
      (Node.known_compile c known.2 third)
  | .path root components, _, _, _, known, compiled => by
    rw [Node.places] at known
    rw [Node.compile] at compiled
    obtain ⟨_, _, first, rest⟩ := ok_bind compiled
    cases rest
    rw [Code.places]
    exact Component.known_compileAll components known first
  | .object members, _, _, _, known, compiled => by
    rw [Node.places] at known
    rw [Node.compile] at compiled
    obtain ⟨_, _, first, rest⟩ := ok_bind compiled
    cases rest
    rw [Code.places]
    exact Node.known_compileMembers members known first
  | .array items, _, _, _, known, compiled => by
    rw [Node.places] at known
    rw [Node.compile] at compiled
    obtain ⟨_, _, first, rest⟩ := ok_bind compiled
    cases rest
    rw [Code.places]
    exact Node.known_compileAll items known first
  | .call name args, _, _, _, known, compiled => by
    rw [Node.places] at known
    rw [Node.compile] at compiled
    split at compiled
    · cases compiled
    · obtain ⟨_, _, first, rest⟩ := ok_bind compiled
      cases rest
      rw [Code.places]
      exact Node.known_compileAll args known first

theorem Node.known_compileAll : ∀ (ns : List Node) {cs : List Code} {p q : Regex.Cache},
    Known P k (Node.placesOfAll ns) → (Node.compileAll scope ns).run.run p = (.ok cs, q) →
    Known P k (Code.placesOfAll cs)
  | [], _, _, _, _, compiled => by
    rw [Node.compileAll] at compiled
    cases compiled
    exact .nil
  | n :: ns, _, _, _, known, compiled => by
    rw [Node.placesOfAll, Known.append_iff] at known
    rw [Node.compileAll] at compiled
    obtain ⟨_, _, first, rest⟩ := ok_bind compiled
    obtain ⟨_, _, others, rest⟩ := ok_bind rest
    cases rest
    exact Known.append_iff.mpr
      ⟨Node.known_compile n known.1 first, Node.known_compileAll ns known.2 others⟩

theorem Node.known_compileMembers : ∀ (ns : List (String × Node)) {cs : List (String × Code)}
    {p q : Regex.Cache}, Known P k (Node.placesOfMembers ns) →
    (Node.compileMembers scope ns).run.run p = (.ok cs, q) → Known P k (Code.placesOfMembers cs)
  | [], _, _, _, _, compiled => by
    rw [Node.compileMembers] at compiled
    cases compiled
    exact .nil
  | (_, n) :: ns, _, _, _, known, compiled => by
    rw [Node.placesOfMembers, Known.append_iff] at known
    rw [Node.compileMembers] at compiled
    obtain ⟨_, _, first, rest⟩ := ok_bind compiled
    obtain ⟨_, _, others, rest⟩ := ok_bind rest
    cases rest
    exact Known.append_iff.mpr
      ⟨Node.known_compile n known.1 first, Node.known_compileMembers ns known.2 others⟩

theorem Component.known_compileAll : ∀ (cs : List Component) {steps : List Step}
    {p q : Regex.Cache}, Known P k (Component.placesOfAll cs) →
    (Component.compileAll scope cs).run.run p = (.ok steps, q) → Known P k (Step.placesOfAll steps)
  | [], _, _, _, _, compiled => by
    rw [Component.compileAll] at compiled
    cases compiled
    exact .nil
  | .key v :: cs, _, _, _, known, compiled => by
    rw [Component.placesOfAll, Known.append_iff] at known
    rw [Component.compileAll] at compiled
    obtain ⟨_, _, others, rest⟩ := ok_bind compiled
    cases rest
    exact Known.append_iff.mpr ⟨known.1, Component.known_compileAll cs known.2 others⟩
  | .computed n :: cs, _, _, _, known, compiled => by
    rw [Component.placesOfAll, Known.append_iff] at known
    rw [Component.compileAll] at compiled
    obtain ⟨_, _, first, rest⟩ := ok_bind compiled
    obtain ⟨_, _, others, rest⟩ := ok_bind rest
    cases rest
    have head := Node.known_compile n known.1 first
    have tail := Component.known_compileAll cs known.2 others
    split
    · rw [Code.places] at head
      exact Known.append_iff.mpr ⟨head, tail⟩
    · exact Known.append_iff.mpr ⟨head, tail⟩
end

theorem OrderKey.known_compile {os : List OrderKey} {keys : List SortKey} {p q : Regex.Cache}
    (known : ∀ o ∈ os, Known P k (Component.placesOfAll o.path.components))
    (compiled : (os.mapM (OrderKey.compile scope)).run.run p = (.ok keys, q)) :
    ∀ key ∈ keys, Known P k (Step.placesOfAll key.steps) := by
  induction os generalizing keys p with
  | nil =>
    cases compiled
    exact fun _ => (absurd · List.not_mem_nil)
  | cons o os ih =>
    obtain ⟨here, others⟩ := List.forall_mem_cons.mp known
    rw [List.mapM_cons] at compiled
    obtain ⟨_, _, first, rest⟩ := ok_bind compiled
    obtain ⟨_, _, second, rest⟩ := ok_bind rest
    obtain ⟨_, _, walked, made⟩ := ok_bind first
    cases made
    cases rest
    exact List.forall_mem_cons.mpr
      ⟨Component.known_compileAll _ here walked, ih others second⟩

/-- What a query is compiled to leads where the query and its paths lead. -/
theorem Query.known_compile {query : Query} {d : Definition} {paths : List Path}
    {p q : Regex.Cache} (known : Known P k query.places)
    (listed : Known P k (paths.flatMap Path.places))
    (compiled : (query.compile scope paths).run.run p = (.ok d, q)) : Known P k d.places := by
  obtain ⟨⟨filter, select⟩, order⟩ : (_ ∧ _) ∧ _ := by
    simpa only [Query.places, Known.append_iff, Known.flatMap_iff] using known
  obtain ⟨_, _, first, rest⟩ := ok_bind compiled
  obtain ⟨chosen, _, second, rest⟩ := ok_bind rest
  obtain ⟨keys, _, third, rest⟩ := ok_bind rest
  have filtered := Node.known_compile _ filter first
  have selected : Known P k ((chosen.map Code.places).getD []) := by
    cases given : query.select with
    | none =>
      rw [given] at second
      cases second
      exact .nil
    | some n =>
      rw [given] at second select
      obtain ⟨_, _, code, made⟩ := ok_bind second
      cases made
      exact Node.known_compile n select code
  have sorted := OrderKey.known_compile order third
  cases rest
  refine Known.append_iff.mpr ⟨Known.append_iff.mpr
    ⟨Known.append_iff.mpr ⟨filtered, selected⟩, ?_⟩, listed⟩
  refine Known.flatMap_iff.mpr fun key member => sorted key ?_
  dsimp only at member
  split at member
  · exact absurd member List.not_mem_nil
  · exact member

end

namespace Act.Discreet

variable {M : Manner} {n : Nat}

theorem build {α : Type} {Q : Nat → α → Prop} {draft : Build α} (extends_ : draft.Extending)
    (discreet : Build.Discreet P n draft Q) : Discreet M P n (Act.build draft) fun m r =>
      ∀ x, r = .ok x → Q m x.1 ∧ Known P m (x.2.flatMap Path.places) := by
  refine onHeap (fun h => extends_ ⟨h, []⟩) fun h size knows => ?_
  obtain ⟨-, after, recorded, gives⟩ := discreet ⟨h, []⟩ size knows .nil
  rcases outcome : draft.run.run ⟨h, []⟩ with ⟨_ | a, b⟩ <;> rw [outcome] at after recorded gives
  · exact ⟨after, nofun⟩
  · refine ⟨after, ?_⟩
    rintro x ⟨⟩
    refine ⟨gives a rfl, recorded.of_subset fun l held => ?_⟩
    simpa only [List.mem_flatMap, List.mem_reverse] using held

theorem parse (text : String) : Discreet M P n (Act.parse text) fun m x =>
    Known P m x.1.places ∧ Known P m (x.2.flatMap Path.places) := by
  have pools : ∀ (change : World → ParserPool) (m : Nat), Discreet M P m
      (modify fun w => { w with parsers := change w } : Act Unit) fun _ _ => True :=
    fun _ _ => touch (fun _ => rfl) (fun _ => rfl) (fun _ => rfl) fun _ => rfl
  have rest : ∀ (m : Nat) (result : Except Error (Query × List Path)),
      (∀ x, result = .ok x → Known P m x.1.places ∧ Known P m (x.2.flatMap Path.places)) →
      Discreet M P m (do
        modify fun w => { w with parsers := w.parsers.giveBack }
        Act.ofExcept (result.mapError (.ofReading text))) fun m x =>
          Known P m x.1.places ∧ Known P m (x.2.flatMap Path.places) := fun m result known =>
    (pools _ m).bind fun k _ more _ => ofExcept fun x same => by
      cases result with
      | error e => cases same
      | ok y =>
        cases same
        exact ⟨(known _ rfl).1.later more, (known _ rfl).2.later more⟩
  refine (pools _ n).bind fun m _ _ _ => world fun w _ _ => ?_
  split
  · next draft _ =>
    exact (build (draft.extending_build []) draft.discreet_build).bind fun k result _ known =>
      rest k result known
  · exact (ret (Q := fun _ r => ∀ x, r ≠ .ok x) nofun).bind fun k result _ none =>
      rest k result fun x same => absurd same (none x)

/-- The definition of a query leads to known places, and so does the cache that keeps it. -/
theorem definition (text : String) :
    Discreet M P n (Act.definition text) fun m d => Known P m d.places := by
  have counts : ∀ (change : World → QueryCache) (m : Nat),
      (∀ w, (change w).entries = w.cache.entries) → Discreet M P m
        (modify fun w => { w with cache := change w } : Act Unit) fun _ _ => True :=
    fun _ _ same => touch (fun _ => rfl) (fun _ => rfl) (fun _ => rfl) same
  have keeps : ∀ (d : Definition) (m : Nat), Known P m d.places → Discreet M P m
      (modify fun w => { w with cache := w.cache.insert text d } : Act Unit) fun _ _ => True :=
    fun d m known => of_inert (fun _ => ⟨.refl _, rfl, rfl, rfl⟩) fun w size knows =>
      ⟨⟨knows.heap, knows.bus, knows.names, knows.weak,
        List.forall_mem_cons.mpr ⟨size ▸ known, knows.cache⟩⟩, fun _ _ => trivial⟩
  refine world fun w size knows => ?_
  split
  · next d found =>
    refine (counts (fun w => { w.cache with hits := w.cache.hits + 1 }) n fun _ => rfl).bind
      fun _ _ more _ => ret (Known.later ?_ more)
    obtain ⟨before, after, listed, -⟩ := List.lookup_eq_some_iff.mp found
    exact size ▸ knows.cache (text, d) (by simp [listed])
  · refine (counts (fun w => { w.cache with misses := w.cache.misses + 1 }) n fun _ => rfl).bind
      fun _ _ _ _ => (parse text).bind fun m x _ known => ?_
    have compiled := compile (M := M) (P := P) (n := m) (Q := fun m d => Known P m d.places)
      (c := fun scope => x.1.compile scope x.2)
      fun scope p q d compiled => Query.known_compile known.1 known.2 compiled
    exact compiled.bind fun _ d _ held => (keeps d _ held).bind fun _ _ more _ =>
      ret (held.later more)

end Act.Discreet

end ReactiveQuery
