import ReactiveQuery.Proofs.Query.Folding
import ReactiveQuery.Proofs.Query.Shape
import ReactiveQuery.Proofs.Sorting
import ReactiveQuery.Proofs.Value.Agree

/-! Evaluation looks at few places.  In a heap that agrees with another on some places, and at
those on the fields that are read, the same code comes to the same, but for the tags of the
containers that it makes. -/

namespace ReactiveQuery

/-- The fields that a step can read at a place are among those given. -/
def Step.Covered (h : Heap) (F : Nat → String → Prop) (loc : Nat) : Step → Prop
  | .key k => ∀ s, h.text k = some s → F loc s
  | .computed _ => ∀ s, F loc s

theorem Step.Covered.mono {h : Heap} {F G : Nat → String → Prop} {loc : Nat} {step : Step}
    (covered : step.Covered h F loc) (more : ∀ s, F loc s → G loc s) : step.Covered h G loc := by
  cases step with
  | key k => exact fun s text => more s (covered s text)
  | computed c => exact fun s => more s (covered s)

/-- A walk reads only fields among those given: its steps are covered at every place, or it takes a
single step, which is covered where it is taken. -/
def Step.Follows (h : Heap) (F : Nat → String → Prop) (current : Value) (steps : List Step) :
    Prop :=
  (∀ step ∈ steps, ∀ loc, step.Covered h F loc) ∨
    ∃ step, steps = [step] ∧ ∀ r, h.drill current = some (.record r) → step.Covered h F r.loc

/-- A path reads only fields among those given. -/
def Context.Walks (ctx : Context) (h : Heap) (F : Nat → String → Prop) : Root → List Step → Prop
  | .here, steps => ∀ step ∈ steps, ∀ loc, step.Covered h F loc
  | .arg i, steps => Step.Follows h F (ctx.param i) steps

/-- A path starts within the places and reads only fields among those given. -/
structure Context.Reads (ctx : Context) (h : Heap) (P : Nat → Prop) (F : Nat → String → Prop)
    (ρ : Nat → Nat) (root : Root) (steps : List Step) : Prop where
  start : ∀ i, root = .arg i → (ctx.param i).Inside P ρ
  follows : ctx.Walks h F root steps

/-- Two worlds whose heaps differ from two given ones in the next tag alone, and whose next tags
correspond. -/
structure World.Mirrors (h k : Heap) (ρ : Nat → Nat) (u v : World) : Prop where
  left : u.heap = { h with nextTag := u.heap.nextTag }
  right : v.heap = { k with nextTag := v.heap.nextTag }
  tags : ∀ i, ρ (u.heap.nextTag + i) = v.heap.nextTag + i
  read : u.patterns.Reachable
  read' : v.patterns.Reachable

/-- Two activities that do the same in heaps that agree; where `lax`, the first may also never
end. -/
abbrev Act.Local {α β : Type} (lax : Prop) (h k : Heap) (ρ : Nat → Nat) (V : α → β → Prop) :=
  Act.Related (α := α) (β := β) lax (World.Mirrors h k ρ) V

/-- Lists of values that mirror each other. -/
def Value.MirrorAll (P : Nat → Prop) (ρ : Nat → Nat) (xs ys : List Value) : Prop :=
  ys = xs.map (Value.retag ρ) ∧ ∀ v ∈ xs, ∀ l ∈ v.places, P l

def Value.MirrorFields (P : Nat → Prop) (ρ : Nat → Nat) (xs ys : FieldMap Value) : Prop :=
  (ys = xs.map fun e => (e.1, e.2.retag ρ)) ∧ ∀ e ∈ xs, ∀ l ∈ e.2.places, P l

section
variable {lax : Prop} {P : Nat → Prop} {F : Nat → String → Prop} {ρ : Nat → Nat} {h k : Heap}

theorem Value.MirrorAll.nil : Value.MirrorAll P ρ [] [] := ⟨rfl, by simp⟩

theorem Value.MirrorFields.nil : Value.MirrorFields P ρ [] [] := ⟨rfl, by simp⟩

theorem Value.MirrorAll.append {xs ys : List Value} {v v' : Value}
    (done : Value.MirrorAll P ρ xs ys) (last : v.Mirror P ρ v') :
    Value.MirrorAll P ρ (xs ++ [v]) (ys ++ [v']) := by
  refine ⟨by simp [done.1, last.1], fun w member => ?_⟩
  rcases List.mem_append.mp member with member | member
  · exact done.2 w member
  · rw [List.mem_singleton.mp member]
    exact last.2

theorem FieldMap.map_insert (key : String) (v : Value) (fields : FieldMap Value) :
    (FieldMap.insert key v fields).map (fun e => (e.1, e.2.retag ρ)) =
      FieldMap.insert key (v.retag ρ) (fields.map fun e => (e.1, e.2.retag ρ)) := by
  induction fields with
  | nil => rfl
  | cons e fields ih =>
    obtain ⟨name, x⟩ := e
    simp only [FieldMap.insert, List.map_cons]
    split
    · rfl
    · split
      · rfl
      · rw [List.map_cons, ih]

theorem Value.MirrorFields.insert {xs ys : FieldMap Value} {v v' : Value} (key : String)
    (done : Value.MirrorFields P ρ xs ys) (last : v.Mirror P ρ v') :
    Value.MirrorFields P ρ (FieldMap.insert key v xs) (FieldMap.insert key v' ys) := by
  refine ⟨by rw [FieldMap.map_insert, done.1, last.1], fun e member => ?_⟩
  rcases FieldMap.mem_insert member with same | member
  · rw [same]
    exact last.2
  · exact done.2 e member

theorem Heap.Agree.drill (agree : h.Agree lax P F ρ k) {a a' : Value} (value : a.Mirror P ρ a') :
    Option.Rel (Value.Mirror P ρ) (h.drill a) (k.drill a') := by
  obtain ⟨rfl, inside⟩ := value
  cases a with
  | collection r =>
    have here : P r.loc := inside _ (by simp [Value.places])
    have members := agree.itemsInside r here
    simp only [Heap.drill, Value.retag_collection, agree.items r here]
    cases items : h.items r with
    | nil => exact .none
    | cons v rest =>
      have first := (members v (by simp [items])).mirror
      cases v <;> first | exact .none | exact .some first
  | null =>
    rw [Value.retag_null]
    exact .none
  | _ =>
    simp only [Heap.drill, Value.retag_bool, Value.retag_number, Value.retag_text,
      Value.retag_array, Value.retag_object, Value.retag_record]
    exact .some ⟨by simp, inside⟩

/-- Agreement does not depend on the next tags. -/
theorem World.Mirrors.agree {u v : World} (mirrors : World.Mirrors h k ρ u v)
    (agree : h.Agree lax P F ρ k) : u.heap.Agree lax P F ρ v.heap := by
  rw [mirrors.left, mirrors.right]
  exact ⟨agree.size, agree.items, agree.names, agree.field, agree.itemsInside, agree.fieldInside⟩

namespace Act.Local

variable {α β : Type} {V : α → β → Prop}

/-- Answers that compare are outcomes that compare. -/
theorem compare {x : Option α} {y : Option β} {u v : World} {R : World → World → Prop}
    (alike : Responses lax V x y) (world : R u v) :
    Compare lax R V ((x.map .ok).getD (.error .endless), u)
      ((y.map .ok).getD (.error .endless), v) := by
  cases alike with
  | some value => exact .ok value world
  | none => exact .error world
  | free free => exact .endless free

theorem ask (agree : h.Agree lax P F ρ k) {q : Heap → Option α} {q' : Heap → Option β}
    (step : ∀ g g' : Heap, g.cells = h.cells → g.Agree lax P F ρ g' →
      Responses lax V (q g) (q' g')) :
    Local lax h k ρ V (Act.ask q) (Act.ask q') := by
  intro u v mirrors
  rw [on_ask, on_ask]
  have same : u.heap.cells = h.cells := by rw [mirrors.left]
  exact compare (step _ _ same (mirrors.agree agree)) mirrors

theorem holding {x : Act α} {y : Act β} (held held' : List Value)
    (related : Local lax h k ρ V x y) :
    Local lax h k ρ V (Act.holding held x) (Act.holding held' y) :=
  Related.holding (fun _ _ mirrors => ⟨mirrors.left, mirrors.right, mirrors.tags, mirrors.read,
      mirrors.read'⟩)
    (fun _ _ _ _ _ mirrors => ⟨mirrors.left, mirrors.right, mirrors.tags, mirrors.read,
      mirrors.read'⟩) related

theorem fresh {make make' : Nat → Value} (value : ∀ t, (make t).Mirror P ρ (make' (ρ t))) :
    Local lax h k ρ (Value.Mirror P ρ) (do return make (← Act.onHeap Heap.freshTag))
      (do return make' (← Act.onHeap Heap.freshTag)) := by
  intro u v mirrors
  rw [on_bind, on_bind, on_onHeap, on_onHeap]
  have tag : v.heap.freshTag.1 = ρ u.heap.freshTag.1 := (mirrors.tags 0).symm
  rw [tag]
  refine .ok (value _) ⟨?_, ?_, fun i => ?_, mirrors.read, mirrors.read'⟩
  · simp only [Heap.freshTag]
    rw [mirrors.left]
  · simp only [Heap.freshTag]
    rw [mirrors.right]
  · have next := mirrors.tags (1 + i)
    rw [← Nat.add_assoc, ← Nat.add_assoc] at next
    exact next

theorem freshArray {xs ys : List Value} (items : Value.MirrorAll P ρ xs ys) :
    Local lax h k ρ (Value.Mirror P ρ) (Act.freshArray xs) (Act.freshArray ys) := by
  refine fresh fun t => ⟨by simp [items.1], fun l held => ?_⟩
  rw [Value.places, Value.mem_placesOfItems] at held
  obtain ⟨v, member, held⟩ := held
  exact items.2 v member l held

theorem freshObject {xs ys : FieldMap Value} (fields : Value.MirrorFields P ρ xs ys) :
    Local lax h k ρ (Value.Mirror P ρ) (Act.freshObject xs) (Act.freshObject ys) := by
  refine fresh fun t => ⟨by simp [fields.1], fun l held => ?_⟩
  rw [Value.places, Value.mem_placesOfFields] at held
  obtain ⟨e, member, held⟩ := held
  exact fields.2 e member l held

/-- What a pattern and a subject give, in heaps that agree. -/
theorem patternMeaning (agree : h.Agree lax P F ρ k) {l r l' r' : Value} (left : l.Mirror P ρ l')
    (right : r.Mirror P ρ r') {u v : World} {R : World → World → Prop} (world : R u v) :
    Compare lax R (Value.Mirror P ρ) (ReactiveQuery.patternMeaning h l r, u)
      (ReactiveQuery.patternMeaning k l' r', v) := by
  obtain ⟨rfl, -⟩ := left
  cases l with
  | text p =>
    have subject := agree.text right
    simp only [ReactiveQuery.patternMeaning, Value.retag_text]
    generalize h.text r = x at subject ⊢
    generalize k.text r' = y at subject ⊢
    cases subject with
    | none => exact .error world
    | free free => exact .endless free
    | some same =>
      subst same
      cases Regex.Program.ofText? p with
      | none => exact .error world
      | some program => exact .ok (Primitive.bool _).mirror_toValue world
  | _ => exact .ok (Primitive.bool false).mirror_toValue world

/-- A computed operator gives values that mirror each other or the same fault. -/
theorem compute (agree : h.Agree lax P F ρ k) (inj : Function.Injective ρ) (op : BinaryOp)
    {l r l' r' : Value} (left : l.Mirror P ρ l') (right : r.Mirror P ρ r') :
    Local lax h k ρ (Value.Mirror P ρ) (Act.compile fun scope => op.compute scope.heap l r)
      (Act.compile fun scope => op.compute scope.heap l' r') := by
  intro u v mirrors
  obtain ⟨given, read⟩ := op.run_compute u.heap l r mirrors.read
  obtain ⟨given', read'⟩ := op.run_compute v.heap l' r' mirrors.read'
  rw [on_compile, on_compile]
  simp only
  rw [given, given']
  have after : World.Mirrors h k ρ
      { u with patterns := ((op.compute u.heap l r).run.run u.patterns).2 }
      { v with patterns := ((op.compute v.heap l' r').run.run v.patterns).2 } :=
    ⟨mirrors.left, mirrors.right, mirrors.tags, read, read'⟩
  have agree := mirrors.agree agree
  by_cases regex : op = .regex
  · subst regex
    exact patternMeaning agree left right after
  · rw [BinaryOp.meaning_of_ne regex, BinaryOp.meaning_of_ne regex]
    exact compare (agree.binary inj left right op) after

/-- A walk goes on in both heaps, at values that mirror each other, or ends in both. -/
theorem drill (agree : h.Agree lax P F ρ k) {a a' : Value} (place : a.Mirror P ρ a')
    {go go' : Value → Act Value}
    (rest : ∀ v v', v.Mirror P ρ v' → h.drill a = some v →
      Local lax h k ρ (Value.Mirror P ρ) (go v) (go' v')) :
    Local lax h k ρ (Value.Mirror P ρ)
      (do match (← get).heap.drill a with
        | none => return .null
        | some v => go v)
      (do match (← get).heap.drill a' with
        | none => return .null
        | some v => go' v) := by
  refine Related.bind (V := World.Mirrors h k ρ) (fun u v mirrors => .ok mirrors mirrors)
    fun u v mirrors => ?_
  rw [show u.heap.drill a = h.drill a by rw [mirrors.left]; rfl,
    show v.heap.drill a' = k.drill a' by rw [mirrors.right]; rfl]
  have both := agree.drill place
  cases drilled : h.drill a with
  | none =>
    rw [drilled] at both
    cases drilled' : k.drill a' with
    | none => exact Related.ret Primitive.null.mirror_toValue
    | some v' =>
      rw [drilled'] at both
      cases both
  | some v =>
    rw [drilled] at both
    cases drilled' : k.drill a' with
    | none =>
      rw [drilled'] at both
      cases both
    | some v' =>
      rw [drilled'] at both
      cases both with
      | some value => exact rest v v' value drilled

theorem read (agree : h.Agree lax P F ρ k) {a a' key key' : Value} (value : a.Mirror P ρ a')
    (known : key.Mirror P ρ key')
    (covered : ∀ r, a = .record r → ∀ s, h.text key = some s → F r.loc s) :
    Local lax h k ρ (Value.Mirror P ρ) (Act.ask (·.read a key)) (Act.ask (·.read a' key')) := by
  refine ask agree fun g g' same agree => ?_
  exact agree.read value known fun r here s text =>
    covered r here s (by rwa [← Heap.text_cells same])

end Act.Local

end

section
variable {lax : Prop} {P : Nat → Prop} {F : Nat → String → Prop} {ρ : Nat → Nat} {h k : Heap}
variable {call call' : Caller} {ctx : Context}

theorem Step.Follows.covered {current : Value} {steps : List Step} {step : Step} {r : Ref}
    (follows : Step.Follows h F current (step :: steps))
    (drilled : h.drill current = some (.record r)) : step.Covered h F r.loc := by
  rcases follows with always | ⟨step, same, here⟩
  · exact always step List.mem_cons_self r.loc
  · cases same
    exact here r drilled

theorem Step.Follows.rest {current next : Value} {steps : List Step} {step : Step}
    (follows : Step.Follows h F current (step :: steps)) : Step.Follows h F next steps := by
  rcases follows with always | ⟨step, same, here⟩
  · exact .inl fun step member => always step (List.mem_cons_of_mem _ member)
  · cases same
    exact .inl fun step member => absurd member List.not_mem_nil

mutual
/-- Code comes to the same in heaps that agree on what it reads. -/
theorem Code.evaluate_local (agree : h.Agree lax P F ρ k) (inj : Function.Injective ρ) :
    ∀ (c : Code) {record record' : Value}, c.All (Value.Inside P ρ) (ctx.Reads h P F ρ) →
      record.Mirror P ρ record' →
      Act.Local lax h k ρ (Value.Mirror P ρ) (c.evaluate call ctx record)
        (c.evaluate call' ctx record')
  | .literal v, record, record', shape, _ => by
    rw [Code.All] at shape
    rw [Code.evaluate, Code.evaluate]
    exact Act.Related.ret shape.mirror
  | .unary op a, record, record', shape, here => by
    rw [Code.All] at shape
    rw [Code.evaluate, Code.evaluate]
    refine (Code.evaluate_local agree inj a shape here).bind fun v v' value => ?_
    exact Act.Local.ask agree fun _ _ _ agree => agree.unary value op
  | .binary op a b, record, record', shape, here => by
    rw [Code.All] at shape
    rw [Code.evaluate_binary, Code.evaluate_binary]
    have right := Code.evaluate_local agree inj b shape.2 here
    refine Act.Related.operate (fun l l' same => by rw [same.1, Value.truthy_retag])
      (fun l l' _ => right.holding [l] [l'])
      (Code.evaluate_local agree inj a shape.1 here) fun l l' r r' left right => ?_
    exact Act.Local.compute agree inj op left right
  | .ternary a b c, record, record', shape, here => by
    rw [Code.All] at shape
    rw [Code.evaluate, Code.evaluate]
    refine (Code.evaluate_local agree inj a shape.1 here).bind fun v v' value => ?_
    rw [value.1, Value.truthy_retag]
    split
    · exact Code.evaluate_local agree inj b shape.2.1 here
    · exact Code.evaluate_local agree inj c shape.2.2 here
  | .path root steps, record, record', shape, here => by
    rw [Code.All] at shape
    cases root with
    | here =>
      rw [Code.evaluate, Code.evaluate]
      exact Step.walk_local agree inj steps shape.2 here here (.inl shape.1.follows)
    | arg i =>
      rw [Code.evaluate, Code.evaluate]
      exact Step.walk_local agree inj steps shape.2 here (shape.1.start i rfl).mirror
        shape.1.follows
  | .object members, record, record', shape, here => by
    rw [Code.All] at shape
    rw [Code.evaluate, Code.evaluate]
    refine (Code.evaluateMembers_local agree inj members shape here .nil).bind
      fun xs ys fields => ?_
    exact Act.Local.freshObject fields
  | .array items, record, record', shape, here => by
    rw [Code.All] at shape
    rw [Code.evaluate, Code.evaluate]
    refine (Code.evaluateAll_local agree inj items shape here .nil).bind
      fun xs ys values => ?_
    exact Act.Local.freshArray values
  | .call .., record, record', shape, _ => by
    rw [Code.All] at shape
    exact shape.elim

theorem Code.evaluateAll_local (agree : h.Agree lax P F ρ k) (inj : Function.Injective ρ) :
    ∀ (cs : List Code) {record record' : Value} {done done' : List Value},
      Code.AllOf (Value.Inside P ρ) (ctx.Reads h P F ρ) cs → record.Mirror P ρ record' →
      Value.MirrorAll P ρ done done' →
      Act.Local lax h k ρ (Value.MirrorAll P ρ) (Code.evaluateAll call ctx record done cs)
        (Code.evaluateAll call' ctx record' done' cs)
  | [], _, _, _, _, _, _, values => by
    rw [Code.evaluateAll, Code.evaluateAll]
    exact Act.Related.ret values
  | c :: cs, _, _, done, done', shape, here, values => by
    rw [Code.AllOf] at shape
    rw [Code.evaluateAll, Code.evaluateAll]
    refine ((Code.evaluate_local agree inj c shape.1 here).holding done done').bind
      fun v v' value => ?_
    exact Code.evaluateAll_local agree inj cs shape.2 here (values.append value)

theorem Code.evaluateMembers_local (agree : h.Agree lax P F ρ k) (inj : Function.Injective ρ) :
    ∀ (cs : List (String × Code)) {record record' : Value} {done done' : FieldMap Value},
      Code.AllOfMembers (Value.Inside P ρ) (ctx.Reads h P F ρ) cs → record.Mirror P ρ record' →
      Value.MirrorFields P ρ done done' →
      Act.Local lax h k ρ (Value.MirrorFields P ρ) (Code.evaluateMembers call ctx record done cs)
        (Code.evaluateMembers call' ctx record' done' cs)
  | [], _, _, _, _, _, _, fields => by
    rw [Code.evaluateMembers, Code.evaluateMembers]
    exact Act.Related.ret fields
  | (key, c) :: cs, _, _, done, done', shape, here, fields => by
    rw [Code.AllOfMembers] at shape
    rw [Code.evaluateMembers, Code.evaluateMembers]
    refine ((Code.evaluate_local agree inj c shape.1 here).holding done.values done'.values).bind
      fun v v' value => ?_
    exact Code.evaluateMembers_local agree inj cs shape.2 here (fields.insert key value)

/-- A walk that reads only covered fields comes to the same in heaps that agree. -/
theorem Step.walk_local (agree : h.Agree lax P F ρ k) (inj : Function.Injective ρ) :
    ∀ (steps : List Step) {record record' current current' : Value},
      Step.AllOf (Value.Inside P ρ) (ctx.Reads h P F ρ) steps → record.Mirror P ρ record' →
      current.Mirror P ρ current' → Step.Follows h F current steps →
      Act.Local lax h k ρ (Value.Mirror P ρ) (Step.walk call ctx record current steps)
        (Step.walk call' ctx record' current' steps)
  | [], _, _, _, _, _, _, place, _ => by
    rw [Step.walk, Step.walk]
    exact Act.Related.ret place
  | .key key :: steps, record, record', current, current', shape, here, place, follows => by
    rw [Step.AllOf] at shape
    rw [Step.walk, Step.walk]
    refine Act.Local.drill agree place fun v v' value drilled => ?_
    have covered : ∀ r, v = .record r → ∀ s, h.text key = some s → F r.loc s := fun r same s text =>
      (follows.covered (same ▸ drilled)) s text
    refine (Act.Local.read agree value shape.1.mirror covered).bind fun next next' value => ?_
    exact Step.walk_local agree inj steps shape.2 here value follows.rest
  | .computed c :: steps, record, record', current, current', shape, here, place, follows => by
    rw [Step.AllOf] at shape
    rw [Step.walk, Step.walk]
    refine Act.Local.drill agree place fun v v' value drilled => ?_
    refine ((Code.evaluate_local agree inj c shape.1 here).holding [v] [v']).bind
      fun key key' known => ?_
    have covered : ∀ r, v = .record r → ∀ s, h.text key = some s → F r.loc s := fun r same s _ =>
      (follows.covered (same ▸ drilled)) s
    refine (Act.Local.read agree value known covered).bind fun next next' value => ?_
    exact Step.walk_local agree inj steps shape.2 here value follows.rest
end

/-- Rows of sort keys that mirror each other. -/
def Value.MirrorRows (P : Nat → Prop) (ρ : Nat → Nat) (rows rows' : List (List Value × Value)) :
    Prop :=
  (rows' = rows.map fun row => (row.1.map (Value.retag ρ), row.2.retag ρ)) ∧
    ∀ row ∈ rows, (∀ v ∈ row.1, ∀ l ∈ v.places, P l) ∧ ∀ l ∈ row.2.places, P l

theorem Value.MirrorAll.uncons {v : Value} {xs ys : List Value}
    (all : Value.MirrorAll P ρ (v :: xs) ys) :
    ∃ v' ys', ys = v' :: ys' ∧ v.Mirror P ρ v' ∧ Value.MirrorAll P ρ xs ys' :=
  ⟨v.retag ρ, xs.map (Value.retag ρ), all.1, ⟨rfl, all.2 v List.mem_cons_self⟩, rfl,
    fun x member => all.2 x (List.mem_cons_of_mem _ member)⟩

theorem Value.MirrorAll.cons {v v' : Value} {xs ys : List Value} (first : v.Mirror P ρ v')
    (rest : Value.MirrorAll P ρ xs ys) : Value.MirrorAll P ρ (v :: xs) (v' :: ys) :=
  ⟨by rw [List.map_cons, first.1, rest.1], fun x member => by
    rcases List.mem_cons.mp member with rfl | member
    · exact first.2
    · exact rest.2 x member⟩

namespace Definition

variable {d : Definition}

theorem accepts_local (agree : h.Agree lax P F ρ k) (inj : Function.Injective ρ)
    (shape : d.All (Value.Inside P ρ) (ctx.Reads h P F ρ)) {item item' : Value}
    (here : item.Mirror P ρ item') :
    Act.Local lax h k ρ Eq (d.accepts call ctx item) (d.accepts call' ctx item') := by
  refine (Code.evaluate_local agree inj d.filter shape.filter here).bind fun v v' value => ?_
  exact Act.Related.ret (by rw [value.1, Value.truthy_retag])

theorem project_local (agree : h.Agree lax P F ρ k) (inj : Function.Injective ρ)
    (shape : d.All (Value.Inside P ρ) (ctx.Reads h P F ρ)) {item item' : Value}
    (here : item.Mirror P ρ item') :
    Act.Local lax h k ρ (Value.Mirror P ρ) (d.project call ctx item)
      (d.project call' ctx item') := by
  have selected := shape.select
  unfold project
  cases select : d.select with
  | none => exact Act.Related.ret here
  | some c => exact Code.evaluate_local agree inj c (selected c (by simp [select])) here

theorem filterItems_local (agree : h.Agree lax P F ρ k) (inj : Function.Injective ρ)
    (shape : d.All (Value.Inside P ρ) (ctx.Reads h P F ρ)) {items items' : List Value}
    (all : Value.MirrorAll P ρ items items') :
    Act.Local lax h k ρ (Value.MirrorAll P ρ) (d.filterItems call ctx items)
      (d.filterItems call' ctx items') := by
  induction items generalizing items' with
  | nil =>
    rw [all.1, List.map_nil, filterItems, filterItems]
    exact Act.Related.ret .nil
  | cons item items ih =>
    obtain ⟨item', rest', rfl, first, rest⟩ := all.uncons
    rw [filterItems, filterItems]
    refine (accepts_local agree inj shape first).bind fun kept kept' same => ?_
    subst same
    split
    · exact (ih rest).bind fun xs ys rows => Act.Related.ret (.cons first rows)
    · exact ih rest

theorem projectItems_local (agree : h.Agree lax P F ρ k) (inj : Function.Injective ρ)
    (shape : d.All (Value.Inside P ρ) (ctx.Reads h P F ρ)) {items items' done done' : List Value}
    (all : Value.MirrorAll P ρ items items') (rows : Value.MirrorAll P ρ done done') :
    Act.Local lax h k ρ (Value.MirrorAll P ρ) (d.projectItems call ctx done items)
      (d.projectItems call' ctx done' items') := by
  induction items generalizing items' done done' with
  | nil =>
    rw [all.1, List.map_nil, projectItems, projectItems]
    exact Act.Related.ret rows
  | cons item items ih =>
    obtain ⟨item', rest', rfl, first, rest⟩ := all.uncons
    rw [projectItems, projectItems]
    exact ((project_local agree inj shape first).holding done done').bind fun v v' row =>
      ih rest (rows.append row)

theorem filterProject_local (agree : h.Agree lax P F ρ k) (inj : Function.Injective ρ)
    (shape : d.All (Value.Inside P ρ) (ctx.Reads h P F ρ)) {items items' done done' : List Value}
    (all : Value.MirrorAll P ρ items items') (rows : Value.MirrorAll P ρ done done') :
    Act.Local lax h k ρ (Value.MirrorAll P ρ) (d.filterProject call ctx done items)
      (d.filterProject call' ctx done' items') := by
  induction items generalizing items' done done' with
  | nil =>
    rw [all.1, List.map_nil, filterProject, filterProject]
    exact Act.Related.ret rows
  | cons item items ih =>
    obtain ⟨item', rest', rfl, first, rest⟩ := all.uncons
    rw [filterProject, filterProject]
    refine ((accepts_local agree inj shape first).holding done done').bind
      fun kept kept' same => ?_
    subst same
    split
    · exact ((project_local agree inj shape first).holding done done').bind fun v v' row =>
        ih rest (rows.append row)
    · exact ih rest rows

end Definition

/-- Rows of sort keys compare alike in heaps that agree. -/
theorem compareRows_agree (agree : h.Agree lax P F ρ k) (inj : Function.Injective ρ)
    {flags : List Bool} {as bs : List Value} (left : ∀ v ∈ as, ∀ l ∈ v.places, P l)
    (right : ∀ v ∈ bs, ∀ l ∈ v.places, P l) :
    Responses lax Eq (compareRows h flags as bs)
      (compareRows k flags (as.map (Value.retag ρ)) (bs.map (Value.retag ρ))) := by
  induction flags generalizing as bs with
  | nil => exact .refl _
  | cons ascending flags ih =>
    cases as with
    | nil => exact .refl _
    | cons a as =>
      cases bs with
      | nil => exact .refl _
      | cons b bs =>
        refine (agree.compareKeys inj ⟨rfl, left a List.mem_cons_self⟩
          ⟨rfl, right b List.mem_cons_self⟩ ascending).bind_same fun order => ?_
        cases order with
        | eq =>
          exact ih (fun v member => left v (List.mem_cons_of_mem _ member))
            (fun v member => right v (List.mem_cons_of_mem _ member))
        | lt | gt => exact .refl _

namespace SortKey

theorem extract_local (agree : h.Agree lax P F ρ k) (inj : Function.Injective ρ)
    {keys : List SortKey}
    (shape : ∀ key ∈ keys, ctx.Reads h P F ρ key.root key.steps ∧
      Step.AllOf (Value.Inside P ρ) (ctx.Reads h P F ρ) key.steps)
    {item item' : Value} (here : item.Mirror P ρ item') {done done' : List Value}
    (values : Value.MirrorAll P ρ done done') :
    Act.Local lax h k ρ (Value.MirrorAll P ρ) (extract call ctx item done keys)
      (extract call' ctx item' done' keys) := by
  induction keys generalizing done done' with
  | nil =>
    rw [extract, extract]
    exact Act.Related.ret values
  | cons key keys ih =>
    have path : (Code.path key.root key.steps).All (Value.Inside P ρ) (ctx.Reads h P F ρ) := by
      rw [Code.All]
      exact shape key List.mem_cons_self
    rw [extract, extract]
    exact ((Code.evaluate_local agree inj _ path here).holding done done').bind fun v v' value =>
      ih (fun key member => shape key (List.mem_cons_of_mem _ member)) (values.append value)

theorem extractAll_local (agree : h.Agree lax P F ρ k) (inj : Function.Injective ρ)
    {keys : List SortKey}
    (shape : ∀ key ∈ keys, ctx.Reads h P F ρ key.root key.steps ∧
      Step.AllOf (Value.Inside P ρ) (ctx.Reads h P F ρ) key.steps)
    {items items' : List Value} (all : Value.MirrorAll P ρ items items')
    {done done' : List (List Value × Value)} (rows : Value.MirrorRows P ρ done done') :
    Act.Local lax h k ρ (Value.MirrorRows P ρ) (extractAll call ctx keys done items)
      (extractAll call' ctx keys done' items') := by
  induction items generalizing items' done done' with
  | nil =>
    rw [all.1, List.map_nil, extractAll, extractAll]
    exact Act.Related.ret rows
  | cons item items ih =>
    obtain ⟨item', rest', rfl, first, rest⟩ := all.uncons
    rw [extractAll, extractAll]
    refine ((extract_local agree inj shape first .nil).holding _ _).bind fun xs ys values =>
      ih rest ⟨?_, fun row member => ?_⟩
    · rw [List.map_append, rows.1, List.map_singleton, values.1, first.1]
    · rcases List.mem_append.mp member with member | member
      · exact rows.2 row member
      · rw [List.mem_singleton.mp member]
        exact ⟨values.2, first.2⟩

theorem sort_local (agree : h.Agree lax P F ρ k) (inj : Function.Injective ρ) {keys : List SortKey}
    (shape : ∀ key ∈ keys, ctx.Reads h P F ρ key.root key.steps ∧
      Step.AllOf (Value.Inside P ρ) (ctx.Reads h P F ρ) key.steps)
    {items items' : List Value} (all : Value.MirrorAll P ρ items items') :
    Act.Local lax h k ρ (Value.MirrorAll P ρ) (sort call ctx keys items)
      (sort call' ctx keys items') := by
  have length : items'.length = items.length := by rw [all.1, List.length_map]
  unfold sort
  rw [length]
  split
  · exact Act.Related.ret all
  · refine ((extractAll_local agree inj shape all ⟨rfl, by simp⟩).holding items items').bind
      fun rows rows' same => ?_
    refine Act.Related.bind (V := Value.MirrorRows P ρ) (Act.Local.ask agree ?_)
      fun sorted sorted' ordered => Act.Related.ret ⟨?_, fun v member => ?_⟩
    · intro g g' _ agree
      rw [same.1]
      have sorted := mergeSortBy_responses
        (fun a b => compareRows g' (keys.map (·.ascending)) a.1 b.1)
        (fun row : List Value × Value => (row.1.map (Value.retag ρ), row.2.retag ρ))
        fun a ha b hb => compareRows_agree agree inj (same.2 a ha).1 (same.2 b hb).1
      refine sorted.mono fun xs ys sorted => ?_
      exact ⟨sorted.1, fun row member => same.2 row (sorted.2 row member)⟩
    · simp [ordered.1]
    · obtain ⟨row, given, rfl⟩ := List.mem_map.mp member
      exact (ordered.2 row given).2

end SortKey

/-- A query whose reads are covered gives the same rows in heaps that agree, but for the tags of
the containers that it makes. -/
theorem Definition.execute_local (agree : h.Agree lax P F ρ k) (inj : Function.Injective ρ)
    {d : Definition} (shape : d.All (Value.Inside P ρ) (ctx.Reads h P F ρ)) {items : List Value}
    (inside : ∀ v ∈ items, v.Inside P ρ) :
    Act.Local lax h k ρ (Value.MirrorAll P ρ) (d.execute call ctx items)
      (d.execute call' ctx items) := by
  have all : Value.MirrorAll P ρ items items :=
    ⟨(Heap.Agree.map_retag inside).symm, fun v member => (inside v member).places⟩
  have sorted := shape.sort
  unfold execute
  split
  · next keys _ sort _ _ =>
    refine (filterItems_local agree inj shape all).bind fun kept kept' rows => ?_
    refine (SortKey.sort_local agree inj (sorted keys (by simp [sort])) rows).bind
      fun sorted sorted' rows => ?_
    exact projectItems_local agree inj shape rows .nil
  · next keys sort _ =>
    refine (filterProject_local agree inj shape all .nil).bind fun rows rows' same => ?_
    exact SortKey.sort_local agree inj (sorted keys (by simp [sort])) same
  · exact filterProject_local agree inj shape all .nil

end

end ReactiveQuery
