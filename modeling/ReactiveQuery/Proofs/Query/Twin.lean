import ReactiveQuery.Proofs.Activity
import ReactiveQuery.Proofs.Query.Direct
import ReactiveQuery.Proofs.Regex.Reuse
import ReactiveQuery.Proofs.Value.Plain

/-! Worlds that differ in the patterns read so far.  Computing through the cache of patterns and
reading each pattern afresh come to the same in them. -/

namespace ReactiveQuery

namespace Compile

variable {α : Type}

theorem run_ofOption (o : Option α) (c : Regex.Cache) :
    (ofOption o).run.run c = ((o.map .ok).getD (.error .endless), c) := by cases o <;> rfl

theorem ok_ofOption {o : Option α} {c d : Regex.Cache} {a : α}
    (h : (ofOption o).run.run c = (.ok a, d)) : o = some a ∧ d = c := by
  rw [run_ofOption] at h
  cases o <;> cases h
  exact ⟨rfl, rfl⟩

theorem run_adapt (f : Error → Fault) (x : ExceptT Error (StateM Regex.Cache) α)
    (c : Regex.Cache) :
    (x.adapt f : Compile α).run.run c = ((x.run.run c).1.mapError f, (x.run.run c).2) := by
  change ((x.run.run c).1.mapError f, (x.run.run c).2) = _
  rfl

end Compile

/-- Through any cache that reading patterns can lead to, a match is what its pattern means. -/
theorem run_regexMatch (h : Heap) (pattern subject : Value) {c : Regex.Cache}
    (reachable : c.Reachable) :
    ((regexMatch h pattern subject).run.run c).1 = patternMeaning h pattern subject ∧
      ((regexMatch h pattern subject).run.run c).2.Reachable := by
  cases pattern with
  | text p =>
    simp only [regexMatch, patternMeaning, run_bind, Compile.run_ofOption]
    cases h.text subject with
    | none => exact ⟨rfl, reachable⟩
    | some s =>
      have outcome := reachable.isMatch p s
      have after := reachable.after_isMatch p s
      simp only [Option.map_some, Option.getD_some, Compile.run_adapt]
      rcases run : (Regex.Cache.isMatch p s).run.run c with ⟨r, c'⟩
      rw [run] at outcome after
      simp only at outcome
      subst outcome
      cases Regex.Program.ofText? p <;> exact ⟨rfl, after⟩
  | _ => exact ⟨rfl, reachable⟩

theorem BinaryOp.run_compute (h : Heap) (op : BinaryOp) (l r : Value) {c : Regex.Cache}
    (reachable : c.Reachable) :
    ((op.compute h l r).run.run c).1 = op.meaning h l r ∧
      ((op.compute h l r).run.run c).2.Reachable := by
  cases op
  case regex => exact run_regexMatch h l r reachable
  all_goals
    simp only [compute, meaning, Compile.run_ofOption]
    exact ⟨trivial, reachable⟩

/-- Worlds that differ in nothing but the patterns that were read so far. -/
structure World.Twins (u v : World) : Prop where
  left : u.patterns.Reachable
  right : v.patterns.Reachable
  same : { u with patterns := v.patterns } = v

namespace World.Twins

variable {u v : World}

theorem refl (h : u.patterns.Reachable) : Twins u u := ⟨h, h, rfl⟩

theorem heap (h : Twins u v) : u.heap = v.heap := by rw [← h.same]

theorem held (h : Twins u v) : u.held = v.held := by rw [← h.same]

theorem log (h : Twins u v) : u.log = v.log := by rw [← h.same]

theorem symm (h : Twins u v) : Twins v u := ⟨h.right, h.left, by rw [← h.same]⟩

theorem trans {w : World} (h : Twins u v) (h' : Twins v w) : Twins u w :=
  ⟨h.left, h'.right, by rw [← h'.same, ← h.same]⟩

/-- A change that does not touch the patterns keeps twins apart in them alone. -/
theorem change (h : Twins u v) (f : World → World)
    (keeps : ∀ w : World, (f w).patterns = w.patterns)
    (blind : ∀ (w : World) p, f { w with patterns := p } = { f w with patterns := p }) :
    Twins (f u) (f v) where
  left := by rw [keeps]; exact h.left
  right := by rw [keeps]; exact h.right
  same := by rw [keeps, ← blind, h.same]

theorem reread (h : Twins u v) {c d : Regex.Cache} (hc : c.Reachable) (hd : d.Reachable) :
    Twins { u with patterns := c } { v with patterns := d } where
  left := hc
  right := hd
  same := by rw [← h.same]

end World.Twins

namespace Act

variable {α β : Type} {V : α → β → Prop}

@[simp] theorem on_judge (question : Heap → Except Fault α) (w : World) :
    (judge question).on w = (question w.heap, w) := by
  rw [judge, on_bind, on_get]
  simp only
  cases question w.heap <;> rfl

/-- Two activities do the same in twin worlds. -/
abbrev Twin (V : α → β → Prop) := Related False World.Twins V

namespace Twin

theorem ask (question : Heap → Option α) : Twin Eq (Act.ask question) (Act.ask question) := by
  intro u v twins
  rw [on_ask, on_ask, ← twins.heap]
  cases question u.heap with
  | none => exact .error twins
  | some a => exact .ok rfl twins

theorem holding {x : Act α} {y : Act β} (h : Twin V x y) (held : List Value) :
    Twin V (Act.holding held x) (Act.holding held y) := by
  refine Related.holding (fun u v twins => ?_) (fun u v u' v' before after => ?_) h
  · exact twins.change (fun w => { w with held := held ++ w.held }) (fun _ => rfl) fun _ _ => rfl
  · rw [← before.held]
    exact after.change (fun w => { w with held := u.held }) (fun _ => rfl) fun _ _ => rfl

theorem freshArray (items : List Value) :
    Twin Eq (Act.freshArray items) (Act.freshArray items) := by
  intro u v twins
  have after := twins.change (fun w => { w with heap := w.heap.freshTag.2 }) (fun _ => rfl)
    fun _ _ => rfl
  exact .ok (by rw [twins.heap]) after

theorem freshObject (fields : FieldMap Value) :
    Twin Eq (Act.freshObject fields) (Act.freshObject fields) := by
  intro u v twins
  have after := twins.change (fun w => { w with heap := w.heap.freshTag.2 }) (fun _ => rfl)
    fun _ _ => rfl
  exact .ok (by rw [twins.heap]) after

/-- Computing through the cache and reading the pattern afresh come to the same. -/
theorem compute (op : BinaryOp) (l r : Value) :
    Twin Eq (Act.compile fun scope => op.compute scope.heap l r)
      (Act.judge (op.meaning · l r)) := by
  intro u v twins
  have computed := op.run_compute u.heap l r twins.left
  rw [on_compile, on_judge, ← twins.heap]
  simp only
  rw [computed.1]
  have after := twins.reread computed.2 twins.right
  cases op.meaning u.heap l r with
  | ok a => exact .ok rfl after
  | error e => exact .error after

end Twin

end Act

/-- Calls that take no notice of which patterns were read before. -/
def Caller.Oblivious (call : Caller) : Prop :=
  ∀ function ctx args, Act.Twin Eq (call function ctx args) (call function ctx args)

/-- Two operands and what an operator does with them.  Both `and` and `or` leave it at the operand
that decides. -/
def Act.operate (op : BinaryOp) (x y : Act Value) (finish : Value → Value → Act Value) :
    Act Value :=
  match op with
  | .and => do
    let l ← x
    if l.truthy then holding [l] y else return l
  | .or => do
    let l ← x
    if l.truthy then return l else holding [l] y
  | _ => do
    let l ← x
    let r ← holding [l] y
    finish l r

theorem Code.evaluate_binary (call : Caller) (ctx : Context) (record : Value) (op : BinaryOp)
    (a b : Code) : Code.evaluate call ctx record (.binary op a b) =
      Act.operate op (a.evaluate call ctx record) (b.evaluate call ctx record) fun l r =>
        Act.compile fun scope => op.compute scope.heap l r := by
  cases op <;> rw [Code.evaluate, Act.operate] <;> nofun

theorem Node.interpret_binary (es : Extensions) (call : Caller) (ctx : Context) (record : Value)
    (op : BinaryOp) (a b : Node) : Node.interpret es call ctx record (.binary op a b) =
      Act.operate op (a.interpret es call ctx record) (b.interpret es call ctx record) fun l r =>
        Act.judge (op.meaning · l r) := by
  cases op <;> rw [Node.interpret, Act.operate] <;> nofun

/-- Related operands and related endings make related operators, when related values decide alike
and may be held. -/
theorem Act.Related.operate {lax : Prop} {R : World → World → Prop} {V : Value → Value → Prop}
    {op : BinaryOp} {x y x' y' : Act Value} {finish finish' : Value → Value → Act Value}
    (deciding : ∀ l l', V l l' → l.truthy = l'.truthy)
    (held : ∀ l l', V l l' → Related lax R V (Act.holding [l] y) (Act.holding [l'] y'))
    (left : Related lax R V x x')
    (last : ∀ l l' r r', V l l' → V r r' → Related lax R V (finish l r) (finish' l' r')) :
    Related lax R V (Act.operate op x y finish) (Act.operate op x' y' finish') := by
  cases op
  case and =>
    refine left.bind fun l l' same => ?_
    rw [deciding l l' same]
    split
    · exact held l l' same
    · exact Related.ret same
  case or =>
    refine left.bind fun l l' same => ?_
    rw [deciding l l' same]
    split
    · exact Related.ret same
    · exact held l l' same
  all_goals
    exact left.bind fun l l' same => (held l l' same).bind fun r r' same' =>
      last l l' r r' same same'

/-- What follows a common result needs to be related for each result only. -/
theorem Act.Related.bind_same {α β γ : Type} {lax : Prop} {R : World → World → Prop}
    {W : β → γ → Prop} {x y : Act α} {f : α → Act β} {g : α → Act γ}
    (first : Related lax R Eq x y) (rest : ∀ a, Related lax R W (f a) (g a)) :
    Related lax R W (x >>= f) (y >>= g) :=
  first.bind fun a _ same => same ▸ rest a

theorem Act.Related.operate_same {lax : Prop} {R : World → World → Prop} {op : BinaryOp}
    {x y x' y' : Act Value} {finish finish' : Value → Value → Act Value}
    (held : ∀ l, Related lax R Eq (Act.holding [l] y) (Act.holding [l] y'))
    (left : Related lax R Eq x x') (last : ∀ l r, Related lax R Eq (finish l r) (finish' l r)) :
    Related lax R Eq (Act.operate op x y finish) (Act.operate op x' y' finish') :=
  .operate (fun _ _ same => by rw [same]) (fun l _ same => same ▸ held l) left
    fun l _ r _ same same' => same ▸ same' ▸ last l r

theorem Act.Twin.operate {op : BinaryOp} {x y x' y' : Act Value}
    {finish finish' : Value → Value → Act Value} (left : Act.Twin Eq x x')
    (right : Act.Twin Eq y y') (last : ∀ l r, Act.Twin Eq (finish l r) (finish' l r)) :
    Act.Twin Eq (Act.operate op x y finish) (Act.operate op x' y' finish') :=
  .operate_same (fun l => right.holding [l]) left last

theorem BinaryOp.meaning_of_ne {op : BinaryOp} (regex : op ≠ .regex) (h : Heap) (l r : Value) :
    op.meaning h l r = ((op.apply h l r).map .ok).getD (.error .endless) := by
  cases op <;> first | rfl | exact absurd rfl regex

theorem BinaryOp.meaning_congr (op : BinaryOp) {h h' : Heap} {l r : Value}
    (left : h.text l = h'.text l) (right : h.text r = h'.text r)
    (inside : h.contains r l = h'.contains r l) : op.meaning h l r = op.meaning h' l r := by
  by_cases regex : op = .regex
  · subst regex
    cases l <;> simp [meaning, patternMeaning, right]
  · rw [meaning_of_ne regex, meaning_of_ne regex, op.apply_congr left right inside]

theorem primitive_of_patternMeaning {h : Heap} {l r v : Value}
    (given : patternMeaning h l r = .ok v) : ∃ p : Primitive, v = p.toValue := by
  unfold patternMeaning at given
  split at given
  · split at given <;> cases given
    exact ⟨.bool _, rfl⟩
  · cases given
    exact ⟨.bool _, rfl⟩

/-- What a binary expression means is one of its operands, or a primitive. -/
theorem BinaryOp.of_meaning {op : BinaryOp} {h : Heap} {l r v : Value}
    (given : op.meaning h l r = .ok v) : v = l ∨ v = r ∨ ∃ p : Primitive, v = p.toValue := by
  by_cases regex : op = .regex
  · subst regex
    exact .inr (.inr (primitive_of_patternMeaning given))
  · rw [meaning_of_ne regex] at given
    cases applied : op.apply h l r <;> rw [applied] at given <;> cases given
    exact of_apply applied

theorem BinaryOp.places_meaning {op : BinaryOp} {h : Heap} {l r v : Value}
    (given : op.meaning h l r = .ok v) {place : Nat} (held : place ∈ v.places) :
    place ∈ l.places ∨ place ∈ r.places := by
  rcases of_meaning given with rfl | rfl | ⟨p, rfl⟩
  · exact .inl held
  · exact .inr held
  · rw [p.places_toValue] at held
    cases held

end ReactiveQuery
