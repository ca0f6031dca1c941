import ReactiveQuery.Proofs.Live.Query
import ReactiveQuery.Proofs.Lifetime

/-! Fresh results.  A result is fresh when the query gives the same rows now, and it stays fresh
while nothing changes in the places that the query can come to. -/

namespace ReactiveQuery

/-- On some places, and there on the fields to be read, two heaps are the same; what is found there
in the first leads to no other place. -/
structure Heap.Same (P : Nat → Prop) (F : Nat → String → Prop) (h k : Heap) : Prop where
  size : h.cells.size ≤ k.cells.size
  tags : h.nextTag ≤ k.nextTag
  items : ∀ r : Ref, P r.loc → k.items r = h.items r
  names : ∀ (r : Ref) key, P r.loc →
    FieldMap.contains key (k.fields r) = FieldMap.contains key (h.fields r)
  field : ∀ (r : Ref) key, P r.loc → F r.loc key →
    FieldMap.get? key (k.fields r) = FieldMap.get? key (h.fields r)
  itemsInside : ∀ r : Ref, P r.loc → ∀ v ∈ h.items r, ∀ l ∈ v.places, P l
  fieldInside : ∀ (r : Ref) key v, P r.loc → F r.loc key →
    FieldMap.get? key (h.fields r) = some v → ∀ l ∈ v.places, P l

section
variable {P : Nat → Prop} {F : Nat → String → Prop} {h k : Heap} {containers : List Value}
  {size : Nat}

theorem Heap.Fits.inside (fits : h.Fits containers size) {v : Value} {m : Nat}
    (here : v.Fits containers size) (places : ∀ l ∈ v.places, P l) :
    v.Inside P (shiftTags h.nextTag m) :=
  ⟨places, Value.retag_eq fun t used =>
    shiftTags_of_lt (by rw [← fits.tags]; exact here.tags_lt t used)⟩

theorem Heap.Same.agree (same : h.Same P F k) (fits : h.Fits containers size) :
    h.Agree True P F (shiftTags h.nextTag k.nextTag) k where
  size := .inr ⟨trivial, same.size⟩
  items := same.items
  names := same.names
  field := same.field
  itemsInside r here v member :=
    fits.inside (fits.items r v member) (same.itemsInside r here v member)
  fieldInside r key v here followed found :=
    fits.inside (fits.fields r _ (FieldMap.mem_of_get? found))
      (same.fieldInside r key v here followed found)

end

namespace LiveQuery

/-- The rows of the query, computed now. -/
def rows (q : LiveQuery) (call : Caller) (h : Heap) : Act (List Value) :=
  q.definition.execute call q.context (h.items q.source)

/-- The result holds what the query gives in this heap, whatever else there is. -/
def Fresh (q : LiveQuery) (h : Heap) : Prop :=
  ∀ call w, w.heap = h → w.patterns.Reachable →
    ∃ rows v, (q.rows call h).Gives w rows v ∧ Value.Alike rows (h.items q.result)

/-- The query starts within the places: its source and its arguments are there. -/
structure Starts (q : LiveQuery) (P : Nat → Prop) : Prop where
  uses : ∀ l, q.Uses l → P l
  params : ∀ v ∈ q.params, (∀ r, v ≠ .collection r) → ∀ l ∈ v.places, P l

section
variable {q : LiveQuery} {P : Nat → Prop} {F : Nat → String → Prop} {w v : World}
  {containers : List Value} {size : Nat}

theorem Starts.param (starts : q.Starts P) {cs : List Component} {i : Nat}
    (member : ⟨.arg i, cs⟩ ∈ q.definition.paths) : ∀ l ∈ (q.context.param i).places, P l := by
  unfold Context.param
  change ∀ l ∈ ((q.params[i]?).getD .null).places, P l
  cases given : q.params[i]? with
  | none => simp [Value.places]
  | some v =>
    by_cases collection : ∃ r, v = .collection r
    · obtain ⟨r, rfl⟩ := collection
      have used : P r.loc := starts.uses _ (.inr ⟨_, member, i, r, rfl, given, rfl⟩)
      simpa [Value.places] using used
    · exact starts.params v (List.mem_of_getElem? given) fun r same => collection ⟨r, same⟩

/-- Where nothing differs in the places that the query comes to, it gives the same rows, and these
lead only to such places. -/
theorem rows_same (formed : q.Formed containers size) (fits : w.heap.Fits containers size)
    (read : w.patterns.Reachable) (read' : v.patterns.Reachable) (same : w.heap.Same P F v.heap)
    (starts : q.Starts P) (reads : q.Reads w.heap F) {call : Caller} {rows : List Value} {u : World}
    (gives : (q.rows call w.heap).Gives w rows u) (call' : Caller) :
    ∃ rows' u', (q.rows call' v.heap).Gives v rows' u' ∧ Value.Alike rows' rows ∧
      ∀ row ∈ rows, ∀ l ∈ row.places, P l := by
  have agree := same.agree fits
  have inj := shiftTags_injective same.tags
  have source : P q.source.loc := starts.uses _ (.inl rfl)
  have shape : q.definition.All (Value.Inside P (shiftTags w.heap.nextTag v.heap.nextTag))
      (q.context.Reads w.heap P F (shiftTags w.heap.nextTag v.heap.nextTag)) := by
    refine formed.definition.code.mono (fun x plain => ?_) fun root steps recorded => ?_
    · exact fits.inside plain.2 (by simp [plain.1])
    · have ⟨cs, member, _⟩ := recorded
      refine ⟨fun i here => ?_, reads root steps recorded⟩
      subst here
      refine fits.inside ?_ (starts.param member)
      unfold Context.param
      cases given : q.context.params[i]? with
      | none => trivial
      | some x => exact formed.params x (List.mem_of_getElem? given)
  have mirrors : World.Mirrors w.heap v.heap (shiftTags w.heap.nextTag v.heap.nextTag) w v :=
    ⟨rfl, rfl, shiftTags_add _ _, read, read'⟩
  have outcome : Act.Compare True (World.Mirrors w.heap v.heap _) (Value.MirrorAll P _)
      ((q.definition.execute call q.context (w.heap.items q.source)).on w)
      ((q.definition.execute call' q.context (w.heap.items q.source)).on v) :=
    Definition.execute_local agree inj shape
      (fun x member => agree.itemsInside q.source source x member) w v mirrors
  unfold LiveQuery.rows at gives ⊢
  rw [gives.on] at outcome
  rw [same.items q.source source]
  generalize done : Act.on _ v = p at outcome
  cases outcome with
  | ok value _ => exact ⟨_, _, done, value.1 ▸ Value.Alike.retag _ _, value.2⟩

/-- A result stays fresh where nothing differs in the places that the query comes to. -/
theorem Fresh.frame {h k : Heap} (fresh : q.Fresh h) (formed : q.Formed containers size)
    (fits : h.Fits containers size) (same : h.Same P F k) (starts : q.Starts P)
    (reads : q.Reads h F) (result : k.items q.result = h.items q.result) : q.Fresh k := by
  rintro call v rfl read
  obtain ⟨rows, u, gives, alike⟩ := fresh call { v with heap := h } rfl read
  obtain ⟨rows', u', gives', alike', -⟩ :=
    rows_same (w := { v with heap := h }) formed fits read read same starts reads gives call
  exact ⟨rows', u', gives', by rw [result]; exact alike'.trans alike⟩

end

/-- A query rests on itself and on what those queries rest on whose results it uses. -/
inductive Rests (qs : List LiveQuery) : LiveQuery → LiveQuery → Prop
  | self (q : LiveQuery) : Rests qs q q
  | on {q r s : LiveQuery} (member : r ∈ qs) (uses : q.Uses r.result.loc) (rest : Rests qs r s) :
    Rests qs q s

namespace Rests

variable {qs : List LiveQuery} {q r s : LiveQuery}

theorem trans (first : Rests qs q r) (second : Rests qs r s) : Rests qs q s := by
  induction first with
  | self => exact second
  | on member uses _ ih => exact .on member uses (ih second)

theorem step (first : Rests qs q r) (member : s ∈ qs) (uses : r.Uses s.result.loc) :
    Rests qs q s := first.trans (.on member uses (.self s))

theorem mem (rests : Rests qs q r) (member : q ∈ qs) : r ∈ qs := by
  induction rests with
  | self => exact member
  | on member' _ _ ih => exact ih member'

/-- Resting on another query begins and ends with a use of a result. -/
theorem last (rests : Rests qs q s) :
    q = s ∨ ∃ r, Rests qs q r ∧ r.Uses s.result.loc ∧ s ∈ qs := by
  induction rests with
  | self => exact .inl rfl
  | @on q r s member uses rest ih =>
    rcases ih with rfl | ⟨t, before, used, here⟩
    · exact .inr ⟨q, .self q, uses, member⟩
    · exact .inr ⟨t, .on member uses before, used, here⟩

end Rests

/-- The places that a query can come to: among the places that may change, those that it or a
query that it rests on uses. -/
def Reaches (M : Nat → Prop) (qs : List LiveQuery) (q : LiveQuery) (l : Nat) : Prop :=
  M l → ∃ r, Rests qs q r ∧ r.Uses l

theorem Reaches.rests {M : Nat → Prop} {qs : List LiveQuery} {q r : LiveQuery} {l : Nat}
    (reaches : r.Reaches M qs l) (rests : Rests qs q r) : q.Reaches M qs l := by
  intro may
  obtain ⟨s, rests', uses⟩ := reaches may
  exact ⟨s, rests.trans rests', uses⟩

end LiveQuery

end ReactiveQuery
