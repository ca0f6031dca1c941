import ReactiveQuery.Proofs.Change.Reckoning

/-! The net effect of writes.  Of all that writes leave waiting, each field has at most one event,
from a value like the one it held first to the one it holds last. -/

namespace ReactiveQuery

namespace Double

theorem equals_iff {x y : Double} :
    x.equals y = true ↔ ∃ i, x.rank = some i ∧ y.rank = some i := by
  unfold equals
  cases x.rank with
  | none => simp
  | some i => cases y.rank <;> simp [@eq_comm _ _ i]

theorem equals_trans {x y z : Double} (first : x.equals y = true) (second : y.equals z = true) :
    x.equals z = true := by
  obtain ⟨i, left, middle⟩ := equals_iff.mp first
  obtain ⟨j, middle', right⟩ := equals_iff.mp second
  obtain rfl := Option.some.inj (middle.symm.trans middle')
  exact equals_iff.mpr ⟨i, left, right⟩

end Double

namespace Value

variable {a b o v : Value}

def isNaN : Value → Bool
  | .number x => x.isNaN
  | _ => false

/-- Only NaN differs from itself. -/
theorem strictEq_self (a : Value) : a.strictEq a = !a.isNaN := by
  cases a with
  | number x => cases x <;> simp [strictEq, isNaN, Double.equals, Double.isNaN, Double.rank]
  | _ => simp [strictEq, isNaN, sameContainer]

theorem strictEq_trans (first : o.strictEq a = true) (second : a.strictEq b = true) :
    o.strictEq b = true := by
  cases o <;> cases a <;> cases b <;> simp_all [strictEq, sameContainer]
  exact Double.equals_trans first second

theorem not_isNaN_of_strictEq (equal : a.strictEq b = true) : a.isNaN = false := by
  have self := strictEq_trans equal (by rwa [strictEq_symm])
  simpa [strictEq_self] using self

/-- Strictly equal, or both NaN. -/
def Like (o a : Value) : Prop := o.strictEq a = true ∨ o.isNaN = true ∧ a.isNaN = true

theorem Like.refl (a : Value) : Like a a := by
  cases nan : a.isNaN with
  | true => exact .inr ⟨nan, nan⟩
  | false => exact .inl (by rw [strictEq_self, nan]; rfl)

theorem Like.isNaN_eq (like : Like o a) : o.isNaN = a.isNaN := by
  rcases like with equal | ⟨left, right⟩
  · rw [not_isNaN_of_strictEq equal, not_isNaN_of_strictEq (by rwa [strictEq_symm])]
  · rw [left, right]

/-- What is strictly equal to one of two like values is so to the other. -/
theorem Like.strictEq_iff (like : Like o a) : o.strictEq v = true ↔ a.strictEq v = true := by
  rcases like with equal | ⟨left, right⟩
  · exact ⟨strictEq_trans (by rwa [strictEq_symm]), strictEq_trans equal⟩
  · constructor <;> intro equal <;> simp_all [not_isNaN_of_strictEq equal]

end Value

/-- A field of a record. -/
abbrev Field := Ref × String

/-- A write of a field. -/
structure Write where
  field : Field
  value : Value

/-- What a field holds after writes.  To write a value strictly equal to the present one does
nothing. -/
def Field.after (f : Field) (a : Value) (ws : List Write) : Value :=
  (ws.filter (·.field = f)).foldl (fun x y => if x.strictEq y.value then x else y.value) a

/-- Is this the write by which a field last leaves the values strictly equal to its first one, or,
if that is NaN, the first write to the field? -/
def Field.LeavesAt (f : Field) (a : Value) (ws : List Write) (n : Nat) : Prop :=
  if a.isNaN then
    (∃ y, ws[n]? = some y ∧ y.field = f) ∧ ∀ m < n, ∀ y, ws[m]? = some y → y.field ≠ f
  else n < ws.length ∧ (f.after a (ws.take n)).strictEq a = true ∧
    ∀ m, n < m → m ≤ ws.length → (f.after a (ws.take m)).strictEq a = false

/-- A field on its way: what it holds, and the write by which it last left the values strictly equal
to its first one, with the value that it left. -/
structure Course where
  value : Value
  left : Option (Nat × Value)

namespace Course

/-- Write number `n` to a field that first held `a`. -/
def write (a : Value) (n : Nat) (v : Value) (c : Course) : Course :=
  if c.value.strictEq v then c
  else ⟨v, if v.strictEq a then none else c.left.or (some (n, c.value))⟩

end Course

namespace Field

variable (f : Field) (a : Value) (ws : List Write)

/-- The course of a field through writes. -/
def course : Course :=
  ws.zipIdx.foldl (fun c (y, n) => if y.field = f then c.write a n y.value else c) ⟨a, none⟩

variable {f a ws} {y : Write}

theorem course_of_ne (other : y.field ≠ f) : f.course a (ws ++ [y]) = f.course a ws := by
  simp [course, List.zipIdx_append, other]

theorem course_of_eq (same : y.field = f) :
    f.course a (ws ++ [y]) = (f.course a ws).write a ws.length y.value := by
  simp [course, List.zipIdx_append, same]

theorem after_of_ne (other : y.field ≠ f) : f.after a (ws ++ [y]) = f.after a ws := by
  simp [after, other]

theorem after_of_eq (same : y.field = f) : f.after a (ws ++ [y]) =
    if (f.after a ws).strictEq y.value then f.after a ws else y.value := by
  have last : [y].filter (·.field = f) = [y] := by simp [same]
  rw [after, List.filter_append, last, List.foldl_append]
  rfl

/-- The course ends with what the field holds. -/
theorem course_value : (f.course a ws).value = f.after a ws := by
  induction ws using List.reverseRecOn with
  | nil => rfl
  | append_singleton ws y ih =>
    by_cases same : y.field = f
    · rw [course_of_eq same, after_of_eq same, Course.write, ← ih]
      split <;> rfl
    · rw [course_of_ne same, after_of_ne same, ih]

theorem LeavesAt.lt {n : Nat} (leaves : f.LeavesAt a ws n) : n < ws.length := by
  unfold LeavesAt at leaves
  split at leaves
  · obtain ⟨⟨y, here, -⟩, -⟩ := leaves
    exact (List.getElem?_eq_some_iff.mp here).1
  · exact leaves.1

/-- A field that stays away has left where it had before. -/
theorem LeavesAt.later {n : Nat} (leaves : f.LeavesAt a ws n)
    (away : (f.after a (ws ++ [y])).strictEq a = false) : f.LeavesAt a (ws ++ [y]) n := by
  have lt := leaves.lt
  unfold LeavesAt at leaves ⊢
  split at leaves
  · next nan =>
    rw [if_pos nan]
    obtain ⟨⟨x, here, same⟩, first⟩ := leaves
    refine ⟨⟨x, by rwa [List.getElem?_append_left lt], same⟩, fun m before z there => ?_⟩
    rw [List.getElem?_append_left (Nat.lt_trans before lt)] at there
    exact first m before z there
  · next number =>
    rw [if_neg number]
    obtain ⟨-, back, beyond⟩ := leaves
    refine ⟨by simp; omega, by rwa [List.take_append_of_le_length (Nat.le_of_lt lt)],
      fun m after bound => ?_⟩
    rcases Nat.lt_or_ge ws.length m with last | inside
    · rwa [List.take_of_length_le (by simp; omega)]
    · rw [List.take_append_of_le_length inside]
      exact beyond m after inside

/-- A write that takes a field away from its first value. -/
theorem LeavesAt.here (same : y.field = f) (like : (f.after a ws).Like a)
    (fresh : a.isNaN = true → ∀ x ∈ ws, x.field ≠ f)
    (away : (f.after a (ws ++ [y])).strictEq a = false) :
    f.LeavesAt a (ws ++ [y]) ws.length := by
  unfold LeavesAt
  split
  · next nan =>
    refine ⟨⟨y, List.getElem?_concat_length, same⟩, fun m before z there => ?_⟩
    rw [List.getElem?_append_left before] at there
    exact fresh nan z (List.mem_of_getElem? there)
  · next number =>
    refine ⟨by simp, ?_, fun m after bound => ?_⟩
    · rw [List.take_left]
      exact like.resolve_right fun ⟨_, nan⟩ => number nan
    · rwa [List.take_of_length_le (by simp; omega)]

/-- A field leaves once. -/
theorem LeavesAt.unique {m n : Nat} (first : f.LeavesAt a ws m) (second : f.LeavesAt a ws n) :
    m = n := by
  have bounds := And.intro first.lt second.lt
  unfold LeavesAt at first second
  split at first
  · next nan =>
    rw [if_pos nan] at second
    obtain ⟨⟨y, here, same⟩, none⟩ := first
    obtain ⟨⟨z, here', same'⟩, none'⟩ := second
    have := mt (none n · z here') (not_not.mpr same')
    have := mt (none' m · y here) (not_not.mpr same)
    omega
  · next number =>
    rw [if_neg number] at second
    obtain ⟨-, back, beyond⟩ := first
    obtain ⟨-, back', beyond'⟩ := second
    have := mt (beyond n · (Nat.le_of_lt bounds.2)) (by simp [back'])
    have := mt (beyond' m · (Nat.le_of_lt bounds.1)) (by simp [back])
    omega

/-- What the course of a field tells about it. -/
structure Tells (f : Field) (a : Value) (ws : List Write) (c : Course) : Prop where
  stays : c.left = none → c.value.Like a ∧ (a.isNaN = true → ∀ y ∈ ws, y.field ≠ f)
  leaves : ∀ n o, c.left = some (n, o) →
    o.Like a ∧ c.value.strictEq a = false ∧ f.LeavesAt a ws n

namespace Tells

variable {c : Course}

/-- A write that the course does not show.  A field that first held NaN is left by its first write,
so either this is for another field or it had left before. -/
theorem pass (tells : f.Tells a ws c) (value : c.value = f.after a (ws ++ [y]))
    (fresh : a.isNaN = true → c.left = none → y.field ≠ f) : f.Tells a (ws ++ [y]) c where
  stays none := by
    refine ⟨(tells.stays none).1, fun nan => ?_⟩
    rw [List.forall_mem_append, List.forall_mem_singleton]
    exact ⟨(tells.stays none).2 nan, fresh nan none⟩
  leaves n o left := by
    obtain ⟨like, away, leaves⟩ := tells.leaves n o left
    exact ⟨like, away, leaves.later (by rwa [← value])⟩

/-- A write of another value. -/
theorem move (tells : f.Tells a ws c) (same : y.field = f) (value : c.value = f.after a ws)
    (now : y.value = f.after a (ws ++ [y])) :
    f.Tells a (ws ++ [y])
      ⟨y.value, if y.value.strictEq a then none else c.left.or (some (ws.length, c.value))⟩ := by
  cases back : y.value.strictEq a with
  | true =>
    refine ⟨fun _ => ⟨.inl back, fun nan => ?_⟩, by simp⟩
    have number := Value.not_isNaN_of_strictEq (Value.strictEq_symm .. ▸ back)
    rw [nan] at number
    cases number
  | false =>
    have away : (f.after a (ws ++ [y])).strictEq a = false := by rw [← now, back]
    cases left : c.left with
    | none =>
      obtain ⟨like, fresh⟩ := tells.stays left
      refine ⟨by simp, fun n o same' => ?_⟩
      obtain ⟨rfl, rfl⟩ : ws.length = n ∧ c.value = o := by simpa using same'
      exact ⟨like, back, .here same (value ▸ like) fresh away⟩
    | some exit =>
      refine ⟨by simp, fun n o same' => ?_⟩
      obtain rfl : exit = (n, o) := by simpa using same'
      obtain ⟨like, -, leaves⟩ := tells.leaves n o left
      exact ⟨like, back, leaves.later away⟩

end Tells

theorem tells_course : f.Tells a ws (f.course a ws) := by
  induction ws using List.reverseRecOn with
  | nil => exact ⟨fun _ => ⟨.refl a, fun _ => nofun⟩, nofun⟩
  | append_singleton ws y ih =>
    have value : (f.course a (ws ++ [y])).value = f.after a (ws ++ [y]) := course_value
    by_cases same : y.field = f
    · rw [course_of_eq same] at value ⊢
      unfold Course.write at value ⊢
      split at value
      · next equal =>
        rw [if_pos equal]
        refine ih.pass value fun nan none => ?_
        rw [← (ih.stays none).1.isNaN_eq, Value.not_isNaN_of_strictEq equal] at nan
        cases nan
      · next differs =>
        rw [if_neg differs]
        exact ih.move same course_value value
    · rw [course_of_ne same] at value ⊢
      exact ih.pass value fun _ _ => same

/-- A field that nobody writes stays as it is. -/
theorem course_of_unwritten (unwritten : ∀ y ∈ ws, y.field ≠ f) : f.course a ws = ⟨a, none⟩ := by
  induction ws using List.reverseRecOn with
  | nil => rfl
  | append_singleton ws y ih =>
    rw [course_of_ne (unwritten y (by simp))]
    exact ih fun x member => unwritten x (List.mem_append_left _ member)

/-- A field has left when it was written and does not hold a value strictly equal to its first. -/
theorem left_ne_none_iff : (f.course a ws).left ≠ none ↔
    (∃ y ∈ ws, y.field = f) ∧ (f.after a ws).strictEq a = false := by
  have tells : f.Tells a ws (f.course a ws) := tells_course
  rw [← course_value]
  constructor
  · intro left
    obtain ⟨⟨n, o⟩, left⟩ := Option.ne_none_iff_exists'.mp left
    refine ⟨?_, (tells.leaves n o left).2.1⟩
    by_contra unwritten
    rw [course_of_unwritten fun y member same => unwritten ⟨y, member, same⟩] at left
    cases left
  · rintro ⟨⟨y, member, same⟩, differs⟩ stays
    obtain ⟨like, fresh⟩ := tells.stays stays
    rcases like with equal | ⟨-, nan⟩
    · rw [differs] at equal
      cases equal
    · exact fresh nan y member same

end Field

/-- The waiting events after one more has arrived. -/
theorem Reckoning.events_arrive (r : Reckoning) (e : Event) : (r.arrive e).events =
    match r.events.find? (·.pair == e.pair) with
    | none => r.events ++ [e]
    | some d =>
      if e.new.strictEq d.old then r.events.filter (·.pair != e.pair)
      else r.events.map fun d => if d.pair == e.pair then { d with new := e.new } else d := by
  have found : r.events.find? (·.pair == e.pair) = (r.entryOf e.pair).map (·.event) := by
    rw [events, List.find?_map]
    rfl
  rw [found, arrive]
  cases r.entryOf e.pair with
  | none => simp [events]
  | some x =>
    simp only [Option.map_some]
    split
    · simp [events, List.filter_map, Function.comp_def, Entry.pair]
    · simp only [events, List.map_map]
      refine List.map_congr_left fun y _ => ?_
      by_cases same : y.event.pair = e.pair <;> simp [join, Entry.pair, same]

/-- The pair on which a field reports. -/
def Field.pair (f : Field) : Nat × EventKey := (f.1.id, .field f.2)

/-- What a field reports: from the value that it left to the one that it holds. -/
def Field.report (f : Field) (a : Value) (ws : List Write) : Event :=
  ⟨f.1.id, .field f.2, (f.course a ws).value, ((f.course a ws).left.map (·.2)).getD .null⟩

@[simp] theorem Field.pair_report (f : Field) (a : Value) (ws : List Write) :
    (f.report a ws).pair = f.pair := rfl

/-- The fields in scope that are away from their first values, in the order in which they left. -/
structure Away (scope : Field → Prop) (first : Field → Value) (ws : List Write)
    (fields : List Field) : Prop where
  nodup : fields.Nodup
  mem : ∀ f, f ∈ fields ↔ scope f ∧ (f.course (first f) ws).left ≠ none
  ordered : fields.Pairwise fun f g => ∀ m n o p, (f.course (first f) ws).left = some (m, o) →
    (g.course (first g) ws).left = some (n, p) → m < n

namespace Away

variable {scope : Field → Prop} {first : Field → Value} {ws : List Write} {fields : List Field}
  {y : Write}

theorem nil (scope : Field → Prop) (first : Field → Value) : Away scope first [] [] :=
  ⟨.nil, fun f => by simp [Field.course], .nil⟩

/-- Writes that change nothing in scope. -/
theorem pass (away : Away scope first ws fields)
    (passes : scope y.field → ((y.field.course (first y.field) ws).value.strictEq y.value) = true) :
    Away scope first (ws ++ [y]) fields ∧
      fields.map (fun f => f.report (first f) (ws ++ [y])) =
        fields.map fun f => f.report (first f) ws := by
  have same : ∀ f, scope f → f.course (first f) (ws ++ [y]) = f.course (first f) ws :=
    fun f inside => by
      by_cases here : y.field = f
      · subst here
        rw [Field.course_of_eq rfl, Course.write, if_pos (passes inside)]
      · exact Field.course_of_ne here
  refine ⟨⟨away.nodup, fun f => ?_, away.ordered.imp_of_mem fun {f g} left right => ?_⟩, ?_⟩
  · rw [away.mem]
    exact and_congr_right fun inside => by rw [same f inside]
  · rw [same f ((away.mem f).mp left).1, same g ((away.mem g).mp right).1]
    exact id
  · refine List.map_congr_left fun f member => ?_
    rw [Field.report, Field.report, same f ((away.mem f).mp member).1]

section
variable (apart : ∀ f g, scope f → scope g → f.pair = g.pair → f = g)
include apart

/-- The event of a field in scope is the only one on its pair. -/
theorem find?_report (away : Away scope first ws fields) {f : Field} (inside : scope f) :
    (fields.map fun g => g.report (first g) ws).find? (·.pair == f.pair) =
      if (f.course (first f) ws).left = none then none else some (f.report (first f) ws) := by
  split
  · next stays =>
    refine List.find?_eq_none.mpr fun d member same => ?_
    obtain ⟨g, inside', rfl⟩ := List.mem_map.mp member
    obtain ⟨inScope, left⟩ := (away.mem g).mp inside'
    obtain rfl := apart g f inScope inside (beq_iff_eq.mp same)
    exact left stays
  · next left =>
    have member := (away.mem f).mpr ⟨inside, left⟩
    cases found : (fields.map fun g => g.report (first g) ws).find? (·.pair == f.pair) with
    | none =>
      have passed := List.find?_eq_none.mp found _ (List.mem_map_of_mem member)
      exact absurd (beq_self_eq_true _) passed
    | some d =>
      obtain ⟨g, inside', rfl⟩ := List.mem_map.mp (List.mem_of_find?_eq_some found)
      have same := List.find?_some found
      rw [apart g f ((away.mem g).mp inside').1 inside (beq_iff_eq.mp same)]

omit apart in
/-- Other fields go on as they were. -/
theorem course_of_ne {f g : Field} (other : g ≠ f) (v : Value) :
    g.course (first g) (ws ++ [⟨f, v⟩]) = g.course (first g) ws :=
  Field.course_of_ne (y := ⟨f, v⟩) (Ne.symm other)

omit apart in
theorem report_of_ne {f g : Field} (other : g ≠ f) (v : Value) :
    g.report (first g) (ws ++ [⟨f, v⟩]) = g.report (first g) ws := by
  rw [Field.report, Field.report, course_of_ne other]

/-- Of the fields in scope only one reports on its pair. -/
theorem pair_eq_iff (away : Away scope first ws fields) {f g : Field} (inside : scope f)
    (member : g ∈ fields) : g.pair = f.pair ↔ g = f :=
  ⟨apart g f ((away.mem g).mp member).1 inside, congrArg _⟩

variable {f : Field} {v : Value} (away : Away scope first ws fields) (inside : scope f)
  (differs : (f.course (first f) ws).value.strictEq v = false)
include away inside differs

omit apart in
/-- A field leaves: it comes last. -/
theorem leave (stays : (f.course (first f) ws).left = none) :
    Away scope first (ws ++ [⟨f, v⟩]) (fields ++ [f]) ∧
      fields.map (fun g => g.report (first g) ws) ++
          [⟨f.1.id, .field f.2, v, (f.course (first f) ws).value⟩] =
        (fields ++ [f]).map fun g => g.report (first g) (ws ++ [⟨f, v⟩]) := by
  have like := (Field.tells_course.stays stays).1
  have gone : v.strictEq (first f) = false := by
    rw [← Bool.not_eq_true, Value.strictEq_symm, ← like.strictEq_iff, differs]
    nofun
  have here : f.course (first f) (ws ++ [⟨f, v⟩]) =
      ⟨v, some (ws.length, (f.course (first f) ws).value)⟩ := by
    rw [Field.course_of_eq (y := ⟨f, v⟩) rfl, Course.write, if_neg (by simp [differs]), gone, stays]
    rfl
  have absent : f ∉ fields := fun member => ((away.mem f).mp member).2 stays
  have others : ∀ g ∈ fields, g ≠ f := fun g member same => absent (same ▸ member)
  refine ⟨⟨?_, fun g => ?_, ?_⟩, ?_⟩
  · exact List.nodup_append.mpr ⟨away.nodup, List.nodup_singleton f, by simpa using others⟩
  · by_cases own : g = f
    · subst own
      simp [here, inside]
    · rw [List.mem_append, List.mem_singleton, course_of_ne own, ← away.mem]
      simp [own]
  · refine List.pairwise_append.mpr ⟨?_, List.pairwise_singleton .., ?_⟩
    · refine away.ordered.imp_of_mem fun {g h} left right => ?_
      rw [course_of_ne (others g left), course_of_ne (others h right)]
      exact id
    · intro g member h last m n o p left right
      rw [List.mem_singleton.mp last, here, Option.some.injEq, Prod.mk.injEq] at right
      rw [course_of_ne (others g member)] at left
      rw [← right.1]
      exact (Field.tells_course.leaves m o left).2.2.lt
  · rw [List.map_append, List.map_singleton]
    congr 1
    · exact List.map_congr_left fun g member => (report_of_ne (others g member) v).symm
    · simp [Field.report, here]

/-- A field comes back: it no longer counts. -/
theorem comeBack {n : Nat} {o : Value} (left : (f.course (first f) ws).left = some (n, o))
    (back : v.strictEq o = true) :
    Away scope first (ws ++ [⟨f, v⟩]) (fields.filter (· ≠ f)) ∧
      (fields.map fun g => g.report (first g) ws).filter (·.pair != f.pair) =
        (fields.filter (· ≠ f)).map fun g => g.report (first g) (ws ++ [⟨f, v⟩]) := by
  have like := (Field.tells_course.leaves n o left).1
  have again : v.strictEq (first f) = true := by
    rw [Value.strictEq_symm] at back ⊢
    exact like.strictEq_iff.mp back
  have here : f.course (first f) (ws ++ [⟨f, v⟩]) = ⟨v, none⟩ := by
    rw [Field.course_of_eq (y := ⟨f, v⟩) rfl, Course.write, if_neg (by simp [differs]), again]
    rfl
  have others : ∀ g ∈ fields.filter (· ≠ f), g ≠ f := fun g member => by
    simpa using (List.mem_filter.mp member).2
  refine ⟨⟨away.nodup.filter _, fun g => ?_, ?_⟩, ?_⟩
  · by_cases own : g = f
    · subst own
      simp [here]
    · rw [List.mem_filter, course_of_ne own, away.mem]
      simp [own]
  · refine (away.ordered.filter _).imp_of_mem fun {g h} left right => ?_
    rw [course_of_ne (others g left), course_of_ne (others h right)]
    exact id
  · rw [List.filter_map]
    have kept : fields.filter ((·.pair != f.pair) ∘ fun g => g.report (first g) ws) =
        fields.filter (· ≠ f) := List.filter_congr fun g member => by
      have only := away.pair_eq_iff apart inside member
      rw [Bool.eq_iff_iff]
      simp [only]
    rw [kept]
    exact List.map_congr_left fun g member => (report_of_ne (others g member) v).symm

/-- A field stays away: it reports the new value in its place. -/
theorem stayAway {n : Nat} {o : Value} (left : (f.course (first f) ws).left = some (n, o))
    (still : v.strictEq o = false) :
    Away scope first (ws ++ [⟨f, v⟩]) fields ∧
      ((fields.map fun g => g.report (first g) ws).map fun d =>
          if d.pair == f.pair then { d with new := v } else d) =
        fields.map fun g => g.report (first g) (ws ++ [⟨f, v⟩]) := by
  have like := (Field.tells_course.leaves n o left).1
  have gone : v.strictEq (first f) = false := by
    rw [← Bool.not_eq_true, Value.strictEq_symm] at still ⊢
    rwa [← like.strictEq_iff]
  have here : f.course (first f) (ws ++ [⟨f, v⟩]) = ⟨v, some (n, o)⟩ := by
    rw [Field.course_of_eq (y := ⟨f, v⟩) rfl, Course.write, if_neg (by simp [differs]), gone, left]
    rfl
  have exit : ∀ g : Field,
      (g.course (first g) (ws ++ [⟨f, v⟩])).left = (g.course (first g) ws).left :=
    fun g => by
      by_cases own : g = f
      · subst own
        rw [here, left]
      · rw [course_of_ne own]
  refine ⟨⟨away.nodup, fun g => ?_, ?_⟩, ?_⟩
  · rw [exit, away.mem]
  · simpa only [exit] using away.ordered
  · rw [List.map_map]
    refine List.map_congr_left fun g member => ?_
    by_cases own : g = f
    · subst own
      simp [Field.report, here, left, Event.pair, Field.pair]
    · have other := mt (away.pair_eq_iff apart inside member).mp own
      simp [report_of_ne own, other]

/-- One more write that changes a field in scope. -/
theorem arrive {r : Reckoning} (waiting : r.events = fields.map fun g => g.report (first g) ws) :
    ∃ fields', Away scope first (ws ++ [⟨f, v⟩]) fields' ∧
      (r.arrive ⟨f.1.id, .field f.2, v, (f.course (first f) ws).value⟩).events =
        fields'.map fun g => g.report (first g) (ws ++ [⟨f, v⟩]) := by
  rw [Reckoning.events_arrive, waiting, show Event.pair ⟨_, _, v, _⟩ = f.pair from rfl,
    away.find?_report apart inside]
  cases left : (f.course (first f) ws).left with
  | none => exact ⟨_, away.leave inside differs left⟩
  | some exit =>
    have old : (f.report (first f) ws).old = exit.2 := by simp [Field.report, left]
    simp only [reduceCtorEq, if_false, old]
    cases back : v.strictEq exit.2 with
    | true => exact ⟨_, away.comeBack apart inside differs left back⟩
    | false => exact ⟨_, away.stayAway apart inside differs left back⟩

end

end Away

end ReactiveQuery
