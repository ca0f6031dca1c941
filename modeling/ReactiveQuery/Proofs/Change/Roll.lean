import Mathlib.Algebra.BigOperators.Finprod
import ReactiveQuery.Proofs.Change.Registry

/-! Calls to a registry, one after the other.  The roll of all registrations in the order in which
they were made is what a registry answers from: after any calls, both answer the next one alike,
and whom an event reaches is read off the roll, topic by topic. -/

namespace ReactiveQuery

/-- A call that registers a listener, or one that undoes a registration. -/
inductive Registry.Call where
  | add (s : Subscription)
  | remove (s : Subscription)
  deriving DecidableEq

/-- Registrations in the order in which they were made, none of them twice. -/
@[ext]
structure Roll where
  made : List Subscription
  once : made.Nodup

namespace Roll

variable {roll : Roll} {s : Subscription} {t : Topic} {n : Nat}

def blank : Roll := ⟨[], List.nodup_nil⟩

/-- Puts a registration at the end, unless it is there: was it new? -/
def add (roll : Roll) (s : Subscription) : Bool × Roll :=
  if new : s ∉ roll.made then
    (true, ⟨roll.made ++ [s], List.concat_eq_append ▸ roll.once.concat new⟩)
  else (false, roll)

/-- Strikes a registration off: was it there? -/
def remove (roll : Roll) (s : Subscription) : Bool × Roll :=
  (decide (s ∈ roll.made), ⟨roll.made.erase s, roll.once.erase s⟩)

def perform (roll : Roll) : Registry.Call → Bool × Roll
  | .add s => roll.add s
  | .remove s => roll.remove s

/-- The roll after calls, from a blank one. -/
def after (calls : List Registry.Call) : Roll :=
  calls.foldl (fun roll call => (roll.perform call).2) blank

/-- The listeners on a topic, in the order of their registration. -/
def on (roll : Roll) (t : Topic) : List Nat :=
  (roll.made.filter (·.topic = t)).map (·.listener)

theorem mem_on : n ∈ roll.on t ↔ ⟨t, n⟩ ∈ roll.made := by
  simp only [on, List.mem_map, List.mem_filter, decide_eq_true_eq]
  constructor
  · rintro ⟨⟨topic, listener⟩, ⟨member, rfl⟩, rfl⟩
    exact member
  · exact fun member => ⟨⟨t, n⟩, ⟨member, rfl⟩, rfl⟩

theorem nodup_on (roll : Roll) (t : Topic) : (roll.on t).Nodup := by
  refine (List.nodup_map_iff_inj_on (roll.once.filter _)).mpr ?_
  rintro ⟨topic, listener⟩ here ⟨topic', listener'⟩ there (rfl : listener = listener')
  simp only [List.mem_filter, decide_eq_true_eq] at here there
  rw [here.2, there.2]

theorem made_add (roll : Roll) (s : Subscription) :
    (roll.add s).2.made = if s ∈ roll.made then roll.made else roll.made ++ [s] := by
  unfold add
  by_cases known : s ∈ roll.made <;> simp [known]

theorem on_add (roll : Roll) (s : Subscription) (t : Topic) : (roll.add s).2.on t =
    if s.topic = t ∧ s.listener ∉ roll.on t then roll.on t ++ [s.listener] else roll.on t := by
  by_cases known : s ∈ roll.made
  · have same : (roll.add s).2 = roll := by simp [add, known]
    rw [same, if_neg]
    rintro ⟨rfl, new⟩
    exact new (mem_on.mpr known)
  · have new : s.listener ∉ roll.on s.topic := mt mem_on.mp known
    rw [on, made_add, if_neg known, List.filter_append, List.map_append, ← on]
    by_cases here : s.topic = t
    · subst here
      simp [new]
    · simp [here]

theorem on_remove (roll : Roll) (s : Subscription) (t : Topic) : (roll.remove s).2.on t =
    if s.topic = t then (roll.on t).erase s.listener else roll.on t := by
  have others : (roll.remove s).2.made = roll.made.filter (· != s) := roll.once.erase_eq_filter s
  rw [on, others, (roll.nodup_on t).erase_eq_filter, on, List.filter_filter, List.filter_map,
    List.filter_filter]
  obtain ⟨topic, listener⟩ := s
  by_cases here : topic = t
  · rw [if_pos here]
    refine congrArg _ (List.filter_congr fun x _ => ?_)
    obtain ⟨topic', listener'⟩ := x
    by_cases same : topic' = t <;> simp [same, here, Bool.beq_eq_decide_eq, bne]
  · rw [if_neg here]
    refine congrArg _ (List.filter_congr fun x _ => ?_)
    obtain ⟨topic', listener'⟩ := x
    by_cases same : topic' = t
    · subst same
      simp [Ne.symm here]
    · simp [same]

/-- The roll is as it was exactly when a call is answered with no. -/
theorem perform_eq_self_iff (roll : Roll) (call : Registry.Call) :
    (roll.perform call).2 = roll ↔ (roll.perform call).1 = false := by
  cases call with
  | add s =>
    by_cases known : s ∈ roll.made
    · simp [perform, add, known]
    · simp [perform, add, known, Roll.ext_iff]
  | remove s =>
    simp only [perform, remove, decide_eq_false_iff_not, Roll.ext_iff]
    exact List.erase_eq_self_iff

theorem after_append (calls : List Registry.Call) (call : Registry.Call) :
    after (calls ++ [call]) = ((after calls).perform call).2 := by
  rw [after, List.foldl_append, List.foldl_cons, List.foldl_nil, ← after]

theorem mem_add {x : Subscription} : x ∈ (roll.add s).2.made ↔ x ∈ roll.made ∨ x = s := by
  rw [made_add]
  by_cases known : s ∈ roll.made
  · simp only [known, ↓reduceIte, iff_self_or]
    rintro rfl
    exact known
  · simp [known]

theorem mem_remove {x : Subscription} :
    x ∈ (roll.remove s).2.made ↔ x ∈ roll.made ∧ x ≠ s := by
  rw [remove, roll.once.mem_erase_iff, and_comm]

/-- On the roll is what was registered and not undone since. -/
theorem mem_after_iff (calls : List Registry.Call) : s ∈ (after calls).made ↔
    ∃ before later, calls = before ++ .add s :: later ∧ .remove s ∉ later := by
  constructor
  · intro member
    induction calls using List.reverseRecOn with
    | nil => exact absurd member List.not_mem_nil
    | append_singleton calls call ih =>
      rw [after_append] at member
      cases call with
      | add x =>
        rcases mem_add.mp member with earlier | rfl
        · obtain ⟨before, later, rfl, kept⟩ := ih earlier
          exact ⟨before, later ++ [.add x], by simp, by simpa using kept⟩
        · exact ⟨calls, [], rfl, List.not_mem_nil⟩
      | remove x =>
        obtain ⟨earlier, other⟩ := mem_remove.mp member
        obtain ⟨before, later, rfl, kept⟩ := ih earlier
        exact ⟨before, later ++ [.remove x], by simp, by simp [kept, other]⟩
  · rintro ⟨before, later, rfl, kept⟩
    induction later using List.reverseRecOn with
    | nil =>
      rw [after_append]
      exact mem_add.mpr (.inr rfl)
    | append_singleton later call ih =>
      rw [List.mem_append, not_or] at kept
      rw [← List.cons_append, ← List.append_assoc, after_append]
      cases call with
      | add x => exact mem_add.mpr (.inl (ih kept.1))
      | remove x =>
        exact mem_remove.mpr ⟨ih kept.1, by rintro rfl; exact kept.2 List.mem_cons_self⟩

/-- All registrations are those of the topics together. -/
theorem length_made (roll : Roll) : roll.made.length = ∑ᶠ t, (roll.on t).length := by
  have count (t) : (roll.on t).length = (roll.made.map (·.topic)).count t := by
    rw [on, List.length_map, List.count, List.countP_map, List.countP_eq_length_filter]
    refine congrArg List.length (List.filter_congr fun s _ => ?_)
    simp [Bool.beq_eq_decide_eq]
  rw [finsum_congr count, finsum_eq_sum_of_support_subset
    (s := (roll.made.map (·.topic)).toFinset), List.sum_toFinset_count_eq_length, List.length_map]
  intro t counted
  simpa using List.one_le_count_iff.mp (Nat.pos_of_ne_zero counted)

end Roll

namespace Registry

variable {r : Registry} {roll : Roll}

def perform (r : Registry) : Call → Bool × Registry
  | .add s => r.add s
  | .remove s => r.remove s

/-- The registry after calls, from an empty one. -/
def after (calls : List Call) : Registry :=
  calls.foldl (fun r call => (r.perform call).2) {}

/-- A registry is as it was exactly when a call is answered with no. -/
theorem perform_eq_self_iff (r : Registry) (call : Call) :
    (r.perform call).2 = r ↔ (r.perform call).1 = false := by
  cases call with
  | add s =>
    rw [perform, add_new, decide_eq_false_iff_not, not_not]
    constructor
    · intro same
      have listed : s.listener ∈ (r.add s).2.on s.topic := mem_on_add_iff.mpr (.inr rfl)
      rwa [same] at listed
    · intro known
      simp [Registry.add, known]
  | remove s =>
    rw [perform, remove_known, decide_eq_false_iff_not]
    constructor
    · intro same
      have struck := on_remove r s s.topic
      rw [same, if_pos rfl] at struck
      exact List.erase_eq_self_iff.mp struck.symm
    · intro unknown
      simp [Registry.remove, unknown]

theorem Tidy.lookup (tidy : r.Tidy) (t : Topic) :
    (r.entries.lookup t).isSome = true ↔ r.on t ≠ [] := by
  unfold Registry.on
  cases found : r.entries.lookup t with
  | none => simp
  | some listeners =>
    obtain ⟨before, after, same, -⟩ := List.lookup_eq_some_iff.mp found
    simpa using tidy.filled (t, listeners) (by simp [same])

/-- An event has listeners exactly when it reaches some. -/
theorem Tidy.hasListeners_iff (tidy : r.Tidy) (target : Nat) (key : EventKey) :
    r.hasListeners target key = true ↔ r.reached target key ≠ [] := by
  simp only [hasListeners, List.any_eq_true, tidy.lookup, reached, ne_eq, List.flatMap_eq_nil_iff,
    not_forall, exists_prop]

/-- The registrations are those of the topics together. -/
theorem Tidy.size_eq (tidy : r.Tidy) : r.size = ∑ᶠ t, (r.on t).length := by
  have entries : r.entries.map (fun e => e.2.length) =
      (r.entries.map (·.1)).map fun t => (r.on t).length := by
    rw [List.map_map]
    exact List.map_congr_left fun e member => by simp [tidy.on_entry member]
  rw [size, List.length_flatMap, entries, ← List.sum_toFinset _ tidy.topics]
  refine (finsum_eq_sum_of_support_subset _ fun t counted => ?_).symm
  have filled : r.on t ≠ [] := by simpa using counted
  obtain ⟨listeners, found⟩ := Option.isSome_iff_exists.mp ((tidy.lookup t).mpr filled)
  obtain ⟨before, after, same, -⟩ := List.lookup_eq_some_iff.mp found
  simp [same]

theorem Tidy.isEmpty_iff (tidy : r.Tidy) : r.isEmpty = true ↔ r.size = 0 := by
  rw [isEmpty, List.isEmpty_iff, size, List.length_eq_zero_iff, List.flatMap_eq_nil_iff]
  constructor
  · rintro none e member
    simp [none] at member
  · intro empty
    exact List.eq_nil_iff_forall_not_mem.mpr fun e member => tidy.filled e member (empty e member)

/-- A registry keeps a roll: it is in order, and on each topic has whom the roll has. -/
structure Keeps (r : Registry) (roll : Roll) : Prop where
  tidy : r.Tidy
  on : ∀ t, r.on t = roll.on t

theorem keeps_blank : Keeps {} Roll.blank := ⟨tidy_empty, fun _ => rfl⟩

namespace Keeps

theorem answer (keeps : r.Keeps roll) (call : Call) :
    (r.perform call).1 = (roll.perform call).1 := by
  cases call with
  | add s =>
    by_cases known : s ∈ roll.made <;>
      simp [Registry.perform, add_new, keeps.on, Roll.perform, Roll.add, Roll.mem_on, known]
  | remove s =>
    simp [Registry.perform, remove_known, keeps.on, Roll.perform, Roll.remove, Roll.mem_on]

/-- One call on both sides. -/
theorem perform (keeps : r.Keeps roll) (call : Call) :
    (r.perform call).2.Keeps (roll.perform call).2 := by
  cases call with
  | add s => exact ⟨keeps.tidy.add s, fun t => by
      rw [Registry.perform, on_add, keeps.on, Roll.perform, Roll.on_add]⟩
  | remove s => exact ⟨keeps.tidy.remove s, fun t => by
      rw [Registry.perform, on_remove, keeps.on, Roll.perform, Roll.on_remove]⟩

end Keeps

theorem keeps_after (calls : List Call) : (after calls).Keeps (Roll.after calls) :=
  List.foldl_rel (r := Keeps) keeps_blank fun call _ _ _ keeps => keeps.perform call

/-- What a registry tells, as it stands on the roll. -/
structure Tells (r : Registry) (roll : Roll) : Prop where
  answer : ∀ call, (r.perform call).1 = (roll.perform call).1
  idle : ∀ call, (r.perform call).1 = false ↔ (r.perform call).2 = r
  reached : ∀ target key, r.reached target key =
    roll.on ⟨some target, some key⟩ ++ roll.on ⟨none, some key⟩ ++
      roll.on ⟨some target, none⟩ ++ roll.on ⟨none, none⟩
  once : ∀ t, (roll.on t).Nodup
  hasListeners : ∀ target key, r.hasListeners target key = true ↔ r.reached target key ≠ []
  size : r.size = ∑ᶠ t, (roll.on t).length
  isEmpty : r.isEmpty = true ↔ r.size = 0

/-- After any calls a registry tells what stands on the roll of these calls; and there stands what
was registered and not undone since. -/
theorem tells_after (calls : List Call) :
    (after calls).Tells (Roll.after calls) ∧ (after calls).size = (Roll.after calls).made.length ∧
      ∀ s, s ∈ (Roll.after calls).made ↔
        ∃ before later, calls = before ++ .add s :: later ∧ .remove s ∉ later := by
  have keeps := keeps_after calls
  have size : (after calls).size = ∑ᶠ t, ((Roll.after calls).on t).length := by
    rw [keeps.tidy.size_eq, finsum_congr fun t => congrArg List.length (keeps.on t)]
  refine ⟨?_, ?_, fun s => Roll.mem_after_iff calls⟩
  · exact {
      answer := keeps.answer
      idle := fun call => (perform_eq_self_iff _ call).symm
      reached := fun target key => by simp [Registry.reached, Event.topics, keeps.on]
      once := (Roll.after calls).nodup_on
      hasListeners := keeps.tidy.hasListeners_iff
      size := size
      isEmpty := keeps.tidy.isEmpty_iff }
  · rw [size, Roll.length_made]

end Registry

end ReactiveQuery
