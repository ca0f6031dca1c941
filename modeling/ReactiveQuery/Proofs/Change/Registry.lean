import Mathlib.Data.List.Nodup
import ReactiveQuery.Change.Registry

/-! Registering and undoing in a row.  A registry in order stays in order; undoing takes away what
is undone and leaves everything else in its place. -/

namespace ReactiveQuery.Registry

variable {r : Registry} {s : Subscription} {t : Topic} {n : Nat}

/-- Each topic has at most one entry, which is not empty, and each listener is there once. -/
structure Tidy (r : Registry) : Prop where
  topics : (r.entries.map (·.1)).Nodup
  filled : ∀ e ∈ r.entries, e.2 ≠ []
  once : ∀ t, (r.on t).Nodup

theorem tidy_empty : Tidy {} := ⟨List.nodup_nil, nofun, fun _ => List.nodup_nil⟩

theorem mem_entries_of_mem_on (here : n ∈ r.on t) : n ∈ r.entries.flatMap (·.2) := by
  unfold on at here
  cases found : r.entries.lookup t with
  | none => simp [found] at here
  | some listeners =>
    obtain ⟨before, after, same, -⟩ := List.lookup_eq_some_iff.mp found
    rw [found, Option.getD_some] at here
    exact List.mem_flatMap.mpr ⟨(t, listeners), by simp [same], here⟩

theorem Tidy.on_entry (tidy : r.Tidy) {e : Topic × List Nat} (member : e ∈ r.entries) :
    r.on e.1 = e.2 := by
  obtain ⟨before, after, same⟩ := List.append_of_mem member
  have found : r.entries.lookup e.1 = some e.2 := by
    refine List.lookup_eq_some_iff.mpr ⟨before, after, same, fun p early => ?_⟩
    have topics := tidy.topics
    rw [same, List.map_append, List.map_cons] at topics
    have apart := (List.nodup_append.mp topics).2.2 p.1 (List.mem_map_of_mem early) e.1
      List.mem_cons_self
    simpa using Ne.symm apart
  rw [on, found, Option.getD_some]

theorem Tidy.mem_on (tidy : r.Tidy) {e : Topic × List Nat} (member : e ∈ r.entries)
    (inside : n ∈ e.2) : n ∈ r.on e.1 := by
  rwa [tidy.on_entry member]

theorem Tidy.put (tidy : r.Tidy) (topic : Topic) {listeners : List Nat}
    (once : listeners.Nodup) : (r.put topic listeners).Tidy where
  topics := by
    have others : ((r.entries.filter (·.1 != topic)).map (·.1)).Nodup :=
      tidy.topics.sublist (List.filter_sublist.map _)
    unfold Registry.put
    split
    · exact others
    · refine List.nodup_cons.mpr ⟨fun member => ?_, others⟩
      obtain ⟨e, inside, rfl⟩ := List.mem_map.mp member
      simp at inside
  filled e member := by
    unfold Registry.put at member
    split at member
    · exact tidy.filled e (List.mem_of_mem_filter member)
    · next filled =>
      rcases List.mem_cons.mp member with rfl | member
      · simpa using filled
      · exact tidy.filled e (List.mem_of_mem_filter member)
  once t := by
    rw [on_put]
    split
    · exact once
    · exact tidy.once t

theorem Tidy.add (tidy : r.Tidy) (s : Subscription) : (r.add s).2.Tidy := by
  unfold Registry.add
  split
  · exact tidy
  · next new =>
    refine tidy.put _ (List.nodup_append.mpr ⟨tidy.once _, List.nodup_singleton _, ?_⟩)
    rintro a member b inside rfl
    obtain rfl := List.mem_singleton.mp inside
    exact new (by simpa using member)

theorem Tidy.remove (tidy : r.Tidy) (s : Subscription) : (r.remove s).2.Tidy := by
  unfold Registry.remove
  split
  · exact tidy.put _ ((tidy.once _).erase _)
  · exact tidy

theorem mem_on_add_iff : n ∈ (r.add s).2.on t ↔ n ∈ r.on t ∨ s = ⟨t, n⟩ := by
  obtain ⟨topic, listener⟩ := s
  rw [on_add]
  by_cases here : topic = t
  · subst here
    by_cases known : listener ∈ r.on topic
    · simp only [known, not_true_eq_false, and_false, ↓reduceIte, Subscription.mk.injEq, true_and,
        iff_self_or]
      rintro rfl
      exact known
    · simp [known, eq_comm]
  · simp [here]

theorem mem_on_remove_iff (tidy : r.Tidy) :
    n ∈ (r.remove s).2.on t ↔ n ∈ r.on t ∧ s ≠ ⟨t, n⟩ := by
  obtain ⟨topic, listener⟩ := s
  rw [on_remove]
  by_cases here : topic = t
  · subst here
    simp [(tidy.once _).mem_erase_iff, and_comm, eq_comm]
  · simp [here]

theorem Tidy.removeAll {ss : List Subscription} (tidy : r.Tidy) :
    (ss.foldl (fun r s => (r.remove s).2) r).Tidy := by
  induction ss generalizing r with
  | nil => exact tidy
  | cons s ss ih => exact ih (tidy.remove s)

/-- Undoing registrations takes them away and leaves the others in their places. -/
theorem on_removeAll {ss : List Subscription} (tidy : r.Tidy) (t : Topic) :
    (ss.foldl (fun r s => (r.remove s).2) r).on t =
      (r.on t).filter fun n => decide (⟨t, n⟩ ∉ ss) := by
  induction ss generalizing r with
  | nil => simp
  | cons s ss ih =>
    rw [List.foldl_cons, ih (tidy.remove s), on_remove]
    split
    · next here =>
      rw [(tidy.once t).erase_eq_filter, List.filter_filter]
      refine List.filter_congr fun n _ => ?_
      obtain ⟨topic, listener⟩ := s
      obtain rfl : topic = t := here
      by_cases same : n = listener <;> simp [same]
    · next other =>
      refine List.filter_congr fun n _ => ?_
      obtain ⟨topic, listener⟩ := s
      simp [Ne.symm other]

/-- Registers one after the other, and gives what was new. -/
def addAll (r : Registry) : List Subscription → List Subscription × Registry
  | [] => ([], r)
  | s :: ss =>
    let rest := (r.add s).2.addAll ss
    (if (r.add s).1 then s :: rest.1 else rest.1, rest.2)

theorem add_new (r : Registry) (s : Subscription) :
    (r.add s).1 = decide (s.listener ∉ r.on s.topic) := by
  unfold add
  split <;> simp_all

theorem remove_known (r : Registry) (s : Subscription) :
    (r.remove s).1 = decide (s.listener ∈ r.on s.topic) := by
  unfold remove
  split <;> simp_all

theorem Tidy.addAll {ss : List Subscription} (tidy : r.Tidy) : (r.addAll ss).2.Tidy := by
  induction ss generalizing r with
  | nil => exact tidy
  | cons s ss ih => exact ih (tidy.add s)

/-- What is new was not there before. -/
theorem mem_addAll {ss : List Subscription} :
    s ∈ (r.addAll ss).1 ↔ s ∈ ss ∧ s.listener ∉ r.on s.topic := by
  induction ss generalizing r with
  | nil => simp [addAll]
  | cons x ss ih =>
    have later : s ∈ ((r.add x).2.addAll ss).1 ↔
        s ∈ ss ∧ s.listener ∉ r.on s.topic ∧ x ≠ s := by
      rw [ih, mem_on_add_iff, not_or]
    rw [addAll, add_new]
    by_cases new : x.listener ∈ r.on x.topic
    · simp only [new, not_true_eq_false, decide_false, Bool.false_eq_true, ↓reduceIte, later,
        List.mem_cons]
      constructor
      · rintro ⟨member, fresh, -⟩
        exact ⟨.inr member, fresh⟩
      · rintro ⟨rfl | member, fresh⟩
        · exact absurd new fresh
        · exact ⟨member, fresh, by rintro rfl; exact fresh new⟩
    · simp only [new, not_false_eq_true, decide_true, ↓reduceIte, later, List.mem_cons]
      constructor
      · rintro (rfl | ⟨member, fresh, -⟩)
        · exact ⟨.inl rfl, new⟩
        · exact ⟨.inr member, fresh⟩
      · rintro ⟨rfl | member, fresh⟩
        · exact .inl rfl
        · by_cases same : x = s
          · exact .inl same.symm
          · exact .inr ⟨member, fresh, same⟩

/-- Registering puts what is new behind what was there, in order. -/
theorem on_addAll (ss : List Subscription) (t : Topic) : (r.addAll ss).2.on t =
    r.on t ++ ((r.addAll ss).1.filter (·.topic = t)).map (·.listener) := by
  induction ss generalizing r with
  | nil => simp [addAll]
  | cons s ss ih =>
    have first := on_add r s t
    rw [addAll, add_new]
    dsimp only
    rw [ih, first]
    by_cases here : s.topic = t
    · subst here
      by_cases new : s.listener ∈ r.on s.topic <;> simp [new]
    · by_cases new : s.listener ∈ r.on s.topic <;> simp [new, here]

end ReactiveQuery.Registry
