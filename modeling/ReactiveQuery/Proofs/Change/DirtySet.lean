import Mathlib.Data.Finset.Basic
import ReactiveQuery.Change.Scheduler

/-! Waiting jobs kept twice: in a queue, which gives their order, and by their identities in a set,
which answers whether one waits.  A scheduler that keeps its jobs in this way gives the same answers
as one that keeps the queues alone. -/

namespace ReactiveQuery

/-- Jobs in order of acceptance, and the identities that have one. -/
structure DirtySet (J : Type) where
  order : Jobs J := []
  ids : Finset Nat := ∅

namespace DirtySet

variable {J : Type}

def contains (set : DirtySet J) (id : Nat) : Bool := id ∈ set.ids

/-- Takes a job in, unless its identity is in the set. -/
def insert (set : DirtySet J) (id : Nat) (job : J) : Bool × DirtySet J :=
  if id ∈ set.ids then (false, set)
  else (true, ⟨set.order ++ [(id, job)], Insert.insert id set.ids⟩)

/-- Takes the first job out. -/
def pop (set : DirtySet J) : DirtySet J :=
  match set.order with
  | [] => set
  | (id, _) :: order => ⟨order, set.ids.erase id⟩

/-- The queue holds these jobs, and queue and set list the same identities, each once. -/
structure Lists (set : DirtySet J) (jobs : Jobs J) : Prop where
  order : set.order = jobs
  ids : ∀ id, id ∈ set.ids ↔ id ∈ set.order.map (·.1)
  distinct : (set.order.map (·.1)).Nodup

namespace Lists

variable {set : DirtySet J} {jobs : Jobs J} {id : Nat} {job : J}

theorem empty : ({} : DirtySet J).Lists [] := ⟨rfl, by simp, by simp⟩

theorem mem_iff (lists : set.Lists jobs) : id ∈ set.ids ↔ id ∈ jobs.map (·.1) := by
  rw [lists.ids, lists.order]

theorem contains (lists : set.Lists jobs) (id : Nat) : set.contains id = jobs.has id := by
  rw [DirtySet.contains, Bool.eq_iff_iff, decide_eq_true_eq, lists.mem_iff]
  simp [Jobs.has]

theorem insert_fresh (lists : set.Lists jobs) (fresh : id ∉ set.ids) (job : J) :
    (set.insert id job).2.Lists (jobs ++ [(id, job)]) := by
  obtain ⟨rfl, ids, distinct⟩ := lists
  rw [DirtySet.insert, if_neg fresh]
  refine ⟨rfl, fun other => ?_, ?_⟩
  · simp [ids, or_comm]
  · rw [ids] at fresh
    simpa [List.nodup_append, distinct] using fun other _ mem same =>
      fresh (by simpa [same] using List.mem_map_of_mem (f := (·.1)) mem)

theorem pop (lists : set.Lists ((id, job) :: jobs)) : set.pop.Lists jobs := by
  obtain ⟨order, ids, distinct⟩ := lists
  simp only [order, List.map_cons, List.nodup_cons] at ids distinct
  simp only [DirtySet.pop, order]
  refine ⟨rfl, fun other => ?_, distinct.2⟩
  rw [Finset.mem_erase, ids, List.mem_cons]
  constructor
  · rintro ⟨other, rfl | mem⟩
    · exact absurd rfl other
    · exact mem
  · exact fun mem => ⟨fun same => distinct.1 (same ▸ mem), .inr mem⟩

end Lists

end DirtySet

/-- A scheduler whose jobs are kept twice. -/
structure DirtySets (J : Type) where
  marked : DirtySet J := {}
  running : DirtySet J := {}

namespace DirtySets

variable {J : Type}

def mark (s : DirtySets J) (id : Nat) (job : J) : Bool × DirtySets J :=
  if s.running.contains id then (false, s)
  else
    let (added, marked) := s.marked.insert id job
    (added, { s with marked })

def begin (s : DirtySets J) : DirtySets J := ⟨{}, s.marked⟩

def next (s : DirtySets J) : DirtySets J := { s with running := s.running.pop }

def abandon (s : DirtySets J) : DirtySets J := { s with running := {} }

/-- Both sets list the jobs of a scheduler. -/
structure Lists (s : DirtySets J) (t : Scheduler J) : Prop where
  marked : s.marked.Lists t.marked
  running : s.running.Lists t.running

namespace Lists

variable {s : DirtySets J} {t : Scheduler J} (lists : s.Lists t)

theorem empty : ({} : DirtySets J).Lists {} := ⟨.empty, .empty⟩

include lists

/-- Marking gives the same answer, and both come to list the same jobs. -/
theorem mark (id : Nat) (job : J) :
    (s.mark id job).1 = (t.mark id job).1 ∧ (s.mark id job).2.Lists (t.mark id job).2 := by
  have marked := lists.marked.contains id
  have running := lists.running.contains id
  simp only [DirtySets.mark, Scheduler.mark, Scheduler.isDirty, ← marked, ← running]
  cases waits : s.running.contains id with
  | true => simpa using lists
  | false =>
    by_cases fresh : id ∈ s.marked.ids
    · simpa [DirtySet.contains, DirtySet.insert, fresh] using lists
    · have inserted := lists.marked.insert_fresh fresh job
      refine ⟨by simp [DirtySet.contains, DirtySet.insert, fresh], ?_⟩
      simp only [DirtySet.contains, fresh, decide_false, Bool.or_self, Bool.false_eq_true, if_false]
      exact ⟨inserted, lists.running⟩

theorem begin : s.begin.Lists t.begin := ⟨.empty, lists.marked⟩

theorem next {id : Nat} {job : J} {rest : Jobs J} (first : t.running = (id, job) :: rest) :
    s.next.Lists { t with running := rest } := by
  have running := lists.running
  rw [first] at running
  exact ⟨lists.marked, running.pop⟩

theorem abandon : s.abandon.Lists t.abandon := ⟨lists.marked, .empty⟩

end Lists

end DirtySets

end ReactiveQuery
