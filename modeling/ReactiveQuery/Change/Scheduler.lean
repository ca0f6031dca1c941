/-! Jobs to run after a batch of events, at most one waiting for each identity: marking, starting a
flush and taking a job keep the identities distinct. -/

namespace ReactiveQuery

/-- Waiting jobs in order of acceptance. -/
abbrev Jobs (J : Type) := List (Nat × J)

def Jobs.has {J : Type} (jobs : Jobs J) (id : Nat) : Bool := jobs.any (·.1 == id)

structure Scheduler (J : Type) where
  /-- The jobs for the next flush. -/
  marked : Jobs J := []
  /-- The jobs still to run in the present flush. -/
  running : Jobs J := []

namespace Scheduler

variable {J : Type}

def isDirty (s : Scheduler J) (id : Nat) : Bool := s.marked.has id || s.running.has id

/-- Accepts a job unless its identity has one waiting. -/
def mark (s : Scheduler J) (id : Nat) (job : J) : Bool × Scheduler J :=
  if s.isDirty id then (false, s) else (true, { s with marked := s.marked ++ [(id, job)] })

/-- A flush takes the marked jobs; those that another flush has yet to run are dropped. -/
def begin (s : Scheduler J) : Scheduler J := ⟨[], s.marked⟩

/-- Takes the next job of the flush. -/
def next? (s : Scheduler J) : Option (J × Scheduler J) :=
  match s.running with
  | [] => none
  | (_, job) :: rest => some (job, { s with running := rest })

/-- Gives up the rest of the flush. -/
def abandon (s : Scheduler J) : Scheduler J := { s with running := [] }

/-- Identities wait once. -/
def Distinct (s : Scheduler J) : Prop := ((s.marked ++ s.running).map (·.1)).Nodup

theorem isDirty_iff (s : Scheduler J) (id : Nat) :
    s.isDirty id = true ↔ id ∈ (s.marked ++ s.running).map (·.1) := by
  simp [isDirty, Jobs.has]

theorem mark_accepted (s : Scheduler J) (id : Nat) (job : J) :
    (s.mark id job).1 = !s.isDirty id := by
  unfold mark
  cases s.isDirty id <;> simp

theorem distinct_mark {s : Scheduler J} (h : s.Distinct) (id : Nat) (job : J) :
    (s.mark id job).2.Distinct := by
  unfold mark
  split
  · exact h
  · next clean =>
    have fresh : id ∉ (s.marked ++ s.running).map (·.1) := fun waits =>
      clean ((isDirty_iff s id).mpr waits)
    have moved : ((s.marked ++ [(id, job)] ++ s.running).map (·.1)).Perm
        (id :: (s.marked ++ s.running).map (·.1)) := by
      simp only [List.map_append, List.map_cons, List.map_nil, List.append_assoc]
      exact List.perm_middle
    exact moved.nodup_iff.mpr (List.nodup_cons.mpr ⟨fresh, h⟩)

theorem distinct_begin {s : Scheduler J} (h : s.Distinct) : s.begin.Distinct := by
  unfold Distinct at h ⊢
  rw [List.map_append] at h
  simpa [begin] using (List.nodup_append.mp h).1

theorem distinct_next {s t : Scheduler J} {job : J} (h : s.Distinct)
    (taken : s.next? = some (job, t)) : t.Distinct := by
  unfold next? at taken
  split at taken
  · cases taken
  · next id first rest here =>
    cases taken
    unfold Distinct at h ⊢
    rw [here, List.map_append, List.map_cons] at h
    rw [List.map_append]
    exact (List.nodup_cons.mp (List.perm_middle.nodup_iff.mp h)).2

end Scheduler

end ReactiveQuery
