import ReactiveQuery.Change.Scheduler

/-! What comes of accepted jobs.  They have their turns in the order in which they were accepted, and
they wait until then unless they are given up. -/

namespace ReactiveQuery

/-- What is done with jobs. -/
inductive Deed (J : Type) where
  | accepted (id : Nat) (job : J)
  /-- A flush takes the marked jobs. -/
  | begun
  /-- A job of the flush has its turn. -/
  | ran (id : Nat) (job : J)
  /-- Jobs that wait are given up. -/
  | lost (jobs : Jobs J)

namespace Deed

variable {J : Type}

def accepted? : Deed J → Option (Nat × J)
  | .accepted id job => some (id, job)
  | _ => none

def ran? : Deed J → Option (Nat × J)
  | .ran id job => some (id, job)
  | _ => none

def losses : Deed J → Jobs J
  | .lost jobs => jobs
  | _ => []

/-- The jobs that are accepted, in order. -/
def allAccepted (ds : List (Deed J)) : Jobs J := ds.filterMap accepted?

/-- The jobs that have their turn, in order. -/
def allRan (ds : List (Deed J)) : Jobs J := ds.filterMap ran?

/-- The jobs that are given up. -/
def allLost (ds : List (Deed J)) : Jobs J := ds.flatMap losses

/-- What is marked after one more deed. -/
def mark (marked : Jobs J) : Deed J → Jobs J
  | .accepted id job => marked ++ [(id, job)]
  | .begun => []
  | _ => marked

/-- The jobs accepted since the last flush began. -/
def sinceFlush (ds : List (Deed J)) : Jobs J := ds.foldl mark []

end Deed

namespace Scheduler

variable {J : Type}

/-- The jobs that wait, in the order of their turns. -/
def waiting (s : Scheduler J) : Jobs J := s.running ++ s.marked

/-- What one deed makes of a scheduler. -/
inductive Does : Scheduler J → Deed J → Scheduler J → Prop
  | accept {s id job} (clean : s.isDirty id = false) : Does s (.accepted id job) (s.mark id job).2
  | begin {s} (none : s.running = []) : Does s .begun s.begin
  | run {s id job rest} (next : s.running = (id, job) :: rest) :
    Does s (.ran id job) { s with running := rest }
  | abandon {s} : Does s (.lost s.running) s.abandon
  | clear {s} : Does s (.lost s.waiting) {}

/-- Deeds done one after the other. -/
inductive Follows : Scheduler J → List (Deed J) → Scheduler J → Prop
  | nil {s} : Follows s [] s
  | cons {s t u d ds} (first : Does s d t) (rest : Follows t ds u) : Follows s (d :: ds) u

variable {s t u : Scheduler J} {d : Deed J} {ds ds' : List (Deed J)}

theorem Does.follows (does : s.Does d t) : s.Follows [d] t := .cons does .nil

theorem Follows.trans (first : s.Follows ds t) (rest : t.Follows ds' u) :
    s.Follows (ds ++ ds') u := by
  induction first with
  | nil => exact rest
  | cons does _ ih => exact .cons does (ih rest)

/-- A flush may begin while another one is under way, which is then given up. -/
theorem follows_begin (s : Scheduler J) : s.Follows [.lost s.running, .begun] s.begin :=
  .cons .abandon (.cons (.begin rfl) .nil)

theorem Does.waiting (does : s.Does d t) (kept : d.losses = []) :
    s.waiting ++ d.accepted?.toList = d.ran?.toList ++ t.waiting := by
  cases does with
  | accept clean => simp [Scheduler.waiting, Scheduler.mark, clean, Deed.accepted?, Deed.ran?]
  | begin none => simp [Scheduler.waiting, Scheduler.begin, none, Deed.accepted?, Deed.ran?]
  | run next => simp [Scheduler.waiting, next, Deed.accepted?, Deed.ran?]
  | abandon =>
    have none : s.running = [] := kept
    simp [Scheduler.waiting, Scheduler.abandon, none, Deed.accepted?, Deed.ran?]
  | clear =>
    have none : s.waiting = [] := kept
    rw [none]
    rfl

theorem Does.marked (does : s.Does d t) (kept : d.losses = []) : t.marked = d.mark s.marked := by
  cases does with
  | accept clean => simp [Scheduler.mark, clean, Deed.mark]
  | clear =>
    have none : s.waiting = [] := kept
    exact (List.append_eq_nil_iff.mp none).2.symm
  | _ => rfl

/-- If no job is given up, those that waited and those accepted since have had their turns in this
order, or they still wait. -/
theorem Follows.inOrder (follows : s.Follows ds t) (kept : Deed.allLost ds = []) :
    s.waiting ++ Deed.allAccepted ds = Deed.allRan ds ++ t.waiting := by
  induction follows with
  | nil => simp [Deed.allAccepted, Deed.allRan]
  | @cons s t u d ds does _ ih =>
    obtain ⟨now, later⟩ := List.append_eq_nil_iff.mp kept
    have accepts : Deed.allAccepted (d :: ds) = d.accepted?.toList ++ Deed.allAccepted ds := by
      cases d <;> rfl
    have runs : Deed.allRan (d :: ds) = d.ran?.toList ++ Deed.allRan ds := by
      cases d <;> rfl
    calc s.waiting ++ Deed.allAccepted (d :: ds)
        = d.ran?.toList ++ (t.waiting ++ Deed.allAccepted ds) := by
          rw [accepts, ← List.append_assoc, does.waiting now, List.append_assoc]
      _ = Deed.allRan (d :: ds) ++ u.waiting := by rw [ih later, ← List.append_assoc, runs]

/-- What is marked in the end has been accepted since the last flush began. -/
theorem Follows.marked (follows : s.Follows ds t) (kept : Deed.allLost ds = []) :
    t.marked = ds.foldl Deed.mark s.marked := by
  induction follows with
  | nil => rfl
  | cons does _ ih =>
    obtain ⟨now, later⟩ := List.append_eq_nil_iff.mp kept
    rw [ih later, List.foldl_cons, does.marked now]

end Scheduler

end ReactiveQuery
