import ReactiveQuery.Proofs.Bus.Returning
import ReactiveQuery.Proofs.Change.History

/-! The scheduler under programs that mark, flush and clear by hand.  All that becomes of it is told
by a history, and where flushes are not nested this history is lawful. -/

namespace ReactiveQuery

namespace Act

/-- What happens to the scheduler while the jobs of a flush are run. -/
def drainHistory (run : Job → Act Unit) (history : Job → World → List (Occurrence Job)) :
    Nat → World → List (Occurrence Job)
  | 0, _ => [.finish]
  | count + 1, w =>
    match w.bus.scheduler.running with
    | [] => [.finish]
    | (id, job) :: running =>
      let u := taking w running
      .turn id job :: (history job { u with held := job.values ++ u.held } ++
        match (holding job.values (run job)).on u with
        | (.ok _, v) => drainHistory run history count v
        | (.error _, _) => [.fail])

end Act

/-- What a program may do with the scheduler apart from marking. -/
inductive Use where
  /-- Nothing else. -/
  | marks
  /-- Clear it, and flush it with jobs that only mark. -/
  | flushes
  /-- Flush it with jobs that may flush it in turn. -/
  | nests

/-- What the jobs of a flush may do. -/
def Use.jobs? : Use → Option Use
  | marks => none
  | flushes => some marks
  | nests => some nests

/-- What may happen to the scheduler meanwhile. -/
def Use.Allows : Use → Occurrence Job → Prop
  | marks, d => d.Inner ∧ d.turn? = none
  | flushes, _ => True
  | nests, d => d ≠ .clear

namespace Routine

/-- What happens to the scheduler while a routine runs. -/
def history {α : Type} : Routine α → World → List (Occurrence Job)
  | .own _ _, _ => []
  | .bind p f, w => p.history w ++ p.act.after w fun a v => (f a).history v
  | .attempt p, w => p.history w
  | .holding values p, w => p.history { w with held := values ++ w.held }
  | .dispatch _ _, _ => []
  | .batch _ _ body, w => body.history w
  | .mark id job, w => [.mark id job (w.bus.scheduler.mark id job).1]
  | .clear, _ => [.clear]
  | .flush run, w => .begin :: Act.drainHistory (fun job => (run job).act)
      (fun job => (run job).history) w.bus.scheduler.marked.length
      { w with bus := { w.bus with scheduler := w.bus.scheduler.begin } }

/-- A routine that makes no other use of the scheduler.  An idle bus dispatches what is published,
and flushes then, so only on an open one it may publish. -/
def Keeps {α : Type} (busy : Bool) : Routine α → Use → Prop
  | .own _ _, _ => True
  | .bind p f, u => p.Keeps busy u ∧ ∀ a, (f a).Keeps busy u
  | .attempt p, u => p.Keeps busy u
  | .holding _ p, u => p.Keeps busy u
  | .dispatch _ _, _ => busy = true
  | .batch _ _ body, u => busy = true ∧ body.Keeps busy u
  | .mark _ _, _ => True
  | .clear, u => u = .flushes
  | .flush run, u => ∃ inner, u.jobs? = some inner ∧ ∀ job, (run job).Keeps busy inner

end Routine

/-- The history took place, and made of the scheduler of one world that of the other. -/
structure World.Records (busy : Bool) (w : World) (h : List (Occurrence Job)) (v : World) : Prop where
  dispatching : v.bus.dispatching = busy
  admits : w.bus.scheduler.Admits h
  after : v.bus.scheduler = w.bus.scheduler.after h

theorem World.Records.trans {busy : Bool} {w u v : World} {h h' : List (Occurrence Job)}
    (first : w.Records busy h u) (rest : u.Records busy h' v) : w.Records busy (h ++ h') v where
  dispatching := rest.dispatching
  admits := Scheduler.admits_append.mpr ⟨first.admits, first.after ▸ rest.admits⟩
  after := by rw [rest.after, first.after, Scheduler.after_append]

namespace Act

/-- The history of an activity, on a bus that is open or idle. -/
def Records {α : Type} (busy : Bool) (act : Act α) (history : World → List (Occurrence Job)) : Prop :=
  ∀ w v, w.bus.dispatching = busy → act.Leaves w v → w.Records busy (history w) v

variable {busy : Bool} {run : Job → Act Unit} {history : Job → World → List (Occurrence Job)}

theorem Records.holding {α : Type} {act : Act α} {history : World → List (Occurrence Job)}
    (records : act.Records busy history) (values : List Value) :
    (Act.holding values act).Records busy fun w => history { w with held := values ++ w.held } := by
  intro w v same leaves
  obtain ⟨u, inner, rfl⟩ := leaves_holding leaves
  obtain ⟨dispatching, admits, after⟩ := records { w with held := values ++ w.held } u same inner
  exact ⟨dispatching, admits, after⟩

theorem drainHistory_of_rested {count : Nat} {w : World} (none : w.bus.scheduler.running = []) :
    drainHistory run history count w = [.finish] := by
  cases count with
  | zero => rfl
  | succ count => rw [drainHistory, none]

theorem records_taking {w : World} {id : Nat} {job : Job} {running : Jobs Job}
    (same : w.bus.dispatching = busy) (next : w.bus.scheduler.running = (id, job) :: running) :
    w.Records busy [.turn id job] (taking w running) where
  dispatching := same
  admits := ⟨by simp [Occurrence.Fits, next], trivial⟩
  after := by simp [Scheduler.after, Occurrence.apply, next, taking]

/-- What the jobs of a flush do makes the history of the flush. -/
theorem records_draining (each : ∀ job, (run job).Records busy (history job)) (count : Nat) :
    (draining run count).Records busy (drainHistory run history count) := by
  rintro w v same ⟨r, outcome, ends⟩
  refine draining_induction run (P := fun count w _ v => w.bus.dispatching = busy →
    w.Records busy (drainHistory run history count w) v) ?_ ?_ ?_ outcome ends same
  · intro count w none same
    rw [drainHistory_of_rested none]
    exact ⟨same, ⟨none, trivial⟩, rfl⟩
  · intro count w id job running e x next ran same
    have failed := (each job).holding job.values (taking w running) x same (leaves_of_raised ran)
    rw [drainHistory, next]
    dsimp only
    rw [ran]
    exact (records_taking same next).trans
      (failed.trans ⟨failed.dispatching, ⟨trivial, trivial⟩, rfl⟩)
  · intro count w id job running x r v next ran rest same
    have succeeded := (each job).holding job.values (taking w running) x same ran.leaves
    rw [drainHistory, next]
    dsimp only
    rw [ran.on]
    exact (records_taking same next).trans (succeeded.trans (rest succeeded.dispatching))

theorem records_flushing (each : ∀ job, (run job).Records busy (history job)) :
    (flushing run).Records busy fun w => .begin :: drainHistory run history
      w.bus.scheduler.marked.length
        { w with bus := { w.bus with scheduler := w.bus.scheduler.begin } } := by
  rintro w v same ⟨r, outcome, ends⟩
  rw [on_flushing] at outcome
  have begun : w.Records busy [.begin]
      { w with bus := { w.bus with scheduler := w.bus.scheduler.begin } } :=
    ⟨same, ⟨trivial, trivial⟩, rfl⟩
  exact begun.trans (records_draining each w.bus.scheduler.marked.length _ v same ⟨r, outcome, ends⟩)

end Act

namespace Routine

variable {α : Type} {busy : Bool}

/-- All that a routine makes of the scheduler is told by its history. -/
theorem records (p : Routine α) {u : Use} (keeps : p.Keeps busy u) :
    p.act.Records busy p.history := by
  induction p generalizing u with
  | own act aside =>
    rintro w v same ⟨r, outcome, _⟩
    obtain ⟨scheduler, dispatching⟩ := aside w
    rw [show act.on w = (r, v) from outcome] at scheduler dispatching
    exact ⟨dispatching.trans same, trivial, scheduler⟩
  | bind p f first rest =>
    intro w v same leaves
    rw [history]
    rcases Act.leaves_bind leaves with ⟨e, stops⟩ | ⟨a, x, gives, goes⟩
    · rw [Act.after_of_raised stops, List.append_nil]
      exact first keeps.1 w v same (Act.leaves_of_raised stops)
    · have before := first keeps.1 w x same gives.leaves
      rw [gives.after]
      exact before.trans (rest a (keeps.2 a) x v before.dispatching goes)
  | attempt p ih => exact fun w v same leaves => ih keeps w v same (Act.leaves_attempt leaves)
  | holding values p ih => exact (ih keeps).holding values
  | dispatch act skips =>
    rintro w v same ⟨r, outcome, ends⟩
    obtain ⟨-, rfl⟩ := skips w (same.trans keeps) r v outcome ends
    exact ⟨same, trivial, rfl⟩
  | batch d skips body ih =>
    rintro w v same ⟨r, outcome, ends⟩
    rw [show (batch d skips body).act = Act.batch d body.act from rfl,
      Act.on_batch_of_busy (same.trans keeps.1)] at outcome
    exact ih keeps.2 w v same ⟨r, outcome, ends⟩
  | mark id job =>
    intro w v same leaves
    obtain rfl :=
      (Act.gives_onBus.mpr ⟨rfl, rfl⟩ : (mark id job).act.Gives w _ _).leaves_iff.mp leaves
    exact ⟨same, ⟨rfl, trivial⟩, (Scheduler.apply_mark ..).symm⟩
  | clear =>
    intro w v same leaves
    obtain rfl := Act.leaves_changeBus.mp leaves
    exact ⟨same, ⟨trivial, trivial⟩, rfl⟩
  | flush run each =>
    obtain ⟨inner, -, keeps⟩ := keeps
    exact Act.records_flushing fun job => each job (keeps job)

end Routine

/-! ### What happens under a use -/

namespace Act

theorem mem_after {α β : Type} {act : Act α} {w : World} {rest : α → World → List β} {b : β}
    (mem : b ∈ act.after w rest) : ∃ a v, b ∈ rest a v := by
  unfold after at mem
  split at mem
  · exact ⟨_, _, mem⟩
  · cases mem

theorem mem_drainHistory {run : Job → Act Unit} {history : Job → World → List (Occurrence Job)}
    {count : Nat} {w : World} {d : Occurrence Job} (mem : d ∈ drainHistory run history count w) :
    d ≠ .clear ∨ ∃ job x, d ∈ history job x := by
  induction count generalizing w with
  | zero =>
    rw [drainHistory, List.mem_singleton] at mem
    subst mem
    exact .inl (by simp)
  | succ count ih =>
    rw [drainHistory] at mem
    split at mem
    · obtain rfl := List.mem_singleton.mp mem
      exact .inl (by simp)
    · rcases List.mem_cons.mp mem with rfl | mem
      · exact .inl (by simp)
      · rcases List.mem_append.mp mem with inside | later
        · exact .inr ⟨_, _, inside⟩
        · split at later
          · exact ih later
          · obtain rfl := List.mem_singleton.mp later
            exact .inl (by simp)

end Act

namespace Routine

variable {α : Type} {busy : Bool}

theorem allows_history (p : Routine α) {u : Use} (keeps : p.Keeps busy u) (w : World) :
    ∀ d ∈ p.history w, u.Allows d := by
  induction p generalizing u w with
  | own act aside => simp [history]
  | bind p f first rest =>
    intro d mem
    rcases List.mem_append.mp mem with before | later
    · exact first keeps.1 w d before
    · obtain ⟨a, v, mem⟩ := Act.mem_after later
      exact rest a (keeps.2 a) v d mem
  | attempt p ih => exact ih keeps w
  | holding values p ih => exact ih keeps _
  | dispatch act skips => simp [history]
  | batch d skips body ih => exact ih keeps.2 w
  | mark id job => cases u <;> simp [history, Use.Allows, Occurrence.Inner, Occurrence.turn?]
  | clear =>
    obtain rfl : u = .flushes := keeps
    exact fun _ _ => trivial
  | flush run each =>
    obtain ⟨inner, same, keeps⟩ := keeps
    cases u with
    | marks => cases same
    | flushes => exact fun _ _ => trivial
    | nests =>
      obtain rfl : Use.nests = inner := Option.some.inj same
      intro d mem
      rcases List.mem_cons.mp mem with rfl | mem
      · simp [Use.Allows]
      · rcases Act.mem_drainHistory mem with other | ⟨job, x, mem⟩
        · exact other
        · exact each job (keeps job) x d mem

end Routine

/-! ### Flushes whose jobs only mark -/

namespace Act

variable (run : Job → Act Unit) {history : Job → World → List (Occurrence Job)}

theorem drainHistory_inner (marks : ∀ job w, ∀ d ∈ history job w, d.Inner) (count : Nat)
    (w : World) : ∃ ds last, drainHistory run history count w = ds ++ [last] ∧
      (∀ d ∈ ds, d.Inner) ∧ last.Ends := by
  induction count generalizing w with
  | zero => exact ⟨[], .finish, rfl, by simp, trivial⟩
  | succ count ih =>
    rw [drainHistory]
    cases w.bus.scheduler.running with
    | nil => exact ⟨[], .finish, rfl, by simp, trivial⟩
    | cons entry running =>
      obtain ⟨id, job⟩ := entry
      dsimp only
      obtain ⟨ds, last, same, inner, ends⟩ : ∃ ds last,
          (match (holding job.values (run job)).on (taking w running) with
            | (.ok _, v) => drainHistory run history count v
            | (.error _, _) => [.fail]) = ds ++ [last] ∧ (∀ d ∈ ds, d.Inner) ∧ last.Ends := by
        split
        · exact ih _
        · exact ⟨[], .fail, rfl, by simp, trivial⟩
      rw [same, ← List.append_assoc, ← List.cons_append]
      refine ⟨_, last, rfl, ?_, ends⟩
      rintro d (_ | ⟨_, mem⟩)
      · exact trivial
      · exact (List.mem_append.mp mem).elim (marks job _ d) (inner d)

variable {run}

/-- How a flush with this result ends. -/
def lastOf : Except Fault Unit → Occurrence Job
  | .ok _ => .finish
  | .error _ => .fail

/-- A flush that fails ends with the failure of a job, and any other one with no job left. -/
theorem getLast?_drainHistory {count : Nat} {w v : World} {r : Except Fault Unit}
    (outcome : (draining run count).on w = (r, v)) (ends : r ≠ .error .endless) :
    (drainHistory run history count w).getLast? = some (lastOf r) := by
  have append {h : List (Occurrence Job)} {d last : Occurrence Job} {h' : List (Occurrence Job)}
      (same : h'.getLast? = some last) : (d :: (h ++ h')).getLast? = some last := by
    rw [List.getLast?_cons, List.getLast?_append, same]
    rfl
  refine draining_induction run (P := fun count w r _ =>
    (drainHistory run history count w).getLast? = some (lastOf r)) ?_ ?_ ?_ outcome ends
  · intro count w none
    rw [drainHistory_of_rested none]
    rfl
  · intro count w id job running e x next ran
    rw [drainHistory, next]
    dsimp only
    rw [ran]
    exact append rfl
  · intro count w id job running x r v next ran rest
    rw [drainHistory, next]
    dsimp only
    rw [ran.on]
    exact append rest

end Act

namespace Routine

variable {α : Type} {busy : Bool}

/-- No flush begins, and nobody clears the scheduler, while another flush is under way. -/
theorem flat_history (p : Routine α) (keeps : p.Keeps busy .flushes) (w : World) :
    Occurrence.Flat (p.history w) := by
  induction p generalizing w with
  | own act aside => exact .nil
  | bind p f first rest =>
    refine (first keeps.1 w).append ?_
    unfold Act.after
    split
    · exact rest _ (keeps.2 _) _
    · exact .nil
  | attempt p ih => exact ih keeps w
  | holding values p ih => exact ih keeps _
  | dispatch act skips => exact .nil
  | batch d skips body ih => exact ih keeps.2 w
  | mark id job => exact .mark .nil
  | clear => exact .clear .nil
  | flush run each =>
    obtain ⟨inner, only, keeps⟩ := keeps
    obtain rfl : Use.marks = inner := Option.some.inj only
    obtain ⟨ds, last, same, inner, ends⟩ := Act.drainHistory_inner (fun job => (run job).act)
      (fun job w d mem => ((run job).allows_history (keeps job) w d mem).1)
      w.bus.scheduler.marked.length { w with bus := { w.bus with scheduler := w.bus.scheduler.begin } }
    rw [history, same]
    exact .flush inner ends .nil

/-- Jobs that only mark leave the jobs of the flush alone. -/
theorem running_of_marks {p : Routine α} (keeps : p.Keeps busy .marks) {w v : World}
    (same : w.bus.dispatching = busy) (leaves : p.act.Leaves w v) :
    v.bus.scheduler.running = w.bus.scheduler.running := by
  have records := p.records keeps w v same leaves
  have marks := p.allows_history keeps w
  have none : Occurrence.turns (p.history w) = [] :=
    List.filterMap_eq_nil_iff.mpr fun d mem => (marks d mem).2
  have course := (Scheduler.after_inner (fun d mem => (marks d mem).1) records.admits).1
  rw [none] at course
  rw [records.after, course]
  rfl

/-- A flush comes back when jobs that only mark do. -/
theorem returns_draining {run : Job → Routine Unit} (keeps : ∀ job, (run job).Keeps busy .marks)
    (returns : ∀ job x, (run job).act.Returns x) {count : Nat} {w : World}
    (same : w.bus.dispatching = busy) (enough : w.bus.scheduler.running.length ≤ count) :
    (Act.draining (fun job => (run job).act) count).Returns w := by
  induction count generalizing w with
  | zero =>
    have none := List.eq_nil_of_length_eq_zero (Nat.le_zero.mp enough)
    unfold Act.Returns
    rw [Act.on_draining_zero, if_pos (by rw [none]; rfl)]
    exact nofun
  | succ count ih =>
    unfold Act.Returns
    rw [Act.on_draining_succ]
    cases next : w.bus.scheduler.running with
    | nil => simp
    | cons entry running =>
      obtain ⟨id, job⟩ := entry
      dsimp only
      have turn : (Routine.holding job.values (run job)).act.Returns (Act.taking w running) := by
        have := returns job { Act.taking w running with held := job.values ++ w.held }
        unfold Act.Returns at this ⊢
        rwa [Routine.act, Act.on_holding]
      rcases ran : (Act.holding job.values (run job).act).on (Act.taking w running) with
        ⟨(e | _) | _, x⟩
      · simp
      · exact absurd (congrArg Prod.fst ran) turn
      · have leaves : (Routine.holding job.values (run job)).act.Leaves (Act.taking w running) x :=
          Act.Gives.leaves ran
        have kept : (Routine.holding job.values (run job)).Keeps busy .marks := keeps job
        have left := running_of_marks kept (w := Act.taking w running) same leaves
        refine ih (records _ kept (Act.taking w running) x same leaves).dispatching ?_
        rw [left]
        rw [next] at enough
        exact Nat.le_of_succ_le_succ enough

/-- A scheduler that is marked, flushed and cleared by hand, and whose jobs only mark, has a lawful
history: a mark is refused exactly while its identity waits, a flush runs the jobs accepted before it
began in order, up to the first that fails, and what is accepted meanwhile waits for the next one.
A flush comes back when its jobs do. -/
theorem lawful_history {p : Routine α} {w v : World} (keeps : p.Keeps w.bus.dispatching .flushes)
    (fresh : w.bus.scheduler = {}) (leaves : p.act.Leaves w v) :
    Occurrence.Lawful (p.history w) ∧ v.bus.scheduler = Occurrence.waits (p.history w) ∧
    ∀ run : Job → Routine Unit, (∀ job, (run job).Keeps v.bus.dispatching .marks) →
      (∀ job x, (run job).act.Returns x) → ∃ r u, (flush run).act.on v = (r, u) ∧
        r ≠ .error .endless ∧ ((flush run).history v).getLast? = some (Act.lastOf r) := by
  have records := p.records keeps w v rfl leaves
  refine ⟨Occurrence.lawful_of_admits (fresh ▸ records.admits) (p.flat_history keeps w),
    records.after.trans (by rw [fresh]; rfl), fun run marks returns => ?_⟩
  let begun := { v with bus := { v.bus with scheduler := v.bus.scheduler.begin } }
  have comes : (Act.draining (fun job => (run job).act) v.bus.scheduler.marked.length).Returns begun :=
    returns_draining marks returns rfl le_rfl
  refine ⟨_, _, Act.on_flushing .., comes, ?_⟩
  rw [history, List.getLast?_cons, Act.getLast?_drainHistory rfl comes]
  rfl

end Routine

namespace Requeue

def job (name : String) : Job := .script name []

/-- The first job marks its own identity and one that waits, the second one fails. -/
def run : Job → Routine Unit
  | .script "first" _ => .bind (.mark 1 (job "again")) fun _ => .bind (.mark 2 (job "again")) fun _ =>
    .ret ()
  | .script "second" _ => .own (Act.raise (.invalidOperation "second")) (.of_bus fun _ => rfl)
  | _ => .ret ()

def routine : Routine Bool :=
  .bind (.mark 1 (job "first")) fun _ => .bind (.mark 2 (job "second")) fun _ =>
    .bind (.mark 3 (job "third")) fun _ => .bind (.attempt (.flush run)) fun _ =>
      .mark 3 (job "third")

theorem keeps_run (busy : Bool) (job : Job) : (run job).Keeps busy .marks := by
  unfold run
  split
  · exact ⟨trivial, fun _ => ⟨trivial, fun _ => trivial⟩⟩
  · trivial
  · trivial

theorem keeps_routine : routine.Keeps false .flushes :=
  ⟨trivial, fun _ => ⟨trivial, fun _ => ⟨trivial, fun _ =>
    ⟨⟨.marks, rfl, keeps_run false⟩, fun _ => trivial⟩⟩⟩⟩

/-- The job that fails ends the flush.  What was marked in it waits, and the third identity may be
marked again. -/
theorem lawful_routine : Occurrence.Lawful (routine.history {}) ∧
    (Occurrence.waits (routine.history {})).marked.map (·.1) = [1, 3] := by
  have gives : routine.act.Gives {} true (routine.act.on {}).2 :=
    Act.gives_of_toOption (by decide +kernel)
  have ⟨lawful, waits, _⟩ := Routine.lawful_history (w := {}) keeps_routine rfl gives.leaves
  exact ⟨lawful, by rw [← waits]; decide +kernel⟩

end Requeue

end ReactiveQuery
