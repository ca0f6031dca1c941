import ReactiveQuery.Proofs.Bus.Scheduling

/-! Flushes from within flushes.  A flush that begins while another one is under way takes the place
of it, and what the other one has yet to run is dropped; no other job is. -/

namespace ReactiveQuery

open Occurrence (turns accepted)

namespace Scheduler

variable {J : Type}

/-- The jobs that an occurrence drops. -/
def drops (s : Scheduler J) : Occurrence J → Jobs J
  | .begin | .fail => s.running
  | .clear => s.waiting
  | _ => []

/-- The jobs that are dropped in a history. -/
def dropped (s : Scheduler J) : List (Occurrence J) → Jobs J
  | [] => []
  | e :: h => s.drops e ++ dropped (e.apply s) h

variable {s : Scheduler J} {e : Occurrence J} {h : List (Occurrence J)}

/-- A job that waits or is accepted has its turn, is dropped, or waits on. -/
theorem perm_apply (fits : e.Fits s) : (s.waiting ++ e.accepted?.toList).Perm
    (e.turn?.toList ++ s.drops e ++ (e.apply s).waiting) := by
  cases e with
  | mark id job ok => cases ok <;>
      simp [Occurrence.accepted?, Occurrence.turn?, drops, Occurrence.apply, waiting]
  | turn id job =>
    obtain ⟨rest, first⟩ := List.head?_eq_some_iff.mp fits
    simp [Occurrence.accepted?, Occurrence.turn?, drops, Occurrence.apply, waiting, first]
  | _ =>
    simp [Occurrence.accepted?, Occurrence.turn?, drops, Occurrence.apply, waiting, begin, abandon]

/-- The jobs that wait at first and those that are accepted, each once, have their turns, are
dropped, or wait in the end. -/
theorem perm_after (admits : s.Admits h) : (s.waiting ++ accepted h).Perm
    (turns h ++ s.dropped h ++ (s.after h).waiting) := by
  induction h generalizing s with
  | nil => simp [accepted, turns, dropped, after]
  | cons e h ih =>
    have now := (perm_apply admits.1).append_right (accepted h)
    have later := (ih admits.2).append_left (e.turn?.toList ++ s.drops e)
    rw [Occurrence.accepted_cons, Occurrence.turns_cons, dropped, after, List.foldl_cons]
    simp only [List.append_assoc] at now later ⊢
    exact (now.trans later).trans (.append_left _ (List.perm_append_comm_assoc ..))

/-- What is dropped by flushes alone is what another one had left where they begin. -/
theorem mem_dropped (kept : ∀ e ∈ h, e ≠ .fail ∧ e ≠ .clear) {entry : Nat × J} :
    entry ∈ s.dropped h ↔ ∃ p q, h = p ++ .begin :: q ∧ entry ∈ (s.after p).running := by
  induction h generalizing s with
  | nil => simp [dropped]
  | cons e h ih =>
    have later := ih (s := e.apply s) fun d mem => kept d (List.mem_cons_of_mem _ mem)
    rw [dropped, List.mem_append, later]
    constructor
    · rintro (now | ⟨p, q, rfl, mem⟩)
      · obtain ⟨fail, clear⟩ := kept e List.mem_cons_self
        cases e with
        | begin => exact ⟨[], h, rfl, now⟩
        | fail => exact absurd rfl fail
        | clear => exact absurd rfl clear
        | _ => cases now
      · exact ⟨e :: p, q, rfl, mem⟩
    · rintro ⟨p, q, same, mem⟩
      cases p with
      | nil =>
        obtain ⟨rfl, rfl⟩ := List.cons.inj same
        exact .inl mem
      | cons d p =>
        obtain ⟨rfl, rfl⟩ := List.cons.inj same
        exact .inr ⟨p, q, rfl, mem⟩

end Scheduler

namespace Routine

variable {α : Type}

/-- Where jobs flush the scheduler in turn, to any depth, and none fails, each job that waited or is
accepted has its turn once, or it still waits, or it is dropped; and those are dropped that a flush
has yet to run when another one begins. -/
theorem perm_history {p : Routine α} {w v : World} (keeps : p.Keeps w.bus.dispatching .nests)
    (leaves : p.act.Leaves w v) (succeeds : ∀ d ∈ p.history w, d ≠ .fail) :
    (w.bus.scheduler.waiting ++ accepted (p.history w)).Perm
      (turns (p.history w) ++ w.bus.scheduler.dropped (p.history w) ++ v.bus.scheduler.waiting) ∧
    ∀ entry, entry ∈ w.bus.scheduler.dropped (p.history w) ↔
      ∃ before rest, p.history w = before ++ .begin :: rest ∧
        entry ∈ (w.bus.scheduler.after before).running := by
  have records := p.records keeps w v rfl leaves
  rw [records.after]
  exact ⟨Scheduler.perm_after records.admits, fun entry => Scheduler.mem_dropped fun d mem =>
    ⟨succeeds d mem, p.allows_history keeps w d mem⟩⟩

end Routine

namespace Renewed

def job (name : String) : Job := .script name []

/-- The first job flushes, as deep as is said. -/
def run : Nat → Job → Routine Unit
  | depth + 1, .script "first" _ => .flush (run depth)
  | _, _ => .ret ()

/-- Two jobs are marked and flushed. -/
def routine : Routine Unit :=
  .bind (.mark 1 (job "first")) fun _ => .bind (.mark 2 (job "second")) fun _ => .flush (run 1)

theorem keeps_run (depth : Nat) (job : Job) : (run depth job).Keeps false .nests := by
  induction depth generalizing job with
  | zero => simp [run, Routine.ret, Routine.Keeps]
  | succ depth ih =>
    unfold run
    split
    · next same =>
      cases same
      exact ⟨.nests, rfl, ih⟩
    · trivial

theorem keeps_routine : routine.Keeps false .nests :=
  ⟨trivial, fun _ => ⟨trivial, fun _ => ⟨.nests, rfl, keeps_run 1⟩⟩⟩

def after : World := (routine.act.on {}).2

/-- No job fails, the second one is dropped, and of the two marks only the first has its turn. -/
theorem runs_routine : (routine.act.on {}).1.toOption = some () ∧
    (routine.history {}).all (fun | .fail => false | _ => true) = true ∧
    (({} : Scheduler Job).dropped (routine.history {})).map (·.1) = [2] ∧
    (accepted (routine.history {})).length = 2 ∧ (turns (routine.history {})).length = 1 ∧
    after.bus.scheduler.waiting.length = 0 := by
  decide +kernel

theorem gives_routine : routine.act.Gives {} () after := Act.gives_of_toOption runs_routine.1

theorem succeeds_routine : ∀ d ∈ routine.history {}, d ≠ .fail := by
  rintro d mem rfl
  cases List.all_eq_true.mp runs_routine.2.1 _ mem

/-- The second job is left of the outer flush when the inner one begins. -/
theorem perm_routine : (accepted (routine.history {})).Perm (turns (routine.history {}) ++
      ({} : Scheduler Job).dropped (routine.history {}) ++ after.bus.scheduler.waiting) ∧
    (({} : Scheduler Job).dropped (routine.history {})).map (·.1) = [2] :=
  ⟨(Routine.perm_history keeps_routine gives_routine.leaves succeeds_routine).1,
    runs_routine.2.2.1⟩

/-- Not every accepted job has its turn or still waits. -/
theorem not_perm_routine : ¬∀ (p : Routine Unit) (w v : World), p.Keeps w.bus.dispatching .nests →
    p.act.Leaves w v → (∀ d ∈ p.history w, d ≠ .fail) →
      (w.bus.scheduler.waiting ++ accepted (p.history w)).Perm
        (turns (p.history w) ++ v.bus.scheduler.waiting) := by
  intro claim
  have same := (claim routine {} after keeps_routine gives_routine.leaves succeeds_routine).length_eq
  obtain ⟨-, -, -, marks, turned, none⟩ := runs_routine
  rw [List.length_append, List.length_append, marks, turned, none] at same
  cases same

end Renewed

end ReactiveQuery
