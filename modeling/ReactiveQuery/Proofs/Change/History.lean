import Mathlib.Data.List.DropRight
import ReactiveQuery.Proofs.Change.DirtySet

/-! The history of a scheduler: every mark with its answer, and the course of every flush.  What
waits at a moment can be told from the history up to it, and from this the law of a flush: it runs
the jobs that were accepted before it began, and what is marked in it waits for the next one. -/

namespace ReactiveQuery

/-- What happens to a scheduler. -/
inductive Occurrence (J : Type) where
  /-- A job is offered, and accepted or refused. -/
  | mark (id : Nat) (job : J) (accepted : Bool)
  /-- A flush takes the marked jobs. -/
  | begin
  /-- A job of the flush has its turn. -/
  | turn (id : Nat) (job : J)
  /-- The flush ends, for none of its jobs is left. -/
  | finish
  /-- The flush ends, for a job has failed. -/
  | fail
  | clear

namespace Occurrence

variable {J : Type}

/-- What may happen between the ends of a flush whose jobs only mark. -/
def Inner : Occurrence J → Prop
  | mark .. | turn .. => True
  | _ => False

/-- The end of a flush. -/
def Ends : Occurrence J → Prop
  | finish | fail => True
  | _ => False

def accepted? : Occurrence J → Option (Nat × J)
  | mark id job true => some (id, job)
  | _ => none

def turn? : Occurrence J → Option (Nat × J)
  | turn id job => some (id, job)
  | _ => none

/-- What leaves the jobs that are marked where they are. -/
def keeps : Occurrence J → Bool
  | begin | clear => false
  | _ => true

/-- The jobs that are accepted, in order. -/
def accepted (h : List (Occurrence J)) : Jobs J := h.filterMap accepted?

/-- The jobs that have their turn, in order. -/
def turns (h : List (Occurrence J)) : Jobs J := h.filterMap turn?

theorem accepted_cons (e : Occurrence J) (h : List (Occurrence J)) :
    accepted (e :: h) = e.accepted?.toList ++ accepted h := by
  cases first : e.accepted? <;> simp [accepted, first]

theorem turns_cons (e : Occurrence J) (h : List (Occurrence J)) :
    turns (e :: h) = e.turn?.toList ++ turns h := by
  cases first : e.turn? <;> simp [turns, first]

/-- What an occurrence makes of the waiting jobs. -/
def apply (s : Scheduler J) : Occurrence J → Scheduler J
  | mark id job true => { s with marked := s.marked ++ [(id, job)] }
  | mark _ _ false | finish => s
  | begin => s.begin
  | turn _ _ => { s with running := s.running.tail }
  | fail => s.abandon
  | clear => {}

/-- What an occurrence makes of the waiting jobs that are kept twice. -/
def perform (s : DirtySets J) : Occurrence J → DirtySets J
  | mark id job _ => (s.mark id job).2
  | begin => s.begin
  | turn _ _ => s.next
  | finish => s
  | fail => s.abandon
  | clear => {}

/-- What can happen where these jobs wait: a mark is answered as the scheduler answers it, the job
that has its turn is the first of the flush, and a flush finishes when none is left. -/
def Fits (s : Scheduler J) : Occurrence J → Prop
  | mark id job accepted => (s.mark id job).1 = accepted
  | turn id job => s.running.head? = some (id, job)
  | finish => s.running = []
  | begin | fail | clear => True

end Occurrence

namespace Scheduler

variable {J : Type}

/-- The jobs that wait after a history: those accepted since the last flush began, and those left of
that flush. -/
def after (s : Scheduler J) (h : List (Occurrence J)) : Scheduler J := h.foldl Occurrence.apply s

/-- A history that can take place from here on. -/
def Admits (s : Scheduler J) : List (Occurrence J) → Prop
  | [] => True
  | e :: h => e.Fits s ∧ Admits (e.apply s) h

end Scheduler

/-- The jobs that wait after a history, kept twice. -/
def DirtySets.after {J : Type} (s : DirtySets J) (h : List (Occurrence J)) : DirtySets J :=
  h.foldl Occurrence.perform s

open Occurrence (turns accepted)

namespace Scheduler

variable {J : Type} {s : Scheduler J} {e : Occurrence J} {h h' ds : List (Occurrence J)}

theorem after_append (s : Scheduler J) (h h' : List (Occurrence J)) :
    s.after (h ++ h') = (s.after h).after h' := List.foldl_append

theorem admits_append : s.Admits (h ++ h') ↔ s.Admits h ∧ (s.after h).Admits h' := by
  induction h generalizing s with
  | nil => simp [Admits, after]
  | cons e h ih => exact (and_congr_right fun _ => ih).trans and_assoc.symm

/-- What happened at a point of a history could happen there. -/
theorem Admits.fits (admits : s.Admits (h ++ e :: h')) : e.Fits (s.after h) :=
  (admits_append.mp admits).2.1

theorem apply_mark (s : Scheduler J) (id : Nat) (job : J) :
    (Occurrence.mark id job (s.mark id job).1).apply s = (s.mark id job).2 := by
  rw [Scheduler.mark]
  split <;> rfl

/-- Within a flush the jobs have their turns one after the other, and those that are accepted
wait. -/
theorem after_inner (inner : ∀ d ∈ ds, d.Inner) (admits : s.Admits ds) :
    s.running = turns ds ++ (s.after ds).running ∧
      (s.after ds).marked = s.marked ++ accepted ds := by
  induction ds generalizing s with
  | nil => simp [turns, accepted, after]
  | cons d ds ih =>
    obtain ⟨running, marked⟩ := ih (fun e mem => inner e (List.mem_cons_of_mem _ mem)) admits.2
    have fits := admits.1
    cases d with
    | mark id job ok =>
      cases ok with
      | true =>
        exact ⟨running, marked.trans (by simp [Occurrence.apply, accepted, Occurrence.accepted?])⟩
      | false => exact ⟨running, marked⟩
    | turn id job =>
      obtain ⟨rest, first⟩ := List.head?_eq_some_iff.mp fits
      refine ⟨?_, marked⟩
      rw [first]
      simpa [turns, Occurrence.turn?, Occurrence.apply, first, after] using running
    | _ => exact absurd (inner _ List.mem_cons_self) id

/-- Kept twice, the jobs come to be the same. -/
theorem lists_apply {t : DirtySets J} (lists : t.Lists s) (fits : e.Fits s) :
    (e.perform t).Lists (e.apply s) := by
  cases e with
  | mark id job ok =>
    obtain rfl : (s.mark id job).1 = ok := fits
    rw [apply_mark]
    exact (lists.mark id job).2
  | begin => exact lists.begin
  | turn id job =>
    obtain ⟨rest, first⟩ := List.head?_eq_some_iff.mp fits
    simpa [Occurrence.apply, Occurrence.perform, first] using lists.next first
  | finish => exact lists
  | fail => exact lists.abandon
  | clear => exact .empty

theorem lists_after {t : DirtySets J} (lists : t.Lists s) (admits : s.Admits h) :
    (t.after h).Lists (s.after h) := by
  induction h generalizing s t with
  | nil => exact lists
  | cons e h ih => exact ih (lists_apply lists admits.1) admits.2

end Scheduler

/-! ### Flushes that are not nested -/

/-- A history in which no flush begins and nobody clears the scheduler while a flush is under
way. -/
inductive Occurrence.Flat {J : Type} : List (Occurrence J) → Prop
  | nil : Flat []
  | mark {id job ok h} (rest : Flat h) : Flat (.mark id job ok :: h)
  | clear {h} (rest : Flat h) : Flat (.clear :: h)
  | flush {ds last h} (inner : ∀ d ∈ ds, d.Inner) (ends : last.Ends) (rest : Flat h) :
    Flat (.begin :: (ds ++ last :: h))

namespace Occurrence

variable {J : Type} {h h' p q ds : List (Occurrence J)}

theorem Flat.append (first : Flat h) (rest : Flat h') : Flat (h ++ h') := by
  induction first with
  | nil => exact rest
  | mark _ ih => exact .mark ih
  | clear _ ih => exact .clear ih
  | flush inner ends _ ih =>
    rw [List.cons_append, List.append_assoc]
    exact .flush inner ends ih

/-- Every flush in such a history is one of its flushes from beginning to end. -/
theorem Flat.exists_end (flat : Flat h) (begun : h = p ++ .begin :: q) :
    ∃ ds last q', q = ds ++ last :: q' ∧ (∀ d ∈ ds, d.Inner) ∧ last.Ends := by
  induction flat generalizing p with
  | nil => simp at begun
  | mark _ ih =>
    cases p with
    | nil => cases begun
    | cons e p => exact ih (List.cons.inj begun).2
  | clear _ ih =>
    cases p with
    | nil => cases begun
    | cons e p => exact ih (List.cons.inj begun).2
  | @flush ds last h inner ends _ ih =>
    cases p with
    | nil => exact ⟨ds, last, h, (List.cons.inj begun).2.symm, inner, ends⟩
    | cons e p =>
      rcases List.append_eq_append_iff.mp (List.cons.inj begun).2 with
        ⟨as, rfl, rest⟩ | ⟨bs, same, rest⟩
      · cases as with
        | nil =>
          obtain ⟨rfl, rfl⟩ := List.cons.inj rest
          exact ends.elim
        | cons a as => exact ih (List.cons.inj rest).2
      · cases bs with
        | nil =>
          obtain ⟨rfl, rfl⟩ := List.cons.inj rest
          exact ends.elim
        | cons b bs =>
          obtain ⟨rfl, -⟩ := List.cons.inj rest
          exact (inner .begin (by simp [same])).elim

/-- The jobs that wait after a history. -/
def waits (h : List (Occurrence J)) : Scheduler J := ({} : Scheduler J).after h

/-- The law of a scheduler that is not flushed from within its flushes, told of a whole history by
what waits at each of its points. -/
structure Lawful (h : List (Occurrence J)) : Prop where
  /-- Kept twice, the jobs of either set are at all times listed by queue and set alike, and no
  identity is listed twice. -/
  lists : ∀ p q, h = p ++ q → (({} : DirtySets J).after p).Lists (waits p)
  /-- What waits for the next flush has been accepted since the last one began, or since the
  scheduler was cleared. -/
  marked : ∀ p q, h = p ++ q → (waits p).marked = accepted (p.rtakeWhile keeps)
  /-- A mark is refused when the identity waits in the flush under way or for the next one, and
  only then. -/
  refused : ∀ p id job ok q, h = p ++ .mark id job ok :: q →
    (ok = false ↔ (waits p).running.has id = true ∨ (waits p).marked.has id = true)
  /-- While a flush is under way, those have had their turns that were accepted first before it
  began, the rest of these wait in it, and what is accepted meanwhile waits for the next one. -/
  course : ∀ p ds q, h = p ++ .begin :: (ds ++ q) → (∀ d ∈ ds, d.Inner) →
    (waits p).marked = turns ds ++ (waits (p ++ .begin :: ds)).running ∧
      (waits (p ++ .begin :: ds)).marked = accepted ds
  /-- Every flush ends: it has run all its jobs, or one has failed and the rest is given up; what
  was accepted meanwhile still waits. -/
  flush : ∀ p q, h = p ++ .begin :: q → ∃ ds last q', q = ds ++ last :: q' ∧
    (∀ d ∈ ds, d.Inner) ∧ waits (p ++ .begin :: (ds ++ [last])) = ⟨accepted ds, []⟩ ∧
      (last = .finish ∧ turns ds = (waits p).marked ∨
        last = .fail ∧ ∃ rest, (waits p).marked = turns ds ++ rest)

theorem waits_append (p q : List (Occurrence J)) : waits (p ++ q) = (waits p).after q :=
  Scheduler.after_append ..

theorem marked_waits (h : List (Occurrence J)) :
    (waits h).marked = accepted (h.rtakeWhile keeps) := by
  induction h using List.reverseRecOn with
  | nil => rfl
  | append_singleton h e ih =>
    have last : waits (h ++ [e]) = e.apply (waits h) := waits_append h [e]
    rw [last, List.rtakeWhile_concat]
    cases e with
    | mark id job ok => cases ok <;> simp [keeps, apply, ih, accepted, accepted?]
    | begin | clear => rfl
    | _ =>
      simp only [keeps, if_true, accepted, List.filterMap_append]
      exact ih.trans (List.append_nil _).symm

/-- What a flush has done so far. -/
theorem course_of_admits (admits : ({} : Scheduler J).Admits (p ++ .begin :: (ds ++ q)))
    (inner : ∀ d ∈ ds, d.Inner) :
    (waits p).marked = turns ds ++ (waits (p ++ .begin :: ds)).running ∧
      (waits (p ++ .begin :: ds)).marked = accepted ds := by
  have during := (Scheduler.admits_append.mp (Scheduler.admits_append.mp admits).2.2).1
  obtain ⟨running, marked⟩ := Scheduler.after_inner inner during
  rw [waits_append]
  exact ⟨running, marked⟩

theorem lawful_of_admits (admits : ({} : Scheduler J).Admits h) (flat : Flat h) : Lawful h where
  lists := by
    rintro p q rfl
    exact Scheduler.lists_after .empty (Scheduler.admits_append.mp admits).1
  marked p q _ := marked_waits p
  refused := by
    rintro p id job ok q rfl
    have answer : ((waits p).mark id job).1 = ok := admits.fits
    rw [Scheduler.mark_accepted] at answer
    rw [← answer, Bool.not_eq_false', Scheduler.isDirty, Bool.or_eq_true, or_comm]
  course := by
    rintro p ds q rfl inner
    exact course_of_admits admits inner
  flush := by
    rintro p q rfl
    obtain ⟨ds, last, q', rfl, inner, ends⟩ := flat.exists_end rfl
    obtain ⟨running, marked⟩ := course_of_admits admits inner
    rw [← List.cons_append, ← List.append_assoc] at admits
    have fits : last.Fits (waits (p ++ .begin :: ds)) := admits.fits
    refine ⟨ds, last, q', rfl, inner, ?_, ?_⟩
    · rw [← List.cons_append, ← List.append_assoc, waits_append, ← marked]
      cases last with
      | finish => exact congrArg (Scheduler.mk _) fits
      | fail => rfl
      | _ => exact ends.elim
    · cases last with
      | finish =>
        have none : (waits (p ++ .begin :: ds)).running = [] := fits
        exact .inl ⟨rfl, by rw [running, none, List.append_nil]⟩
      | fail => exact .inr ⟨rfl, _, running⟩
      | _ => exact ends.elim

end Occurrence

end ReactiveQuery
