import ReactiveQuery.Proofs.Bus.Delivery
import ReactiveQuery.Proofs.Bus.Routine

/-! What jobs, extension functions and commands do, they do as routines. -/

namespace ReactiveQuery

namespace Act

/-- An activity is what some routine does. -/
def Routed {α : Type} (act : Act α) : Prop := ∃ p : Routine α, p.act = act

namespace Routed

variable {α β : Type}

theorem aside {act : Act α} (aside : act.Aside) : Routed act := ⟨.own act aside, rfl⟩

theorem of_bus {act : Act α} (same : ∀ w, (act.on w).2.bus = w.bus) : Routed act :=
  aside (.of_bus same)

theorem of_own {act : Act α} (own : (Scope.clean fun _ => True).Own act) : Routed act :=
  aside (.of_own own)

theorem bind {x : Act α} {f : α → Act β} (first : Routed x) (rest : ∀ a, Routed (f a)) :
    Routed (x >>= f) := by
  obtain ⟨p, rfl⟩ := first
  obtain ⟨g, same⟩ := Classical.axiomOfChoice rest
  exact ⟨.bind p g, congrArg _ (funext same)⟩

theorem attempt {x : Act α} (routed : Routed x) : Routed (Act.attempt x) := by
  obtain ⟨p, rfl⟩ := routed
  exact ⟨.attempt p, rfl⟩

theorem holding {values : List Value} {x : Act α} (routed : Routed x) :
    Routed (Act.holding values x) := by
  obtain ⟨p, rfl⟩ := routed
  exact ⟨.holding values p, rfl⟩

theorem publishAll {dispatch : Act Unit} (skips : dispatch.Skips) (es : List Event) :
    Routed (Act.publishAll dispatch es) :=
  bind (aside (.enqueueAll es)) fun _ => ⟨.dispatch dispatch skips, rfl⟩

theorem batch {dispatch : Act Unit} {body : Act α} (skips : dispatch.Skips) (routed : Routed body) :
    Routed (Act.batch dispatch body) := by
  obtain ⟨p, rfl⟩ := routed
  exact ⟨.batch dispatch skips p, rfl⟩

theorem mark (id : Nat) (job : Job) : Routed (Act.onBus fun b =>
    let (accepted, scheduler) := b.scheduler.mark id job
    (accepted, { b with scheduler })) := ⟨.mark id job, rfl⟩

theorem clear : Routed (Act.changeBus ({ · with scheduler := {} })) := ⟨.clear, rfl⟩

theorem flushing {run : Job → Act Unit} (each : ∀ job, Routed (run job)) :
    Routed (Act.flushing run) := by
  obtain ⟨p, same⟩ := Classical.axiomOfChoice each
  refine ⟨.flush p, ?_⟩
  rw [Routine.act, funext same]

end Routed

end Act

/-- What an engine starts again inside itself, as routines. -/
structure Reentry.Routed (again : Reentry) : Prop where
  call : ∀ e ctx args, Act.Routed (again.call e ctx args)
  skips : again.dispatch.Skips
  perform : ∀ c, Act.Routed (again.perform c)

/-- A command that is not made of others, leaves none to callbacks and lets the scheduler be. -/
def Command.Plain : Command → Prop
  | .bind .. | .batch .. | .listen .. | .subscribe .. | .mark .. | .flush | .clear => False
  | _ => True

theorem Command.closed_plain : (Scope.clean Command.Plain).Closed :=
  ⟨nofun, nofun, nofun, nofun, nofun, nofun, nofun, nofun⟩

/-- Routines, as a conduct. -/
def Conduct.routed : Conduct where
  Has := Act.Routed
  still same := .of_bus fun w => (same w).bus
  inert same := .of_bus fun w => (same w).bus
  bind := .bind
  holding _ := .holding
  attempt := .attempt
  settle := .of_own .settle
  scope := .clean Command.Plain
  dispatches := Act.Skips
  nextId := .of_own .nextId
  setField _ _ _ := .of_bus fun _ => rfl
  setItems _ _ := .of_bus fun _ => rfl
  keep r _ := .of_own (.retain r _)
  attach source d params _ first :=
    .bind (.of_own (.newCollection [])) fun r =>
      .bind (.holding (.bind (.of_own (.attach r source d params)) fun _ => first r)) fun _ =>
        .of_bus fun _ => rfl
  tells _ := True
  tells_field _ _ _ _ := trivial
  tells_change _ _ _ _ _ := trivial
  tells_publish _ _ := trivial
  tells_publishAll _ _ := trivial
  publishAll skips events _ := .publishAll skips events
  batch skips routed := .batch skips routed
  reschedule may := nomatch may
  listen _ handle collection key := .of_own (.listen handle collection key fun _ _ => trivial)
  unlisten again handle := .of_own (.unlisten again handle)
  subscribe _ again listener target key :=
    .of_own (.register again listener target key fun _ _ => trivial)
  unsubscribe again listener target key := .of_own (.deregister again listener target key)

section
set_option linter.unusedSectionVars false
variable {again : Reentry} (routed : again.Routed)
include routed

theorem Reentry.Routed.allows : Conduct.routed.Allows again :=
  ⟨routed.call, routed.skips, fun c _ => routed.perform c⟩

theorem Job.routed_run (job : Job) :
    Act.Routed (job.run again.call again.dispatch again.perform) := by
  cases job with
  | script name commands =>
    exact .bind (.of_bus fun _ => rfl) fun _ => Act.has_performJob (T := Conduct.routed.toTrait)
      (K := fun _ => True) (fun c _ => routed.perform c) name commands fun _ _ => trivial
  | refresh => exact Act.has_run (C := .routed) routed.allows trivial

mutual
/-- Whatever a command does, a routine does. -/
theorem Command.routed_perform (c : Command) : Act.Routed (c.perform again) := by
  cases c with
  | bind name inner =>
    rw [Command.perform]
    refine .bind (Command.routed_perform inner) fun reply => ?_
    split <;> exact .of_bus fun _ => rfl
  | batch commands =>
    rw [Command.perform]
    exact .bind (.batch routed.skips (Command.routed_performAll commands)) fun _ =>
      .of_bus fun _ => rfl
  | listen handle collection key actions =>
    rw [Command.perform]
    exact .of_own (.listen handle collection key fun _ _ => trivial)
  | subscribe listener target key actions =>
    exact .of_own (.register again listener target key fun _ _ => trivial)
  | mark id name job =>
    rw [Command.perform]
    exact .bind (.mark id _) fun _ => .of_bus fun _ => rfl
  | flush =>
    rw [Command.perform, Act.flush_eq]
    exact .bind (.flushing (Job.routed_run routed)) fun _ => .of_bus fun _ => rfl
  | clear =>
    rw [Command.perform]
    exact .bind .clear fun _ => .of_bus fun _ => rfl
  | _ => exact Command.has_perform (C := .routed) Command.closed_plain routed.allows _ trivial

theorem Command.routed_performAll (cs : List Command) :
    Act.Routed (Command.performAll again cs) := by
  cases cs with
  | nil =>
    rw [Command.performAll]
    exact .of_bus fun _ => rfl
  | cons c cs =>
    rw [Command.performAll]
    refine .bind (.attempt (Command.routed_perform c)) fun result => ?_
    cases result <;>
      exact .bind (Command.routed_performAll cs) fun _ => .of_bus fun _ => rfl
end

end

theorem Reentry.routed_within (depth : Nat) : (within depth).Routed := by
  induction depth with
  | zero => exact ⟨fun _ _ _ => .of_bus fun _ => rfl, fun _ _ _ _ outcome ends =>
      absurd (Prod.mk.inj outcome).1.symm ends, fun _ => .of_bus fun _ => rfl⟩
  | succ depth ih =>
    exact ⟨fun e ctx args => Extension.has_invoke (C := .routed) ih.call ih.skips e ctx args,
      Act.skips_dispatchIfIdle (within depth), Command.routed_perform ih⟩

end ReactiveQuery
