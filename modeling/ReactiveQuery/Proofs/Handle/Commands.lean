import ReactiveQuery.Proofs.Handle.Dispatch

/-! Commands that let registrations be.  They and the extension functions there are make up no
handles: what they reply with was named, read or made. -/

namespace ReactiveQuery

variable {M : Manner} {P : Nat → Prop} {n : Nat}

theorem Heap.Within.attr {h : Heap} (knows : h.Within P) (r : Ref) (key : String) :
    Known P h.cells.size (h.attr r key).places := by
  unfold Heap.attr
  split
  · exact (knows.fields _).get?
  · next first =>
    have member := List.mem_of_mem_head? first
    exact Known.get? (Known.items_iff.mp (knows.items r) _ member)
  · exact .nil

open Act.Discreet

namespace Act.Discreet

variable {α : Type} {Q : Nat → α → Prop}

/-- The names on a desk may come to stand for other known values. -/
theorem changeDesk {change : Desk → Desk} (handles : ∀ d, (change d).handles = d.handles)
    (listeners : ∀ d, (change d).listeners = d.listeners)
    (names : ∀ d : Desk, (∀ e ∈ d.names, Known P n e.2.places) →
      ∀ e ∈ (change d).names, Known P n e.2.places)
    (weak : ∀ d : Desk, (∀ e ∈ d.weak, Known P n [e.2.loc]) →
      ∀ e ∈ (change d).weak, Known P n [e.2.loc]) :
    Discreet M P n (Act.changeDesk change) fun _ _ => True :=
  of_inert (fun w => ⟨.refl _, rfl, handles w.desk, listeners w.desk⟩) fun w size knows => by
    subst size
    exact ⟨⟨knows.heap, knows.bus, names w.desk knows.names, weak w.desk knows.weak, knows.cache⟩,
      fun _ _ => trivial⟩

theorem bindName (name : String) {v : Value} (known : Known P n v.places) :
    Discreet M P n (Act.bindName name v) fun _ _ => True :=
  changeDesk (fun _ => rfl) (fun _ => rfl) (fun d names e member => by
    rcases FieldMap.mem_insert member with same | old
    · exact same ▸ known
    · exact names e old) fun _ => id

theorem dropName (name : String) : Discreet M P n
    (Act.changeDesk fun d => { d with names := FieldMap.erase name d.names }) fun _ _ => True :=
  changeDesk (fun _ => rfl) (fun _ => rfl)
    (fun _ names e member => names e (List.mem_of_mem_filter member)) fun _ => id

theorem named (name : String) : Discreet M P n (Act.named name) fun m v => Known P m v.places :=
  world fun w size knows => ret (by
    cases found : FieldMap.get? name w.desk.names with
    | none => exact .nil
    | some v => exact size ▸ knows.names _ (FieldMap.mem_of_get? found))

theorem read (t : Term) : Discreet M P n (Act.read t) fun m v => Known P m v.places :=
  world fun w size knows => onHeap (fun h => t.extends_read _ h) fun h at_ within =>
    t.within_read within (by rw [at_, ← size]; exact knows.names)

theorem readAll (ts : List Term) :
    Discreet M P n (Act.readAll ts) fun m vs => Known P m (Value.placesOfItems vs) :=
  (mapM (fun _ _ _ more known => known.later more) fun t _ _ _ => read t).mono
    fun _ _ _ all => Known.items_iff.mpr all

theorem readFields (pairs : List (String × Term)) :
    Discreet M P n (Act.readFields pairs) fun m fields => Known P m (Value.placesOfFields fields) :=
  (mapM (R := fun m (e : String × Value) => Known P m e.2.places)
    (fun _ _ _ more known => known.later more) fun e _ _ _ =>
      (read e.2).bind fun _ v _ known => ret (a := (e.1, v)) known).bind
        fun _ _ _ all => ret (.ofPairs all)

theorem targetId? (target : Target) : Discreet M P n (Act.targetId? target) fun _ _ => True := by
  cases target with
  | named name => exact (named name).seq fun _ _ _ => ret trivial
  | _ => exact ret trivial

theorem readEvent (e : EventDraft) :
    Discreet M P n (Act.readEvent e) fun m e => Known P m e.places :=
  (targetId? e.target).seq fun _ _ _ => (read e.new).bind fun _ _ _ new =>
    (read e.old).bind fun _ _ more old => ret (Known.append_iff.mpr ⟨new.later more, old⟩)

end Act.Discreet

namespace Extension

/-- Calls are counted. -/
theorem discreet_countCall (serial : Nat) :
    Act.Discreet M P n (countCall serial) fun _ _ => True :=
  of_inert (fun _ => ⟨.refl _, rfl, rfl, rfl⟩) fun _ _ knows =>
    ⟨knows.of_same rfl rfl rfl rfl, fun _ _ => trivial⟩

section
variable {dispatch : Act Unit} (dispatches : ∀ m, Act.Discreet M P m dispatch fun _ _ => True)
include dispatches

theorem discreet_bump (target field : Value) :
    Act.Discreet M P n (bump dispatch target field) fun m v => Known P m v.places := by
  cases target with
  | record r =>
    refine (ask (Q := fun _ _ => True) fun _ _ _ _ _ => trivial).seq fun _ _ _ =>
      (ask (Q := fun _ _ => True) fun _ _ _ _ _ => trivial).seq fun _ _ _ =>
        (setField dispatches r _ ?_).seq fun _ _ _ => ret .nil
    exact .nil
  | _ => exact ret .nil

theorem discreet_set (target field : Value) {value : Value} (known : Known P n value.places) :
    Act.Discreet M P n (set dispatch target field value) fun m v => Known P m v.places := by
  cases target with
  | record r =>
    exact (ask (Q := fun _ _ => True) fun _ _ _ _ _ => trivial).seq fun _ _ more =>
      (setField dispatches r _ (known.later more)).seq fun _ _ further =>
        ret (known.later (Nat.le_trans more further))
  | _ => exact ret known

theorem discreet_push (target : Value) {value : Value} (known : Known P n value.places) :
    Act.Discreet M P n (push dispatch target value) fun m v => Known P m v.places := by
  cases target with
  | collection r =>
    exact (change dispatches r (ItemChange.draws_push value)
      (Known.append_iff.mpr ⟨known, .nil⟩)).seq fun _ _ _ => world fun _ _ _ => ret .nil
  | _ => exact ret .nil

end

/-- The extension functions there are make up no handles. -/
theorem discreet_invoke {again : Reentry} (discreet : again.Discreet M) (P : Nat → Prop)
    {n : Nat} (e : Extension) {ctx : Context} {args : List Value} (params : Known P n ctx.places)
    (known : Known P n (Value.placesOfItems args)) :
    Act.Discreet M P n (e.invoke again.call again.dispatch ctx args)
      fun m v => Known P m v.places := by
  obtain ⟨serial, action⟩ := e
  have dispatches := discreet.dispatch P
  cases action with
  | id => exact (log _).seq fun _ _ more => ret (known.getElem?.later more)
  | args => exact (log _).seq fun _ _ more => freshArray (known.later more)
  | tick => exact (log _).seq fun _ _ _ => (discreet_countCall serial).seq fun _ _ _ => ret .nil
  | ctx =>
    obtain ⟨source, held⟩ := Known.cons_iff.mp params
    refine (log _).seq fun m _ more => (freshArray (held.later more)).bind fun k v further given =>
      freshArray ?_
    have all := Nat.le_trans more further
    exact Known.append_iff.mpr ⟨(Known.cons_iff.mpr ⟨source, .nil⟩ : Known P n _).later all,
      Known.append_iff.mpr ⟨given, .nil⟩⟩
  | fail =>
    exact (log _).seq fun _ _ _ => (ask (Q := fun _ _ => True) fun _ _ _ _ _ => trivial).seq
      fun _ _ _ => raise _
  | bump => exact (log _).seq fun _ _ _ => discreet_bump dispatches _ _
  | set => exact (log _).seq fun _ _ more => discreet_set dispatches _ _ (known.getElem?.later more)
  | push => exact (log _).seq fun _ _ more => discreet_push dispatches _ (known.getElem?.later more)
  | select =>
    have asked : ∀ (m : Nat) (text : String), n ≤ m → Act.Discreet M P m (do
        return Value.collection (← Act.query again.call ctx.source text args.tail))
          fun m v => Known P m v.places := fun m text more => by
      refine (query (discreet.call P) text ?_).bind fun _ _ _ given => ret
        (Known.cons_iff.mpr ⟨given, .nil⟩)
      refine Known.cons_iff.mpr ⟨((Known.cons_iff.mp params).1.imp_left
        (Nat.lt_of_lt_of_le · more)), ?_⟩
      exact Known.items_iff.mpr fun v member =>
        (Known.items_iff.mp known v (List.mem_of_mem_tail member)).later more
    cases args with
    | nil => exact (ret (Q := fun _ _ => True) trivial).seq fun m text more => asked m text more
    | cons v rest =>
      exact (ask (Q := fun _ _ => True) fun _ _ _ _ _ => trivial).seq
        fun m text more => asked m text more

end Extension

section
variable {dispatch : Act Unit} (dispatches : ∀ m, Act.Discreet M P m dispatch fun _ _ => True)
include dispatches

theorem RecordCommand.discreet_perform (r : Ref) (c : RecordCommand) :
    Act.Discreet M P n (c.perform dispatch r) fun m reply => Known P m reply.places := by
  cases c with
  | write key t =>
    exact (Act.Discreet.read t).bind fun _ v _ known =>
      ((setField dispatches r key known).holding [v]).seq fun _ _ _ => ret .nil
  | read key => exact world fun w size knows => ret (size ▸ (knows.heap.fields r).get?)
  | snapshot =>
    exact world fun w size knows => (freshObject (size ▸ knows.heap.fields r)).bind
      fun _ _ _ known => ret known
  | hasField | fieldNames => exact world fun _ _ _ => ret .nil

/-- Does a command on a collection leave alone what the collection retains? -/
def CollectionCommand.Modest : CollectionCommand → Prop
  | .retain _ => False
  | _ => True

theorem CollectionCommand.discreet_perform {r : Ref} (here : r.loc < n ∧ P r.loc)
    {c : CollectionCommand} (modest : c.Modest) :
    Act.Discreet M P n (c.perform dispatch r) fun m reply => Known P m reply.places := by
  have changes : ∀ {m : Nat} {f : ItemChange} {values : List Value}, f.Draws values →
      Known P m (Value.placesOfItems values) →
      Act.Discreet M P m (perform.change dispatch r f) fun k reply => Known P k reply.places :=
    fun draws known => (change dispatches r draws known).seq fun _ _ _ => ret .nil
  have takes : ∀ {f : ItemChange}, f.Draws [] →
      Act.Discreet M P n (perform.taken dispatch r f) fun k reply => Known P k reply.places :=
    fun draws => (change dispatches r draws .nil).bind fun m out _ known => ret (by
      cases out with
      | nil => exact .nil
      | cons v rest => exact (Known.append_iff.mp known).1)
  have single : ∀ {m : Nat} {v : Value}, Known P m v.places →
      Known P m (Value.placesOfItems [v]) := fun known => Known.append_iff.mpr ⟨known, .nil⟩
  cases c with
  | push t =>
    exact (read t).bind fun _ v _ known => changes (ItemChange.draws_push v) (single known)
  | unshift t =>
    exact (read t).bind fun _ v _ known => changes (ItemChange.draws_unshift v) (single known)
  | insert index t =>
    exact (read t).bind fun _ v _ known => changes (ItemChange.draws_insert index v) (single known)
  | setItem index t =>
    exact (read t).bind fun _ v _ known => changes (ItemChange.draws_setItem index v) (single known)
  | replaceAll items =>
    exact (readAll items).bind fun _ vs _ known => changes (ItemChange.draws_replaceAll vs) known
  | pop => exact takes ItemChange.draws_pop
  | shift => exact takes ItemChange.draws_shift
  | remove index => exact takes (ItemChange.draws_remove index)
  | reverse => exact changes ItemChange.draws_reverse .nil
  | sortBy ascending => exact (sortItems dispatches r ascending).seq fun _ _ _ => ret .nil
  | setAttr key t =>
    exact (read t).bind fun _ _ _ known => world fun _ _ _ =>
      (Act.Discreet.setAttr dispatches key known _).seq fun _ _ _ => ret .nil
  | attr key => exact world fun w size knows => ret (size ▸ knows.heap.attr r key)
  | item index => exact world fun w size knows => ret (size ▸ (knows.heap.items r).getElem?)
  | length => exact world fun _ _ _ => ret .nil
  | containsObject target =>
    refine (targetId? target).seq fun _ id _ => ?_
    cases id with
    | none => exact ret .nil
    | some id => exact world fun _ _ _ => ret .nil
  | retain t => exact modest.elim
  | weaken name =>
    have names : Act.Discreet M P n
        (Act.changeDesk fun d => { d with weak := FieldMap.insert name r d.weak }) fun _ _ => True :=
      changeDesk (fun _ => rfl) (fun _ => rfl) (fun _ => id) fun d weak e member => by
        rcases FieldMap.mem_insert member with same | old
        · exact same ▸ Known.cons_iff.mpr ⟨here, .nil⟩
        · exact weak e old
    exact names.seq fun _ _ _ => ret .nil

end

namespace Command

mutual
/-- A command that leaves registrations and jobs alone, in all its parts. -/
def Modest : Command → Prop
  | .bind _ inner => inner.Modest
  | .batch cs => AllModest cs
  | .onCollection _ c => c.Modest
  | .live .. | .liveOver .. | .listen .. | .unlisten .. | .subscribe .. | .unsubscribe ..
  | .mark .. | .flush | .clear => False
  | _ => True

def AllModest : List Command → Prop
  | [] => True
  | c :: cs => c.Modest ∧ AllModest cs
end

theorem allModest_iff : ∀ {cs : List Command}, AllModest cs ↔ ∀ c ∈ cs, c.Modest
  | [] => by simp [AllModest]
  | c :: cs => by rw [AllModest, allModest_iff, List.forall_mem_cons]

theorem closed_modest : (Scope.clean Modest).Closed where
  bind modest := modest
  batch modest := allModest_iff.mp modest
  listen modest := False.elim modest
  subscribe modest := False.elim modest
  mark modest := modest
  flush modest := modest
  clear modest := modest
  all scheduler := scheduler.elim

end Command

namespace Act.Discreet

theorem register (name : String) (action : ExtensionAction) :
    Discreet M P n (Act.register name action) fun _ _ => True :=
  of_inert (fun _ => ⟨.refl _, rfl, rfl, rfl⟩) fun _ _ knows =>
    ⟨knows.of_same rfl rfl rfl rfl, fun _ _ => trivial⟩

theorem pathText (p : Path) : Discreet M P n (Act.pathText p) fun _ _ => True :=
  (ask (Q := fun _ _ => True) fun _ _ _ _ _ => trivial).seq fun _ _ _ =>
    (ask (Q := fun _ _ => True) fun _ _ _ _ _ => trivial).seq fun _ _ _ => ret trivial

/-- A query over a named source knows the source and what it is given. -/
theorem overSource (source : String) (params : List Term) {run : Ref → List Value → Act Ref}
    (runs : ∀ m r vs, n ≤ m → Known P m (Context.mk r vs).places →
      Discreet M P m (run r vs) fun k r => r.loc < k ∧ P r.loc) :
    Discreet M P n (Act.overSource source params run) fun m reply => Known P m reply.places := by
  refine (named source).bind fun m v more known => ?_
  cases v with
  | collection r =>
    have source := (Known.cons_iff.mp known).1
    refine (readAll params).bind fun k vs further given => ?_
    have there : Known P k (r.loc :: Value.placesOfItems vs) :=
      Known.cons_iff.mpr ⟨source.imp_left (Nat.lt_of_lt_of_le · further), given⟩
    exact ((runs k r vs (Nat.le_trans more further) there).holding _).bind fun _ _ _ made =>
      ret (Known.cons_iff.mpr ⟨made, .nil⟩)
  | _ => exact ret .nil

end Act.Discreet

section
set_option linter.unusedSectionVars false
variable {again : Reentry} (discreet : again.Discreet M)
include discreet

mutual
/-- Whatever a modest command replies with was known before or has been made. -/
theorem Command.discreet_perform : ∀ (c : Command) {n : Nat}, c.Modest →
    Act.Discreet M P n (c.perform again) fun m reply => Known P m reply.places
  | .bind name inner, _, modest => by
    rw [Command.perform]
    refine (Command.discreet_perform inner modest).bind fun m reply _ known => ?_
    cases reply with
    | value v => exact (bindName name known).seq fun _ _ more => ret (known.later more)
    | _ => exact ret .nil
  | .value t, _, _ => by
    rw [Command.perform]
    exact (read t).bind fun _ _ _ known => ret known
  | .newRecord fields placement, _, _ => by
    rw [Command.perform]
    refine (readFields fields).bind fun _ _ _ known => ?_
    cases placement with
    | none =>
      exact (Act.Discreet.newRecord known).bind fun _ _ _ made =>
        ret (Known.cons_iff.mpr ⟨made, .nil⟩)
    | some p =>
      exact (allocate p.id known rfl).bind fun _ _ _ made => ret (Known.cons_iff.mpr ⟨made, .nil⟩)
  | .newCollection items placement, _, _ => by
    rw [Command.perform]
    refine (readAll items).bind fun _ _ _ known => ?_
    cases placement with
    | none =>
      exact (Act.Discreet.newCollection known).bind fun _ _ _ made =>
        ret (Known.cons_iff.mpr ⟨made, .nil⟩)
    | some p =>
      exact (allocate p.id (Known.append_iff.mpr ⟨known, .nil⟩) rfl).bind fun _ _ _ made =>
        ret (Known.cons_iff.mpr ⟨made, .nil⟩)
  | .drop name, _, _ => by
    rw [Command.perform]
    exact world fun _ _ _ => (dropName name).seq fun _ _ _ => ret .nil
  | .upgrade name, n, _ => by
    rw [Command.perform]
    refine world fun w size knows => ?_
    split
    · exact ret .nil
    · next r found =>
      have here : Known P n [r.loc] := size ▸ knows.weak _ (FieldMap.mem_of_get? found)
      refine (isAlive r).bind fun m alive more _ => ret ?_
      cases alive with
      | false => exact .nil
      | true => exact here.later more
  | .onRecord name command, _, _ => by
    rw [Command.perform]
    refine (named name).bind fun m v _ _ => ?_
    cases v with
    | record r => exact holding _ (command.discreet_perform (discreet.dispatch P) r)
    | _ => exact ret .nil
  | .onCollection name command, _, modest => by
    rw [Command.perform]
    refine (named name).bind fun m v _ known => ?_
    cases v with
    | collection r =>
      have here := (Known.cons_iff.mp known).1
      exact holding _ (command.discreet_perform (discreet.dispatch P) here modest)
    | _ => exact ret .nil
  | .query source text params, _, _ => by
    rw [Command.perform]
    exact overSource source params fun _ _ _ _ known =>
      Act.Discreet.query (discreet.call P) text known
  | .definition text, _, _ => by
    rw [Command.perform]
    exact (Act.Discreet.definition text).seq fun _ _ _ => (mapM (R := fun _ _ => True)
      (fun _ _ _ _ _ => trivial) fun p _ _ _ => pathText p).seq fun _ _ _ => ret .nil
  | .register name action, _, _ => by
    rw [Command.perform]
    exact (Act.Discreet.register name action).seq fun _ _ _ => ret .nil
  | .registerAll extensions, _, _ => by
    rw [Command.perform]
    exact (forM fun (e : String × ExtensionAction) _ _ _ =>
      (Act.Discreet.register e.1 e.2).seq fun _ _ _ => ret trivial).seq fun _ _ _ => ret .nil
  | .hasExtension name, _, _ => by
    rw [Command.perform]
    exact world fun _ _ _ => ret .nil
  | .stats, _, _ => by
    rw [Command.perform]
    exact (settle.seq fun _ _ _ => world fun _ _ _ => ret (Q := fun _ _ => True) trivial).seq
      fun _ _ _ => ret .nil
  | .config, _, _ => by
    rw [Command.perform]
    exact world fun _ _ _ => ret .nil
  | .batch commands, _, modest => by
    rw [Command.perform]
    exact (Act.Discreet.batch (discreet.dispatch P)
      (fun _ _ => Command.discreet_performAll commands modest)
      fun _ _ _ _ => id).seq fun _ _ _ => ret .nil
  | .publish event, _, _ => by
    rw [Command.perform]
    exact (readEvent event).bind fun _ e _ known =>
      (Act.Discreet.publishAll (discreet.dispatch P) (List.forall_mem_singleton.mpr known)).seq
        fun _ _ _ => ret .nil
  | .publishAll events, _, _ => by
    rw [Command.perform]
    exact (mapM (fun _ _ _ more known => known.later more) fun e _ _ _ => readEvent e).bind
      fun _ es _ known => (Act.Discreet.publishAll (discreet.dispatch P) known).seq
        fun _ _ _ => ret .nil
  | .hasListeners target key, _, _ => by
    rw [Command.perform]
    exact settle.seq fun _ _ _ => (targetId? target).seq fun _ _ _ => world fun _ _ _ => ret .nil
  | .bus, _, _ => by
    rw [Command.perform]
    exact settle.seq fun _ _ _ => world fun _ _ _ => ret .nil
  | .nextId, _, _ => by
    rw [Command.perform]
    exact Act.Discreet.nextId.seq fun _ _ _ => ret .nil
  | .dirty ids, _, _ => by
    rw [Command.perform]
    exact world fun _ _ _ => ret .nil
  | .fail error, _, _ => by
    rw [Command.perform]
    exact raise error

theorem Command.discreet_performAll : ∀ (cs : List Command) {n : Nat}, Command.AllModest cs →
    Act.Discreet M P n (Command.performAll again cs) fun _ _ => True
  | [], _, _ => by
    rw [Command.performAll]
    exact ret trivial
  | c :: cs, _, modest => by
    rw [Command.performAll]
    refine (Command.discreet_perform c modest.1).attempt.seq fun _ result _ => ?_
    cases result with
    | ok _ => exact (Command.discreet_performAll cs modest.2).seq fun _ _ _ => ret trivial
    | error _ => exact (Command.discreet_performAll cs modest.2).seq fun _ _ _ => ret trivial
end

end

/-- With modest callbacks an engine makes up no handles. -/
theorem Engine.discreet_standard {S : Scope} (closed : S.Closed)
    (modest : ∀ c, M.commands c → c.Modest) : (Engine.standard closed).Discreet M where
  call discreet P _ e _ _ params known := e.discreet_invoke discreet P params known
  perform discreet _ _ c may := c.discreet_perform discreet (modest c may)

end ReactiveQuery
