import ReactiveQuery.World

/-! Running activities.  What an activity gives and leaves is told by the activities it is made of,
and two activities are related when they give related results from related worlds. -/

namespace ReactiveQuery

section
variable {ε ε' σ α β : Type} {x : ExceptT ε (StateM σ) α} {f : α → ExceptT ε (StateM σ) β}

@[simp] theorem Except.mapError_ok (g : ε → ε') (a : α) :
    (Except.ok a : Except ε α).mapError g = .ok a := rfl

@[simp] theorem Except.mapError_error (g : ε → ε') (e : ε) :
    (Except.error e : Except ε α).mapError g = .error (g e) := rfl

theorem run_bind (x : ExceptT ε (StateM σ) α) (f : α → ExceptT ε (StateM σ) β) (s : σ) :
    (x >>= f).run.run s = match x.run.run s with
      | (.ok a, t) => (f a).run.run t
      | (.error e, t) => (.error e, t) := by
  change (match x.run.run s with | (r, t) => (ExceptT.bindCont f r).run t) = _
  rcases x.run.run s with ⟨_ | _, _⟩ <;> rfl

/-- A sequence that succeeds has succeeded in its first part, and then in the rest. -/
theorem ok_bind {s t : σ} {b : β} (h : (x >>= f).run.run s = (.ok b, t)) :
    ∃ a u, x.run.run s = (.ok a, u) ∧ (f a).run.run u = (.ok b, t) := by
  rw [run_bind] at h
  rcases first : x.run.run s with ⟨_ | a, u⟩ <;> rw [first] at h
  · cases h
  · exact ⟨a, u, rfl, h⟩

end

namespace Act

variable {α β γ δ : Type}

/-- What an activity gives in a world, and the world that it leaves. -/
def on (act : Act α) (w : World) : Except Fault α × World := act.run.run w

@[simp] theorem on_pure (a : α) (w : World) : (pure a : Act α).on w = (.ok a, w) := rfl

@[simp] theorem on_throw (e : Fault) (w : World) : (throw e : Act α).on w = (.error e, w) := rfl

@[simp] theorem on_raise (e : Error) (w : World) :
    (raise e : Act α).on w = (.error (.raised e), w) := rfl

@[simp] theorem on_get (w : World) : (get : Act World).on w = (.ok w, w) := rfl

@[simp] theorem on_modify (f : World → World) (w : World) :
    (modify f : Act Unit).on w = (.ok (), f w) := rfl

theorem on_bind (x : Act α) (f : α → Act β) (w : World) :
    (x >>= f).on w = match x.on w with
      | (.ok a, v) => (f a).on v
      | (.error e, v) => (.error e, v) := by
  unfold Act.on
  rw [run_bind]
  rcases x.run.run w with ⟨_ | _, _⟩ <;> rfl

theorem on_bind_ok {x : Act α} {f : α → Act β} {w v : World} {a : α}
    (h : x.on w = (.ok a, v)) : (x >>= f).on w = (f a).on v := by rw [on_bind, h]

theorem on_bind_error {x : Act α} {f : α → Act β} {w v : World} {e : Fault}
    (h : x.on w = (.error e, v)) : (x >>= f).on w = (.error e, v) := by rw [on_bind, h]

@[simp] theorem on_ofOption (o : Option α) (w : World) :
    (ofOption o).on w = ((o.map .ok).getD (.error .endless), w) := by cases o <;> rfl

@[simp] theorem on_ask (question : Heap → Option α) (w : World) :
    (ask question).on w = (((question w.heap).map .ok).getD (.error .endless), w) :=
  on_ofOption (question w.heap) w

@[simp] theorem on_ofExcept (r : Except Error α) (w : World) :
    (ofExcept r).on w = (r.mapError .raised, w) := by cases r <;> rfl

@[simp] theorem on_holding (values : List Value) (act : Act α) (w : World) :
    (holding values act).on w =
      ((act.on { w with held := values ++ w.held }).1,
        { (act.on { w with held := values ++ w.held }).2 with held := w.held }) := rfl

theorem on_attempt (act : Act α) (w : World) :
    (attempt act).on w = match act.on w with
      | (.ok a, v) => (.ok (.ok a), v)
      | (.error (.raised e), v) => (.ok (.error e), v)
      | (.error .endless, v) => (.error .endless, v) := by
  unfold attempt Act.on
  rw [ExceptT.run_mk, StateT.run_bind]
  rcases act.run.run w with ⟨(_ | _) | _, _⟩ <;> rfl

@[simp] theorem on_onHeap (change : Heap → α × Heap) (w : World) :
    (onHeap change).on w = (.ok (change w.heap).1, { w with heap := (change w.heap).2 }) := rfl

@[simp] theorem on_changeHeap (change : Heap → Heap) (w : World) :
    (changeHeap change).on w = (.ok (), { w with heap := change w.heap }) := rfl

@[simp] theorem on_onBus (change : Bus → α × Bus) (w : World) :
    (onBus change).on w = (.ok (change w.bus).1, { w with bus := (change w.bus).2 }) := rfl

@[simp] theorem on_changeBus (change : Bus → Bus) (w : World) :
    (changeBus change).on w = (.ok (), { w with bus := change w.bus }) := rfl

@[simp] theorem on_log (entry : LogEntry) (w : World) :
    (log entry).on w = (.ok (), { w with log := entry :: w.log }) := rfl

@[simp] theorem on_compile (c : CompileScope → Compile α) (w : World) :
    (compile c).on w = (((c ⟨w.heap, w.extensions⟩).run.run w.patterns).1,
      { w with patterns := ((c ⟨w.heap, w.extensions⟩).run.run w.patterns).2 }) := rfl

/-- What is held only matters while something runs. -/
@[simp] theorem holding_pure (values : List Value) (a : α) :
    holding values (pure a : Act α) = pure a := rfl

/-- An activity succeeds in a world: it gives a result and leaves a world. -/
def Gives (act : Act α) (w : World) (a : α) (v : World) : Prop := act.on w = (.ok a, v)

section
variable {x : Act α} {w v : World} {a : α}

theorem Gives.on (h : x.Gives w a v) : x.on w = (.ok a, v) := h

/-- What an activity comes to is told by the world it starts in. -/
theorem Gives.unique {b : α} {u : World} (first : x.Gives w a v) (second : x.Gives w b u) :
    a = b ∧ v = u := by
  obtain ⟨same, world⟩ := Prod.mk.inj (first.symm.trans second)
  exact ⟨Except.ok.inj same, world⟩

@[simp] theorem gives_pure {b : α} : (pure b : Act α).Gives w a v ↔ b = a ∧ w = v := by
  simp [Gives]

@[simp] theorem gives_throw {e : Fault} : ¬(throw e : Act α).Gives w a v := nofun

@[simp] theorem gives_raise {e : Error} : ¬(raise e : Act α).Gives w a v := nofun

@[simp] theorem gives_get {u : World} : (get : Act World).Gives w u v ↔ w = u ∧ w = v := by
  simp [Gives]

@[simp] theorem gives_modify {f : World → World} {a : Unit} :
    (modify f : Act Unit).Gives w a v ↔ v = f w := by
  simp [Gives, eq_comm]

/-- A sequence succeeds when its parts do, one after the other. -/
@[simp] theorem gives_bind {f : α → Act β} {b : β} :
    (x >>= f).Gives w b v ↔ ∃ a u, x.Gives w a u ∧ (f a).Gives u b v := by
  unfold Gives
  rw [on_bind]
  rcases x.on w with ⟨_ | a, u⟩
  · simp
  · constructor
    · exact fun rest => ⟨a, u, rfl, rest⟩
    · rintro ⟨_, _, ⟨rfl, rfl⟩, rest⟩
      exact rest

@[simp] theorem gives_map {f : α → β} {b : β} :
    (f <$> x).Gives w b v ↔ ∃ a, x.Gives w a v ∧ b = f a := by
  rw [map_eq_pure_bind, gives_bind]
  constructor
  · rintro ⟨a, u, first, last⟩
    obtain ⟨rfl, rfl⟩ := gives_pure.mp last
    exact ⟨a, first, rfl⟩
  · rintro ⟨a, first, rfl⟩
    exact ⟨a, v, first, gives_pure.mpr ⟨rfl, rfl⟩⟩

@[simp] theorem gives_ask {question : Heap → Option α} :
    (ask question).Gives w a v ↔ question w.heap = some a ∧ w = v := by
  unfold Gives
  rw [on_ask]
  cases question w.heap <;> simp

@[simp] theorem gives_ofExcept {r : Except Error α} :
    (ofExcept r).Gives w a v ↔ r = .ok a ∧ w = v := by
  unfold Gives
  rw [on_ofExcept]
  cases r <;> simp

@[simp] theorem gives_onHeap {change : Heap → α × Heap} :
    (onHeap change).Gives w a v ↔
      a = (change w.heap).1 ∧ v = { w with heap := (change w.heap).2 } := by
  simp [Gives, eq_comm]

@[simp] theorem gives_changeHeap {change : Heap → Heap} {a : Unit} :
    (changeHeap change).Gives w a v ↔ v = { w with heap := change w.heap } := by
  simp [Gives, eq_comm]

@[simp] theorem gives_onBus {change : Bus → α × Bus} :
    (onBus change).Gives w a v ↔
      a = (change w.bus).1 ∧ v = { w with bus := (change w.bus).2 } := by
  simp [Gives, eq_comm]

@[simp] theorem gives_changeBus {change : Bus → Bus} {a : Unit} :
    (changeBus change).Gives w a v ↔ v = { w with bus := change w.bus } := by
  simp [Gives, eq_comm]

/-- What is held while an activity runs is let go afterwards. -/
@[simp] theorem gives_holding {values : List Value} :
    (holding values x).Gives w a v ↔
      ∃ u, x.Gives { w with held := values ++ w.held } a u ∧ v = { u with held := w.held } := by
  unfold Gives
  rw [on_holding]
  rcases x.on { w with held := values ++ w.held } with ⟨_ | b, u⟩
  · simp
  · constructor
    · rintro ⟨rfl, rfl⟩
      exact ⟨u, rfl, rfl⟩
    · rintro ⟨_, ⟨rfl, rfl⟩, rfl⟩
      rfl

@[simp] theorem gives_compile {c : CompileScope → Compile α} :
    (compile c).Gives w a v ↔ ∃ patterns,
      (c ⟨w.heap, w.extensions⟩).run.run w.patterns = (.ok a, patterns) ∧
        v = { w with patterns } := by
  unfold Gives
  rw [on_compile]
  rcases (c ⟨w.heap, w.extensions⟩).run.run w.patterns with ⟨_ | b, patterns⟩
  · exact ⟨nofun, nofun⟩
  · constructor
    · rintro ⟨rfl, rfl⟩
      exact ⟨patterns, rfl, rfl⟩
    · rintro ⟨_, ⟨rfl, rfl⟩, rfl⟩
      rfl

/-- An attempt succeeds with what its activity comes to, unless that never ends. -/
theorem gives_attempt {r : Except Error α} :
    (attempt x).Gives w r v ↔
      (∃ a, r = .ok a ∧ x.Gives w a v) ∨ ∃ e, r = .error e ∧ x.on w = (.error (.raised e), v) := by
  unfold Gives
  rw [on_attempt]
  rcases x.on w with ⟨(e | _) | a, u⟩
  · constructor
    · rintro ⟨rfl, rfl⟩
      exact .inr ⟨e, rfl, rfl⟩
    · rintro (⟨_, _, ⟨⟩⟩ | ⟨_, rfl, ⟨⟩⟩)
      rfl
  · simp
  · constructor
    · rintro ⟨rfl, rfl⟩
      exact .inl ⟨a, rfl, rfl⟩
    · rintro (⟨_, rfl, ⟨⟩⟩ | ⟨_, _, ⟨⟩⟩)
      rfl

end

/-- How the outcomes of two activities compare: related results or the same fault, in related
worlds.  Where `lax`, an activity that never ends compares with anything. -/
inductive Compare (lax : Prop) (R : World → World → Prop) (V : α → β → Prop) :
    Except Fault α × World → Except Fault β × World → Prop where
  | ok {a b u v} (value : V a b) (world : R u v) : Compare lax R V (.ok a, u) (.ok b, v)
  | error {e u v} (world : R u v) : Compare lax R V (.error e, u) (.error e, v)
  | endless {u y} (free : lax) : Compare lax R V (.error .endless, u) y

namespace Compare

variable {R : World → World → Prop}

theorem result {x y : Except Fault α × World} (h : Compare False R Eq x y) : x.1 = y.1 := by
  cases h with
  | ok value _ => rw [value]
  | error _ => rfl
  | endless free => exact free.elim

theorem world {V : α → β → Prop} {x : Except Fault α × World} {y : Except Fault β × World}
    (h : Compare False R V x y) : R x.2 y.2 := by
  cases h with
  | ok _ world => exact world
  | error world => exact world
  | endless free => exact free.elim

theorem mono {V V' : α → β → Prop} {R' : World → World → Prop} {x : Except Fault α × World}
    {y : Except Fault β × World} {lax : Prop} (h : Compare lax R V x y)
    (values : ∀ a b, V a b → V' a b) (worlds : ∀ u v, R u v → R' u v) : Compare lax R' V' x y := by
  cases h with
  | ok value world => exact .ok (values _ _ value) (worlds _ _ world)
  | error world => exact .error (worlds _ _ world)
  | endless free => exact .endless free

theorem swap {V : α → β → Prop} {x : Except Fault α × World} {y : Except Fault β × World}
    (h : Compare False R V x y) : Compare False (fun v u => R u v) (fun b a => V a b) y x := by
  cases h with
  | ok value world => exact .ok value world
  | error world => exact .error world
  | endless free => exact free.elim

end Compare

/-- From related worlds two activities come to outcomes that compare. -/
def Related (lax : Prop) (R : World → World → Prop) (V : α → β → Prop) (x : Act α) (y : Act β) :
    Prop := ∀ u v, R u v → Compare lax R V (x.on u) (y.on v)

namespace Related

variable {lax : Prop} {R : World → World → Prop} {V : α → β → Prop} {W : γ → δ → Prop}

theorem ret {a : α} {b : β} (h : V a b) : Related lax R V (pure a) (pure b) :=
  fun _ _ world => .ok h world

theorem bind {x : Act α} {y : Act β} {f : α → Act γ} {g : β → Act δ}
    (first : Related lax R V x y) (rest : ∀ a b, V a b → Related lax R W (f a) (g b)) :
    Related lax R W (x >>= f) (y >>= g) := by
  intro u v world
  have outcome := first u v world
  rw [on_bind, on_bind]
  generalize x.on u = p at outcome ⊢
  generalize y.on v = q at outcome ⊢
  cases outcome with
  | ok value after => exact rest _ _ value _ _ after
  | error after => exact .error after
  | endless free => exact .endless free

/-- What activities hold on to may differ as far as the relation of worlds allows. -/
theorem holding {held held' : List Value} {x : Act α} {y : Act β}
    (enter : ∀ u v, R u v →
      R { u with held := held ++ u.held } { v with held := held' ++ v.held })
    (leave : ∀ u v u' v', R u v → R u' v' →
      R { u' with held := u.held } { v' with held := v.held })
    (h : Related lax R V x y) : Related lax R V (holding held x) (Act.holding held' y) := by
  intro u v world
  have outcome := h _ _ (enter u v world)
  rw [on_holding, on_holding]
  generalize x.on { u with held := held ++ u.held } = p at outcome ⊢
  generalize y.on { v with held := held' ++ v.held } = q at outcome ⊢
  cases outcome with
  | ok value after => exact .ok value (leave _ _ _ _ world after)
  | error after => exact .error (leave _ _ _ _ world after)
  | endless free => exact .endless free

end Related

end Act

end ReactiveQuery
