import ReactiveQuery.Proofs.Query.Fitting
import ReactiveQuery.Proofs.Query.Locality

/-! Evaluation without effects.  An activity settles where it comes to an end in every world like
the given one and disturbs nothing.  Without calls, an evaluation that gives a value once settles,
and it gives this value whenever it is done, but for the tags of new containers. -/

namespace ReactiveQuery

/-- A world that has gone on to take tags, to read patterns and to note calls, and that may hold on
to other values; it is the same otherwise. -/
structure World.Undisturbed (w u : World) : Prop where
  heap : w.heap.Advances u.heap
  read : w.patterns.Reachable → u.patterns.Reachable
  same : u = { w with heap := u.heap, patterns := u.patterns, held := u.held, log := u.log }

namespace World.Undisturbed

variable {u v w : World}

theorem refl (w : World) : w.Undisturbed w := ⟨.refl _, id, rfl⟩

theorem trans (first : u.Undisturbed v) (second : v.Undisturbed w) : u.Undisturbed w where
  heap := first.heap.trans second.heap
  read := second.read ∘ first.read
  same := by rw [second.same, first.same]

theorem hold (w : World) (held : List Value) : w.Undisturbed { w with held } :=
  ⟨.refl _, id, rfl⟩

theorem cells (h : w.Undisturbed u) : u.heap.cells = w.heap.cells := by rw [h.heap.same]

end World.Undisturbed

namespace Act

variable {α : Type} {x : Act α} {w u v : World} {a : α}

/-- In every world like this one an activity comes to an end and disturbs nothing. -/
def Settles (x : Act α) (w : World) : Prop :=
  ∀ u, w.Undisturbed u → ∃ a v, x.Gives u a v ∧ u.Undisturbed v

/-- An activity gives a value on the way from one world to another. -/
def Came (x : Act α) (w : World) (a : α) (v : World) : Prop :=
  ∃ u u', w.Undisturbed u ∧ x.Gives u a u' ∧ u'.Undisturbed v

/-- An activity gives a value in a world like this one. -/
def Yields (x : Act α) (w : World) (a : α) : Prop := ∃ v, x.Came w a v

theorem Settles.after (settles : x.Settles w) (later : w.Undisturbed u) : x.Settles u :=
  fun u' on => settles u' (later.trans on)

theorem Came.before (came : x.Came u a v) (later : w.Undisturbed u) : x.Came w a v := by
  obtain ⟨s, t, before, gives, after⟩ := came
  exact ⟨s, t, later.trans before, gives, after⟩

theorem Came.after (came : x.Came w a u) (later : u.Undisturbed v) : x.Came w a v := by
  obtain ⟨s, t, before, gives, after⟩ := came
  exact ⟨s, t, before, gives, after.trans later⟩

theorem Came.yields (came : x.Came w a v) : x.Yields w a := ⟨v, came⟩

theorem Yields.before (yields : x.Yields u a) (later : w.Undisturbed u) : x.Yields w a := by
  obtain ⟨v, came⟩ := yields
  exact ⟨v, came.before later⟩

/-- Whatever is held meanwhile, the activity gives a value. -/
theorem Settles.holding (settles : x.Settles w) (later : w.Undisturbed u) (held : List Value) :
    ∃ a v, (Act.holding held x).Gives u a v ∧ u.Undisturbed v ∧ x.Came u a v := by
  have taken := World.Undisturbed.hold u (held ++ u.held)
  obtain ⟨a, v, gives, on⟩ := settles _ (later.trans taken)
  have after := World.Undisturbed.hold v u.held
  exact ⟨a, _, gives_holding.mpr ⟨v, gives, rfl⟩, (taken.trans on).trans after,
    _, v, taken, gives, after⟩

end Act

namespace Definition

variable {d : Definition} {call : Caller} {ctx : Context} {w u : World} {accept : Value → Bool}
  {items : List Value}

/-- Does the query sort the items, and not the rows? -/
def sortsFirst (d : Definition) : Bool := d.select.isSome && d.sortFirst

/-- No evaluation over the items fails or has effects: filtering tells which items match, projecting
gives the same by content whenever it is done, and keys can be read from what is sorted. -/
structure Effectless (d : Definition) (call : Caller) (ctx : Context) (w : World)
    (accept : Value → Bool) (items : List Value) : Prop where
  filter : ∀ item ∈ items, (d.accepts call ctx item).Settles w ∧
    ∀ kept, (d.accepts call ctx item).Yields w kept → kept = accept item
  project : ∀ item ∈ items.filter accept, (d.project call ctx item).Settles w ∧
    ∀ row row', (d.project call ctx item).Yields w row → (d.project call ctx item).Yields w row' →
      Value.same row row' = true
  itemKeys : ∀ keys, d.sort = some keys → d.sortsFirst = true → ∀ item ∈ items.filter accept,
    (SortKey.extract call ctx item [] keys).Settles w
  rowKeys : ∀ keys, d.sort = some keys → d.sortsFirst = false → ∀ item ∈ items.filter accept,
    ∀ row v, (d.project call ctx item).Came w row v →
      (SortKey.extract call ctx row [] keys).Settles v

end Definition

section
variable {size : Nat} {containers more : List Value} {h k : Heap}

/-- What fits goes on to fit, as later tags may stand for any containers. -/
theorem Heap.Fits.advance (fits : h.Fits containers size) (later : h.Advances k) :
    ∃ more, containers <+: more ∧ k.Fits more size := by
  have grown := List.prefix_append containers (List.replicate (k.nextTag - h.nextTag) Value.null)
  refine ⟨_, grown, ?_⟩
  have tags := later.tags
  rw [later.same]
  refine ⟨fits.sized, ?_, fun r v member => Value.fits_later grown v (fits.items r v member),
    fun r e member => Value.fits_later grown e.2 (fits.fields r e member)⟩
  rw [List.length_append, List.length_replicate, fits.tags, Nat.add_sub_cancel' tags]

/-- Tags that are taken later leave what fits. -/
theorem Value.Fits.inside {v : Value} (fits : v.Fits containers size) (next : Nat) :
    v.Inside (fun _ => True) (shiftTags containers.length next) :=
  ⟨fun _ _ => trivial, Value.retag_eq fun t used => shiftTags_of_lt (fits.tags_lt t used)⟩

theorem Value.Fits.mirror {v : Value} (fits : v.Fits containers size) (next : Nat) :
    v.Mirror (fun _ => True) (shiftTags containers.length next) v :=
  (fits.inside next).mirror

/-- A heap that only takes tags agrees with the one before. -/
theorem Heap.Fits.agree (fits : h.Fits containers size) (later : h.Advances k) :
    h.Agree False (fun _ => True) (fun _ _ => True) (shiftTags containers.length k.nextTag) k := by
  have same := later.same
  refine ⟨.inl (by rw [same]), fun r _ => by rw [same]; rfl, fun r key _ => by rw [same]; rfl,
    fun r key _ _ => by rw [same]; rfl,
    fun r _ v member => (fits.items r v member).inside _, fun r key v _ _ found => ?_⟩
  exact (fits.fields r _ (FieldMap.mem_of_get? found)).inside _

variable {ctx : Context}

/-- Without calls every path may be read. -/
theorem Context.Fits.reads (fits : ctx.Fits containers size) (h : Heap) (next : Nat) (root : Root)
    (steps : List Step) :
    ctx.Reads h (fun _ => True) (fun _ _ => True) (shiftTags containers.length next) root
      steps := by
  have covered : ∀ step ∈ steps, ∀ loc, step.Covered h (fun _ _ => True) loc := fun step _ loc => by
    cases step <;> simp [Step.Covered]
  refine ⟨fun i _ => (fits i).inside next, ?_⟩
  cases root with
  | here => exact covered
  | arg i => exact .inl covered

theorem Definition.Fits.inside {d : Definition} (shape : d.Fits containers size)
    (params : ctx.Fits containers size) (h : Heap) (next : Nat) :
    d.All (Value.Inside (fun _ => True) (shiftTags containers.length next))
      (ctx.Reads h (fun _ => True) (fun _ _ => True) (shiftTags containers.length next)) :=
  shape.mono (fun _ fits => fits.inside next) fun root steps _ => params.reads h next root steps

theorem SortKey.Fit.inside {keys : List SortKey} (shape : SortKey.Fit containers size keys)
    (params : ctx.Fits containers size) (h : Heap) (next : Nat) : ∀ key ∈ keys,
    ctx.Reads h (fun _ => True) (fun _ _ => True) (shiftTags containers.length next) key.root
        key.steps ∧
      Step.AllOf (Value.Inside (fun _ => True) (shiftTags containers.length next))
        (ctx.Reads h (fun _ => True) (fun _ _ => True) (shiftTags containers.length next))
        key.steps := fun key member =>
  ⟨params.reads h next key.root key.steps, (shape key member).mono (fun _ fits => fits.inside next)
    fun root steps _ => params.reads h next root steps⟩

end

/-- A world whose heap fits a run and whose patterns have been read. -/
structure World.Ready (w : World) (containers : List Value) (size : Nat) : Prop where
  heap : w.heap.Fits containers size
  read : w.patterns.Reachable

section
variable {size : Nat} {containers : List Value} {w u v : World} {call : Caller} {ctx : Context}

namespace World.Ready

theorem later (ready : w.Ready containers size) (later : w.Undisturbed u) :
    ∃ more, containers <+: more ∧ u.Ready more size := by
  obtain ⟨more, grown, heap⟩ := ready.heap.advance later.heap
  exact ⟨more, grown, heap, later.read ready.read⟩

theorem agree (ready : w.Ready containers size) (later : w.Undisturbed u) :
    w.heap.Agree False (fun _ => True) (fun _ _ => True)
      (shiftTags containers.length u.heap.nextTag) u.heap :=
  ready.heap.agree later.heap

theorem injective (ready : w.Ready containers size) (later : w.Undisturbed u) :
    Function.Injective (shiftTags containers.length u.heap.nextTag) :=
  shiftTags_injective (ready.heap.tags ▸ later.heap.tags)

theorem mirrors (ready : w.Ready containers size) (later : w.Undisturbed u) :
    World.Mirrors w.heap u.heap (shiftTags containers.length u.heap.nextTag) w u :=
  ⟨rfl, rfl, fun i => by rw [← ready.heap.tags]; exact shiftTags_add _ _ i, ready.read,
    later.read ready.read⟩

end World.Ready

namespace Act

variable {α β : Type} {x : Act α} {y : Act β} {a : α} {b : β}

/-- What an activity gives, one that does the same gives in the other world. -/
theorem Local.gives {h k : Heap} {ρ : Nat → Nat} {V : α → β → Prop} {u' : World}
    (same : Local False h k ρ V x y) (mirrors : World.Mirrors h k ρ u v) (given : x.Gives u a u') :
    ∃ b v', y.Gives v b v' ∧ V a b ∧ World.Mirrors h k ρ u' v' := by
  have outcome := same u v mirrors
  rw [given.on] at outcome
  generalize found : y.on v = result at outcome
  cases outcome with
  | ok value world => exact ⟨_, _, found, value, world⟩

theorem Fitting.undisturbed {Q : List Value → α → Prop} (fitting : Fitting size containers x Q)
    (ready : w.Ready containers size) (gives : x.Gives w a v) :
    w.Undisturbed v ∧ ∃ more, containers <+: more ∧ v.Ready more size ∧ Q more a := by
  obtain ⟨more, grown, heap, advances, given⟩ := fitting w a v ready.heap ready.read gives
  exact ⟨⟨advances.heap, advances.read, by rw [advances.same]⟩, more, grown,
    ⟨heap, advances.read ready.read⟩, given⟩

/-- An activity without calls that gives a value once settles. -/
theorem Gives.settles {Q : List Value → α → Prop} (gives : x.Gives w a v)
    (ready : w.Ready containers size)
    (same : ∀ u, w.Undisturbed u → ∃ V : α → α → Prop,
      Local False w.heap u.heap (shiftTags containers.length u.heap.nextTag) V x x)
    (fitting : ∀ more, containers <+: more → Fitting size more x Q) : x.Settles w := by
  intro u later
  obtain ⟨V, alike⟩ := same u later
  obtain ⟨b, v', gives', -, -⟩ := alike.gives (ready.mirrors later) gives
  obtain ⟨more, grown, ready'⟩ := ready.later later
  exact ⟨b, v', gives', ((fitting more grown).undisturbed ready' gives').1⟩

end Act

variable {d : Definition} {item row : Value} {keys : List SortKey} {ks : List Value}

theorem SortKey.extract_settles (gives : (SortKey.extract call ctx item [] keys).Gives w ks v)
    (ready : w.Ready containers size) (shape : SortKey.Fit containers size keys)
    (params : ctx.Fits containers size) (here : item.Fits containers size) :
    (SortKey.extract call ctx item [] keys).Settles w :=
  gives.settles ready (fun _ later => ⟨_, SortKey.extract_local (ready.agree later)
      (ready.injective later) (shape.inside params _ _) (here.mirror _) .nil⟩)
    fun _ grown => SortKey.extract_fits (shape.later grown) (params.later grown)
      (Value.fits_later grown _ here) .nil

namespace Definition

theorem accepts_settles {kept : Bool} (gives : (d.accepts call ctx item).Gives w kept v)
    (ready : w.Ready containers size) (shape : d.Fits containers size)
    (params : ctx.Fits containers size) (here : item.Fits containers size) :
    (d.accepts call ctx item).Settles w ∧
      ∀ told, (d.accepts call ctx item).Yields w told → told = kept := by
  have same (u : World) (later : w.Undisturbed u) :
      Act.Local False w.heap u.heap (shiftTags containers.length u.heap.nextTag) Eq
        (d.accepts call ctx item) (d.accepts call ctx item) :=
    accepts_local (ready.agree later) (ready.injective later) (shape.inside params _ _)
      (here.mirror u.heap.nextTag)
  refine ⟨gives.settles ready (fun u later => ⟨_, same u later⟩) fun _ grown =>
    accepts_fits (shape.later grown) (params.later grown) (Value.fits_later grown _ here), ?_⟩
  rintro told ⟨_, u, u', later, found, -⟩
  obtain ⟨kept', _, gives', equal, -⟩ := (same u later).gives (ready.mirrors later) gives
  exact (found.unique gives').1.trans equal.symm

/-- A row that is projected later is the same but for the tags of new containers. -/
theorem project_later {u' : World} {row' : Value}
    (gives : (d.project call ctx item).Gives w row v)
    (ready : w.Ready containers size) (shape : d.Fits containers size)
    (params : ctx.Fits containers size) (here : item.Fits containers size)
    (later : w.Undisturbed u) (found : (d.project call ctx item).Gives u row' u') :
    row.Mirror (fun _ => True) (shiftTags containers.length u.heap.nextTag) row' ∧
      World.Mirrors w.heap u.heap (shiftTags containers.length u.heap.nextTag) v u' := by
  obtain ⟨_, _, gives', mirror, mirrors⟩ := (project_local (ready.agree later)
    (ready.injective later) (shape.inside params _ _) (here.mirror _)).gives (ready.mirrors later)
      gives
  obtain ⟨rfl, rfl⟩ := found.unique gives'
  exact ⟨mirror, mirrors⟩

theorem project_settles (gives : (d.project call ctx item).Gives w row v)
    (ready : w.Ready containers size) (shape : d.Fits containers size)
    (params : ctx.Fits containers size) (here : item.Fits containers size) :
    (d.project call ctx item).Settles w ∧ ∀ first second,
      (d.project call ctx item).Yields w first → (d.project call ctx item).Yields w second →
        Value.same first second = true := by
  refine ⟨gives.settles ready (fun u later => ⟨_, project_local (ready.agree later)
      (ready.injective later) (shape.inside params _ _) (here.mirror _)⟩) fun _ grown =>
    project_fits (shape.later grown) (params.later grown) (Value.fits_later grown _ here), ?_⟩
  rintro first second ⟨_, _, _, on, found, -⟩ ⟨_, _, _, on', found', -⟩
  have left := (project_later gives ready shape params here on found).1.1
  have right := (project_later gives ready shape params here on' found').1.1
  have alike : first.retag (fun _ => 0) = second.retag fun _ => 0 := by
    rw [left, right, Value.retag_retag, Value.retag_retag]
    rfl
  exact Value.same_of_retag_eq alike

/-- The keys of a row can be read whenever it is made, if they can be read once. -/
theorem rowKeys_settle {v' : World} (gives : (d.project call ctx item).Gives w row v)
    (reads : (SortKey.extract call ctx row [] keys).Gives v ks v')
    (ready : w.Ready containers size) (shape : d.Fits containers size)
    (sorted : SortKey.Fit containers size keys) (params : ctx.Fits containers size)
    (here : item.Fits containers size) {made : Value} {t : World}
    (came : (d.project call ctx item).Came w made t) :
    (SortKey.extract call ctx made [] keys).Settles t := by
  obtain ⟨u, u', later, found, after⟩ := came
  obtain ⟨mirror, mirrors⟩ := project_later gives ready shape params here later found
  obtain ⟨ks', _, reads', -, -⟩ := (SortKey.extract_local (ready.agree later)
    (ready.injective later) (sorted.inside params _ _) mirror .nil).gives mirrors reads
  obtain ⟨more, grown, there⟩ := ready.later later
  obtain ⟨-, most, grown', ready', fit⟩ := (project_fits (shape.later grown) (params.later grown)
    (Value.fits_later grown _ here)).undisturbed there found
  have grown := grown.trans grown'
  exact (SortKey.extract_settles reads' ready' (sorted.later grown) (params.later grown) fit).after
    after

/-- Without calls, a query has no effects where each of its evaluations gives a value once. -/
theorem effectless_of_gives {accept : Value → Bool} {items : List Value}
    (ready : w.Ready containers size) (shape : d.Fits containers size)
    (params : ctx.Fits containers size) (all : Value.AllFit size containers items)
    (filter : ∀ item ∈ items, ∃ v, (d.accepts call ctx item).Gives w (accept item) v)
    (project : ∀ item ∈ items.filter accept, ∃ row v, (d.project call ctx item).Gives w row v ∧
      ∀ keys, d.sort = some keys → d.sortsFirst = false →
        ∃ ks v', (SortKey.extract call ctx row [] keys).Gives v ks v')
    (itemKeys : ∀ keys, d.sort = some keys → d.sortsFirst = true →
      ∀ item ∈ items.filter accept, ∃ ks v, (SortKey.extract call ctx item [] keys).Gives w ks v) :
    d.Effectless call ctx w accept items := by
  have sorted : ∀ keys, d.sort = some keys → SortKey.Fit containers size keys :=
    fun keys sort key member => (shape.sort keys sort key member).2
  have here : ∀ item ∈ items.filter accept, item.Fits containers size :=
    fun item member => all item (List.mem_of_mem_filter member)
  refine ⟨fun item member => ?_, fun item member => ?_, fun keys sort first item member => ?_,
    fun keys sort last item member row t came => ?_⟩
  · obtain ⟨v, gives⟩ := filter item member
    exact accepts_settles gives ready shape params (all item member)
  · obtain ⟨row, v, gives, -⟩ := project item member
    exact project_settles gives ready shape params (here item member)
  · obtain ⟨ks, v, gives⟩ := itemKeys keys sort first item member
    exact SortKey.extract_settles gives ready (sorted keys sort) params (here item member)
  · obtain ⟨row, v, gives, reads⟩ := project item member
    obtain ⟨ks, v', reads⟩ := reads keys sort last
    exact rowKeys_settle gives reads ready shape (sorted keys sort) params (here item member) came

end Definition

end

end ReactiveQuery
