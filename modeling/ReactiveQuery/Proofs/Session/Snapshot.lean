import ReactiveQuery.Proofs.Session.Run

/-! A live result and a query over the same source agree whenever the caller looks. -/

namespace ReactiveQuery

namespace Act

variable {w : World}

/-- What an activity gives can be read off by running it. -/
theorem gives_of_toOption {α : Type} {act : Act α} {a : α}
    (ends : (act.on w).1.toOption = some a) : act.Gives w a (act.on w).2 := by
  unfold Gives
  rcases outcome : act.on w with ⟨e | b, v⟩ <;> rw [outcome] at ends
  · cases ends
  · rw [Option.some.inj ends]

/-- A known query is found without reading it again. -/
theorem gives_definition_known {text : String} {d : Definition}
    (known : w.cache.entries.lookup text = some d) :
    (definition text).Gives w d { w with cache := { w.cache with hits := w.cache.hits + 1 } } := by
  unfold definition
  refine gives_bind.mpr ⟨w, w, gives_get.mpr ⟨rfl, rfl⟩, ?_⟩
  rw [known]
  exact gives_bind.mpr ⟨(), _, gives_modify.mpr rfl, gives_pure.mpr ⟨rfl, rfl⟩⟩

/-- A new collection holds the items that it was made with. -/
theorem newCollection_gives (items : List Value) (w : World) :
    ∃ r v, (newCollection items).Gives w r v ∧ v.heap.items r = items := by
  let c : CollectionCell := { id := w.bus.nextId, items, sink := .bus }
  let r : Ref := ⟨w.heap.cells.size, w.bus.nextId⟩
  have here : (w.heap.allocate w.bus.nextId (.collection c)).2.collection? r = some c := by
    rw [Heap.collection?_eq_some, Heap.cell?_allocate, if_pos rfl]
  refine ⟨r, _, rfl, ?_⟩
  change ((Heap.collection? _ r).map (·.items)).getD [] = items
  rw [← show c.items = items from rfl]
  exact congrArg (fun o : Option CollectionCell => (o.map (·.items)).getD []) here

end Act

namespace LiveQuery

variable {w : World} {q : LiveQuery}

/-- A fresh result holds what a query with the same text and arguments gives. -/
theorem Fresh.query_gives (fresh : q.Fresh w.heap) (read : w.patterns.Reachable)
    (known : w.cache.entries.lookup q.text = some q.definition) (call : Caller) :
    ∃ r v, (Act.query call q.source q.text q.params).Gives w r v ∧
      Value.sameItems (v.heap.items r) (w.heap.items q.result) = true := by
  have finds := Act.gives_definition_known known
  let cache := { w.cache with hits := w.cache.hits + 1 }
  have ⟨rows, u, collects, alike⟩ := fresh call
    { w with cache, held := w.heap.items q.source ++ w.held } rfl read
  have ⟨r, v, creates, items⟩ := Act.newCollection_gives rows { u with held := w.held }
  refine ⟨r, v, ?_, by rw [items]; exact alike.sameItems⟩
  unfold Act.query
  refine Act.gives_bind.mpr ⟨q.definition, { w with cache }, finds, ?_⟩
  refine Act.gives_bind.mpr ⟨{ w with cache }, { w with cache }, Act.gives_get.mpr ⟨rfl, rfl⟩, ?_⟩
  exact Act.gives_bind.mpr ⟨rows, _, Act.gives_holding.mpr ⟨u, collects, rfl⟩, creates⟩

end LiveQuery

namespace Run

variable {M : Nat → Prop} {qs : List LiveQuery} {w : World} {q : LiveQuery}

/-- Along a run that keeps to the domain of live queries, every result that lives holds the rows
that a query with the same source, text and arguments gives. -/
theorem live_eq_query (run : Run True M qs w) (member : q ∈ qs)
    (alive : w.heap.isAlive q.result.loc = true) :
    ∃ r v, (Act.query Reentry.outer.call q.source q.text q.params).Gives w r v ∧
      Value.sameItems (v.heap.items r) (w.heap.items q.result) = true := by
  obtain ⟨containers, resting⟩ := run.resting
  exact (resting.fresh trivial q member alive).query_gives resting.sound.read
    (resting.sound.cached q member) _

end Run

/-! Runs on given commands can be computed. -/

namespace Reply

mutual
/-- Whether a reply tells of a failure can be decided. -/
def decideOk : (reply : Reply) → Decidable reply.Ok
  | .failed _ => isFalse id
  | .list replies => decideAllOk replies
  | .value _ | .count _ | .definition .. | .stats _ => isTrue trivial

def decideAllOk : (replies : List Reply) → Decidable (AllOk replies)
  | [] => isTrue trivial
  | reply :: replies => @instDecidableAnd _ _ (decideOk reply) (decideAllOk replies)
end

instance : DecidablePred Reply.Ok := decideOk

/-- The collection that a reply gives. -/
def collection? : Reply → Option Ref
  | .value (.collection r) => some r
  | _ => none

theorem collection?_eq_some {reply : Reply} {r : Ref} (gives : reply.collection? = some r) :
    reply = .value (.collection r) := by
  unfold collection? at gives
  split at gives
  · rw [Option.some.inj gives]
  · cases gives

end Reply

/-- The record that a name is bound to. -/
def Desk.record? (desk : Desk) (name : String) : Option Ref :=
  match FieldMap.get? name desk.names with
  | some (.record r) => some r
  | _ => none

theorem Desk.record?_eq_some {desk : Desk} {name : String} {r : Ref}
    (bound : desk.record? name = some r) : FieldMap.get? name desk.names = some (.record r) := by
  unfold record? at bound
  split at bound
  · next s found => rw [found, Option.some.inj bound]
  · cases bound

namespace World

/-- The world after a command, when that ends. -/
def next (w : World) (c : Command) : World := ((w.perform c).map (·.2)).getD w

/-- The world after commands in a row. -/
def play (w : World) (cs : List Command) : World := cs.foldl next w

theorem perform_eq_next {w : World} {c : Command} {reply : Reply}
    (ends : (w.perform c).map (·.1) = some reply) : w.perform c = some (reply, w.next c) := by
  obtain ⟨⟨_, v⟩, performs, rfl⟩ := Option.map_eq_some_iff.mp ends
  rw [next, performs]
  rfl

/-- Asked anew, the query gives other rows than the result holds. -/
def Stale (w : World) (result source : Ref) (text : String) (params : List Value) : Prop :=
  ∃ r v, (Act.query Reentry.outer.call source text params).Gives w r v ∧
    Value.sameItems (v.heap.items r) (w.heap.items result) = false

/-- A world is tame when nothing that a cell holds is negative zero, and no path starts at an
argument. -/
theorem Tame.of_checks {w : World} {qs : List LiveQuery}
    (signed : (w.heap.cells.all fun cell => cell.all fun c =>
      c.contents.all fun x => !x.isNegativeZero) = true)
    (here : (qs.all fun q => q.definition.paths.all (·.root = .here)) = true) : w.Tame qs where
  signed r e member := by
    obtain ⟨c, found, inside⟩ := Heap.exists_of_mem_fields member
    rw [Heap.cell?, Option.join_eq_some_iff] at found
    have all := Array.all_eq_true'.mp signed _ (Array.mem_of_getElem? found)
    simpa using List.all_eq_true.mp all _ (List.mem_map.mpr ⟨e, inside, rfl⟩)
  shallow q member _ p path i root := by
    have starts := List.all_eq_true.mp (List.all_eq_true.mp here q member) p path
    simp [root] at starts

end World

/-- A run goes on with a command that ends well. -/
theorem Run.next {D : Prop} {M : Nat → Prop} {qs : List LiveQuery} {w : World} {c : Command}
    (run : Run D M qs w) (ready : c.core.Steady Reentry.outer.dispatch (fun w => D → w.Tame qs) w)
    (allowed : c.core.Allowed D M qs w.desk.names)
    (ends : ∃ reply ∈ (w.perform c).map (·.1), reply.Ok) : Run D M qs (w.next c) := by
  obtain ⟨reply, ends, ok⟩ := ends
  exact run.perform ready allowed (World.perform_eq_next ends) ok

namespace Inverses

/-- A query for the inverse of a field. -/
def setup : Setup where
  queries := [("inverse", { select := some (.tagged "div"
    [.literal (.number .one), .path .here [.key (.text "x")]]) })]

def start : World := (World.start setup).toOption.getD {}

def makeRecord : Command := .bind "r" (.newRecord [("x", .number .zero)] none)

def makeSource : Command := .bind "s" (.newCollection [.named "r"] none)

def watch : Command := .bind "l" (.live "s" "inverse" [])

def write (x : Double) : Command := .onRecord "r" (.write "x" (.number x))

/-- A record whose field is zero, in a collection. -/
def source : World := (start.next makeRecord).next makeSource

/-- The inverse, kept up to date. -/
def watched : World := source.next watch

@[irreducible]
def definition : Definition := (watched.cache.entries.lookup "inverse").get (by decide +kernel)

theorem lookup_definition : watched.cache.entries.lookup "inverse" = some definition := by
  unfold definition
  exact (Option.some_get _).symm

def live : LiveQuery where
  result := ⟨2, 3⟩
  source := ⟨1, 2⟩
  text := "inverse"
  params := []
  definition := definition
  dependencies := [.source ⟨some 2, some .content⟩, .record ⟨none, some (.field "x")⟩]

/-- The source and the result may change. -/
def mayChange (l : Nat) : Prop := 1 ≤ l

theorem run_watched {D : Prop} : Run D mayChange [live] watched := by
  have plain : ∀ e ∈ setup.queries, e.2.isPlain = true := by decide +kernel
  have begun : Run D mayChange [] start := .start plain rfl
  have made : Run D mayChange [] (start.next makeRecord) := by
    refine begun.next (fun _ => ?_) (.newRecord ?_) (by decide +kernel)
    · exact .of_checks (by decide +kernel) rfl
    · exact List.forall_mem_singleton.mpr ⟨rfl, by simp [Term.places]⟩
  have filled : Run D mayChange [] source := by
    refine made.next (fun _ => ?_) (.newCollection ?_) (by decide +kernel)
    · exact .of_checks (by decide +kernel) rfl
    · refine List.forall_mem_singleton.mpr ⟨rfl, ?_⟩
      unfold mayChange
      decide +kernel
  have asks : watch.core.Asks mayChange source ⟨1, 2⟩ [] "inverse" [] source.heap.cells.size :=
    .live rfl (by simp)
  have may : mayChange source.heap.cells.size := by
    unfold mayChange
    decide +kernel
  have found : ((source.perform watch).map (·.1)).bind Reply.collection? = some ⟨2, 3⟩ := by
    decide +kernel
  obtain ⟨reply, ends, gives⟩ := Option.bind_eq_some_iff.mp found
  obtain rfl := Reply.collection?_eq_some gives
  refine filled.ask asks may rfl (World.perform_eq_next ends) ?_
  exact ⟨rfl, by decide +kernel, rfl, rfl, rfl, lookup_definition, by decide +kernel⟩

theorem writes {D : Prop} {x : Double} (signed : D → (Value.number x).isNegativeZero = false) :
    (write x).Writes D mayChange [live] watched.desk.names := by
  have bound : watched.desk.record? "r" = some ⟨0, 1⟩ := by decide +kernel
  exact .single (.set (Desk.record?_eq_some bound) ⟨rfl, by simp [Term.places]⟩ signed)

/-- After a write the row is the new inverse. -/
theorem live_eq_query_of_write :
    Run True mayChange [live] (watched.next (write (.ofNat 2))) ∧
      (watched.next (write (.ofNat 2))).heap.isAlive live.result.loc = true ∧
      ∃ r v, (Act.query Reentry.outer.call live.source live.text live.params).Gives
          (watched.next (write (.ofNat 2))) r v ∧
        Value.sameItems (v.heap.items r)
          ((watched.next (write (.ofNat 2))).heap.items live.result) = true := by
  have run : Run True mayChange [live] (watched.next (write (.ofNat 2))) := by
    refine run_watched.next (fun _ => ?_) (.writes (writes fun _ => ?_)) (by decide +kernel)
    · exact .of_checks (by decide +kernel) (by decide +kernel)
    · decide +kernel
  have alive : (watched.next (write (.ofNat 2))).heap.isAlive live.result.loc = true := by
    decide +kernel
  exact ⟨run, alive, run.live_eq_query (List.mem_singleton_self _) alive⟩

/-- The record is written to and then back, but to the other zero. -/
def unsigned : World := watched.next (.batch [write (.ofNat 5), write Double.zero.neg])

/-- The zeros are strictly equal, so the writes of the batch cancel each other and the result stays
as it is; a query tells the zeros apart by their inverses. -/
theorem stale_of_negative_zero :
    Run False mayChange [live] unsigned ∧ unsigned.heap.isAlive live.result.loc = true ∧
      unsigned.Stale live.result live.source live.text live.params := by
  have run : Run False mayChange [live] unsigned := by
    refine run_watched.next (fun asked => asked.elim) (.writes (.batch ?_)) (by decide +kernel)
    simp only [List.mem_cons, List.not_mem_nil, or_false, forall_eq_or_imp, forall_eq]
    exact ⟨writes False.elim, writes False.elim⟩
  exact ⟨run, by decide +kernel, ⟨3, 4⟩, _, Act.gives_of_toOption (by decide +kernel),
    by decide +kernel⟩

end Inverses

end ReactiveQuery
