import Mathlib.Data.Finite.Prod
import Mathlib.Logic.Relation
import Mathlib.Order.WellFounded
import ReactiveQuery.Proofs.Live.Release

/-! Reach.  Handles are counted and nothing else keeps a live query: its registrations stay as long
as its result is reached from a handle outside the heap, or from a ring of cells that hold one
another, which no count takes apart. -/

namespace ReactiveQuery

open Relation

namespace World

/-- One place holds another: through the items, fields or retained values of its cell, or as the
source or an argument of the live query whose result it is. -/
def Holds (w : World) (k l : Nat) : Prop :=
  (∃ cell, w.heap.cell? k = some cell ∧ l ∈ cell.places) ∨
    ∃ t, ∃ n ∈ w.bus.registry.on t, w.bus.place? n = some k ∧
      ∃ listener, w.bus.listeners[n]? = some listener ∧ l ∈ Value.placesOfItems listener.values

/-- What a place is reached from: a handle outside the heap, or a ring. -/
def Anchors (w : World) (k : Nat) : Prop := k ∈ w.outerRoots ∨ TransGen w.Holds k k

def Anchored (w : World) (l : Nat) : Prop := ∃ k, w.Anchors k ∧ ReflTransGen w.Holds k l

variable {v w : World}

theorem Enrolled.isAlive_of_on (enrolled : w.Enrolled) {t : Topic} {n k : Nat}
    (on : n ∈ w.bus.registry.on t) (place : w.bus.place? n = some k) :
    w.heap.isAlive k = true := by
  by_contra dead
  exact enrolled.not_mem_on_of_dead (Option.not_isSome_iff_eq_none.mp dead) place t on

theorem Enrolled.isAlive_of_holds (enrolled : w.Enrolled) {k l : Nat} (holds : w.Holds k l) :
    w.heap.isAlive k = true := by
  obtain ⟨cell, here, -⟩ | ⟨t, n, on, place, -⟩ := holds
  · exact Heap.isAlive_of_cell? here
  · exact enrolled.isAlive_of_on on place

/-- In a swept world a cell lives on a handle outside the heap or on another cell. -/
theorem Enrolled.exists_holds (enrolled : w.Enrolled) (swept : w.unheld = []) {l : Nat}
    (alive : w.heap.isAlive l = true) : l ∈ w.outerRoots ∨ ∃ k, w.Holds k l := by
  have free : l ∉ w.unheld := by simp [swept]
  rw [mem_unheld, not_and, not_not] at free
  rcases List.mem_append.mp (free alive) with root | inner
  · rcases mem_roots.mp root with outer | ⟨n, listed, inside⟩
    · exact .inl outer
    · obtain ⟨entry, member, among⟩ := List.mem_flatMap.mp listed
      have on := enrolled.tidy.mem_on member among
      cases listens : w.bus.listeners[n]? with
      | none => simp [listens, Value.placesOfItems] at inside
      | some listener =>
        rw [listens, Option.map_some, Option.getD_some] at inside
        cases listener with
        | script => simp [Listener.values, Value.placesOfItems] at inside
        | invalidate id route job =>
          obtain ⟨q, rfl, rfl⟩ := enrolled.ranked.live n id route job listens
          exact .inr ⟨_, .inr ⟨_, n, on, Bus.place?_of_listeners listens, _, listens, inside⟩⟩
  · obtain ⟨cell', member, inside⟩ := List.mem_flatMap.mp inner
    obtain ⟨k, found⟩ := List.mem_iff_getElem?.mp member
    cases cell' with
    | none => cases inside
    | some cell =>
      refine .inr ⟨k, .inl ⟨cell, ?_, inside⟩⟩
      rw [Heap.cell?, ← Array.getElem?_toList, found]
      rfl

/-- What lives after a sweep is anchored: going back from holder to holder either comes to a handle
outside the heap or goes round. -/
theorem Enrolled.anchored_of_alive (enrolled : w.Enrolled) (swept : w.unheld = []) {l : Nat}
    (alive : w.heap.isAlive l = true) : w.Anchored l := by
  by_contra loose
  let Holder := { k // w.heap.isAlive k = true ∧ ReflTransGen w.Holds k l }
  have inside : ∀ k : Holder, k.1 ∈ w.living := fun k => mem_living.mpr k.2.1
  have : Finite Holder := Finite.of_injective
    (fun k : Holder => (⟨k.1, inside k⟩ : { k // k ∈ w.living }))
    fun _ _ same => Subtype.ext (Subtype.mk.inj same)
  -- Without a ring the holders of the place are well-founded, so there is a first one.
  let before : Holder → Holder → Prop := fun j k => TransGen w.Holds j.1 k.1
  have : IsTrans Holder before := ⟨fun _ _ _ => TransGen.trans⟩
  have : Std.Irrefl before := ⟨fun k ring => loose ⟨k.1, .inr ring, k.2.2⟩⟩
  obtain ⟨first, -, least⟩ := (Finite.wellFounded_of_trans_of_irrefl before).has_min Set.univ
    ⟨⟨l, alive, .refl⟩, trivial⟩
  rcases enrolled.exists_holds swept first.2.1 with outer | ⟨k, holds⟩
  · exact loose ⟨first.1, .inl outer, first.2.2⟩
  · exact least ⟨k, enrolled.isAlive_of_holds holds, .head holds first.2.2⟩ trivial (.single holds)

theorem Enrolled.holds_of_sweep (enrolled : w.Enrolled) {k l : Nat} (holds : w.sweep.Holds k l) :
    w.Holds k l := by
  obtain ⟨cell, here, inside⟩ | ⟨t, n, on, place, listener, listens, inside⟩ := holds
  · exact .inl ⟨cell, cell?_of_sweep here, inside⟩
  · have listeners : w.sweep.bus.listeners = w.bus.listeners := by rw [same_sweep]
    rw [enrolled.on_sweep] at on
    rw [place?_congr listeners] at place
    rw [listeners] at listens
    exact .inr ⟨t, n, List.mem_of_mem_filter on, place, listener, listens, inside⟩

/-- A sweep anchors nothing. -/
theorem Enrolled.anchored_of_sweep (enrolled : w.Enrolled) {l : Nat}
    (anchored : w.sweep.Anchored l) : w.Anchored l := by
  obtain ⟨k, anchor, reach⟩ := anchored
  have before : ∀ j k, w.sweep.Holds j k → w.Holds j k := fun _ _ => enrolled.holds_of_sweep
  refine ⟨k, anchor.imp (fun outer => ?_) (TransGen.mono before _ _),
    ReflTransGen.mono before _ _ reach⟩
  rwa [same_sweep] at outer

/-- Whatever is anchored is a root, or held by something that is anchored. -/
theorem Anchored.cases {l : Nat} (anchored : w.Anchored l) :
    l ∈ w.outerRoots ∨ ∃ k, w.Holds k l ∧ w.Anchored k := by
  obtain ⟨k, anchor, reach⟩ := anchored
  cases reach with
  | tail reach holds => exact .inr ⟨_, holds, k, anchor, reach⟩
  | refl =>
    refine anchor.imp_right fun ring => ?_
    obtain ⟨m, around, holds⟩ := TransGen.tail'_iff.mp ring
    exact ⟨m, holds, m, .inr (.head' holds around), .refl⟩

/-- Places of which each is held by later ones only are not anchored. -/
theorem Chain.not_anchored {chain : List Nat} (held : w.Chain chain) :
    ∀ l ∈ chain, ¬w.Anchored l := by
  induction chain with
  | nil => nofun
  | cons l ls ih =>
    obtain ⟨only, rest⟩ := held
    refine List.forall_mem_cons.mpr ⟨fun anchored => ?_, ih rest⟩
    rcases anchored.cases with outer | ⟨k, holds, before⟩
    · exact only.roots outer
    · refine ih rest k ?_ before
      obtain ⟨cell, here, inside⟩ | ⟨t, n, on, place, listener, listens, inside⟩ := holds
      · exact only.cells k (Heap.lt_size_of_cell? here) (by simpa [here] using inside)
      · have listed := Registry.mem_entries_of_mem_on on
        obtain ⟨k', behind, same⟩ := only.listeners n listed (by simpa [listens] using inside)
        obtain rfl := Option.some.inj (place.symm.trans same)
        exact behind

/-- The live query whose result is at a place is in the bus. -/
def Registers (w : World) (loc : Nat) : Prop :=
  ∃ t, ∃ n ∈ w.bus.registry.on t, w.bus.place? n = some loc

/-- A live query whose result is gone is not in the bus, and its job does nothing. -/
theorem Enrolled.forgets (enrolled : w.Enrolled) {q : LiveQuery} (lists : w.bus.Lists q)
    (dead : w.heap.cell? q.result.loc = none) (comes : w.Comes v) :
    ¬v.Registers q.result.loc ∧ ∀ again : Reentry,
      (q.job.run again.call again.dispatch again.perform).on v = (.ok (), v.sweep) := by
  obtain ⟨after, later⟩ := comes.leads enrolled
  have gone := later.dead _ (enrolled.ranked.below q lists).2 dead
  refine ⟨fun registers => ?_, fun again => on_run_of_dead gone again⟩
  obtain ⟨t, n, on, place⟩ := registers
  exact after.not_mem_on_of_dead gone place t on

/-- Live queries leak through rings only.  At every moment of a run a live query is in the bus only
while its result is anchored; once it is not, the registrations are gone, and it is never
refreshed again. -/
theorem Comes.unleaked {setup : Setup} {s : World} (started : World.start setup = .ok s)
    (comes : s.Comes w) {q : LiveQuery} (lists : w.bus.Lists q) :
    (w.sweep.Registers q.result.loc → w.sweep.Anchored q.result.loc) ∧
      (¬w.Anchored q.result.loc → ∀ v, w.sweep.Comes v → ¬v.Registers q.result.loc ∧
        ∀ again : Reentry,
          (q.job.run again.call again.dispatch again.perform).on v = (.ok (), v.sweep)) := by
  have enrolled := (comes.leads (enrolled_start started)).1
  obtain ⟨enrolled', swept⟩ := leads_sweep w enrolled
  refine ⟨fun ⟨t, n, on, place⟩ => ?_, fun loose v after => ?_⟩
  · exact enrolled'.anchored_of_alive (unheld_sweep w) (enrolled'.isAlive_of_on on place)
  · have dead : w.sweep.heap.cell? q.result.loc = none := by
      refine Option.eq_none_iff_forall_ne_some.mpr fun cell here => loose ?_
      exact enrolled.anchored_of_sweep
        (enrolled'.anchored_of_alive (unheld_sweep w) (Heap.isAlive_of_cell? here))
    exact enrolled'.forgets (swept.lists lists) dead after

end World

namespace Watched

/-- Without a name, and with no ring in the heap, the live query is gone for good. -/
theorem unleaked_unnamed : ∃ q : LiveQuery, q.result = ⟨2, 3⟩ ∧ unnamed.bus.Lists q ∧
    ∀ v, unnamed.sweep.Comes v → ¬v.Registers 2 ∧ ∀ again : Reentry,
      (q.job.run again.call again.dispatch again.perform).on v = (.ok (), v.sweep) := by
  have within := Reentry.proper_within 8
  have before : start.Comes source := World.Comes.here.play _
  have enrolled := (before.leads (World.enrolled_start started)).1
  have comes : start.Comes (watch.on source).2 := before.gives
    (Act.has_live (C := .proper) within.dispatch within.call _ _ _) gives_watch
  obtain ⟨q, base, result, -, -, attached⟩ :=
    Act.attached_of_live within.call within.dispatch enrolled gives_watch
  have lists := (attached _ .here (by decide +kernel)).lists
  have after : (watch.on source).2.Comes unnamed := comes_named.play _
  have later := (after.leads (comes.leads (World.enrolled_start started)).1).2
  obtain ⟨-, gone⟩ := (comes.trans after).unleaked started (later.lists lists)
  rw [result] at gone
  have chain : unnamed.Chain [2, 3] := ⟨by decide +kernel, by decide +kernel, trivial⟩
  exact ⟨q, result, later.lists lists, gone (chain.not_anchored 2 (by simp))⟩

end Watched

namespace Leaked

def setup : Setup where
  queries := [
    ("counted", { filter := some (.tagged "gt" [.call "tick" [], .literal (.number .zero)]) }),
    ("beside", { filter := some (.tagged "in" [.path .here [], .path (.arg 0) []]) }),
    ("kept", { select := some (.literal (.collection 9 [])) })]
  extensions := [("tick", .tick)]

def start : World := (World.start setup).toOption.getD {}

def watched : World := start.play
  [.bind "s" (.newCollection [.null] none), .bind "a" (.live "s" "counted" [])]

/-- A live result is put into its own source. -/
def ring : World := watched.play [.onCollection "s" (.push (.named "a")), .drop "a", .drop "s"]

/-- A live result is put into a literal of a cached query. -/
def kept : World := watched.play
  [.bind "rows" (.query "s" "kept" []), .bind "c" (.onCollection "rows" (.item 0)),
    .onCollection "c" (.push (.named "a")), .drop "a", .drop "s", .drop "rows", .drop "c"]

/-- A listener on the source of two live queries, one over the other, drops both. -/
def dropped : World := watched.play
  [.bind "b" (.live "a" "beside" [.named "s"]),
    .subscribe "L" (.named "s") (some .content) [.drop "a", .drop "b"],
    .onCollection "s" (.push .null)]

/-- Handles are counted, so a result that nobody has a name for may stay in the bus: held by the
source that holds it, or by a cached query; and it may be refreshed once more, while the job of
another live query waits with it as the source. -/
theorem leaks :
    (ring.desk.names.length = 0 ∧ ring.outerRoots = [] ∧ ring.sweep.Registers 1) ∧
      (kept.desk.names.length = 0 ∧ kept.held.length = 0 ∧ kept.bus.queue.events.length = 0 ∧
        kept.bus.scheduler.marked.length = 0 ∧ kept.sweep.Registers 1) ∧
      dropped.log.map (fun | .called .. => true | _ => false) =
        [true, true, false, false, false, true] := by
  refine ⟨⟨?_, ?_, ⟨some 1, some .content⟩, 0, ?_, ?_⟩,
    ⟨?_, ?_, ?_, ?_, ⟨some 1, some .content⟩, 0, ?_, ?_⟩, ?_⟩
  all_goals decide +kernel

end Leaked

end ReactiveQuery
