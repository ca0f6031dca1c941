import ReactiveQuery.Proofs.Live.Rounds

/-! Who is refreshed first.  The jobs of a round are marked in the order in which its events come to
the listeners, so of two live queries the one that hears first is refreshed first. -/

namespace ReactiveQuery

/-- In the list some `P` comes before the first `Q`, or at it. -/
def Ahead {α : Type} (P Q : α → Prop) : List α → Prop
  | [] => False
  | x :: xs => P x ∨ ¬Q x ∧ Ahead P Q xs

namespace Ahead

variable {α β : Type} {P Q : α → Prop} {xs ys : List α}

theorem exists_mem (ahead : Ahead P Q xs) : ∃ x ∈ xs, P x := by
  induction xs with
  | nil => cases ahead
  | cons x xs ih =>
    rcases ahead with here | ⟨-, later⟩
    · exact ⟨x, List.mem_cons_self, here⟩
    · obtain ⟨y, member, found⟩ := ih later
      exact ⟨y, List.mem_cons_of_mem _ member, found⟩

theorem append_iff :
    Ahead P Q (xs ++ ys) ↔ Ahead P Q xs ∨ (∀ x ∈ xs, ¬Q x) ∧ Ahead P Q ys := by
  induction xs with
  | nil => simp [Ahead]
  | cons x xs ih =>
    rw [List.cons_append, Ahead, Ahead, ih, List.forall_mem_cons]
    tauto

/-- What comes after some `Q` does not matter. -/
theorem append_iff_of_mem {x : α} (member : x ∈ xs) (stops : Q x) :
    Ahead P Q (xs ++ ys) ↔ Ahead P Q xs := by
  rw [append_iff, or_iff_left]
  exact fun after => after.1 x member stops

/-- A list that is made of one piece for each entry of another is judged by that one. -/
theorem flatMap_iff {f : β → List α} {P' Q' : β → Prop} {bs : List β}
    (first : ∀ b ∈ bs, Ahead P Q (f b) ↔ P' b) (none : ∀ b ∈ bs, (∀ x ∈ f b, ¬Q x) ↔ ¬Q' b) :
    Ahead P Q (bs.flatMap f) ↔ Ahead P' Q' bs := by
  induction bs with
  | nil => rfl
  | cons b bs ih =>
    obtain ⟨now, later⟩ := List.forall_mem_cons.mp first
    obtain ⟨now', later'⟩ := List.forall_mem_cons.mp none
    rw [List.flatMap_cons, append_iff, now, now', ih later later', Ahead]

theorem filterMap_iff {f : β → Option α} {P' Q' : β → Prop} {bs : List β}
    (first : ∀ b ∈ bs, (∃ x ∈ f b, P x) ↔ P' b) (second : ∀ b ∈ bs, (∃ x ∈ f b, Q x) ↔ Q' b) :
    Ahead P Q (bs.filterMap f) ↔ Ahead P' Q' bs := by
  rw [List.filterMap_eq_flatMap_toList]
  refine flatMap_iff (fun b member => ?_) fun b member => ?_
  · rw [← first b member]
    cases f b <;> simp [Ahead]
  · rw [← second b member]
    cases f b <;> simp

theorem map_iff {f : β → α} {bs : List β} :
    Ahead P Q (bs.map f) ↔ Ahead (fun b => P (f b)) (fun b => Q (f b)) bs := by
  induction bs with
  | nil => rfl
  | cons b bs ih => rw [List.map_cons, Ahead, Ahead, ih]

/-- Where no `P` comes after a `Q`, any `P` is ahead. -/
theorem iff_exists_of_pairwise (ordered : xs.Pairwise fun x y => Q x → ¬P y) :
    Ahead P Q xs ↔ ∃ x ∈ xs, P x := by
  refine ⟨exists_mem, ?_⟩
  rintro ⟨x, member, found⟩
  induction xs with
  | nil => cases member
  | cons y xs ih =>
    obtain ⟨first, others⟩ := List.pairwise_cons.mp ordered
    rcases List.mem_cons.mp member with rfl | later
    · exact .inl found
    · exact .inr ⟨fun stops => first x later stops found, ih others later⟩

/-- Of two entries that come once, the one ahead comes first. -/
theorem iff_sublist {x y : α} (differ : x ≠ y) (once : xs.Nodup) (member : y ∈ xs) :
    Ahead (· = x) (· = y) xs ↔ [x, y].Sublist xs := by
  induction xs with
  | nil => cases member
  | cons z xs ih =>
    obtain ⟨fresh, others⟩ := List.nodup_cons.mp once
    rw [Ahead]
    by_cases here : z = x
    · subst here
      have later := (List.mem_cons.mp member).resolve_left (Ne.symm differ)
      simpa using later
    · by_cases there : z = y
      · subst there
        simp only [here, not_true_eq_false, false_and, or_self, false_iff]
        intro sublist
        have rest : [x, z].Sublist xs := by
          rcases List.sublist_cons_iff.mp sublist with rest | ⟨l, same, -⟩
          · exact rest
          · exact absurd (List.cons.inj same).1.symm here
        exact fresh (rest.subset (by simp))
      · have later := (List.mem_cons.mp member).resolve_left (Ne.symm there)
        simp only [here, there, not_false_eq_true, true_and, false_or, ih others later]
        refine ⟨fun sublist => sublist.cons z, fun sublist => ?_⟩
        rcases List.sublist_cons_iff.mp sublist with rest | ⟨l, same, -⟩
        · exact rest
        · exact absurd (List.cons.inj same).1.symm here

end Ahead

/-- The first marks of two identities come in the order in which all marks come. -/
theorem Jobs.ahead_firsts {J : Type} {jobs : Jobs J} {m n : Nat} :
    Ahead (·.1 = m) (·.1 = n) jobs.firsts ↔ Ahead (·.1 = m) (·.1 = n) jobs := by
  induction jobs with
  | nil => rfl
  | cons x jobs ih =>
    rw [firsts, Ahead, Ahead, ← ih]
    by_cases here : x.1 = m
    · simp [here]
    by_cases there : x.1 = n
    · simp [there]
    refine or_congr_right (and_congr_right fun _ => ?_)
    rw [← List.filterMap_eq_filter]
    refine Ahead.filterMap_iff (fun y _ => ?_) fun y _ => ?_
    · rw [Option.guard_apply]
      grind
    · rw [Option.guard_apply]
      grind

/-- An event comes to the listeners of its topics one after the other. -/
def Event.calls (e : Event) : List (Topic × Event) := (Event.topics e.target e.key).map (·, e)

namespace LiveQuery

/-- Of events that come one after the other, the first that the second query hears of has not come
to it before the first query has heard of something. -/
def Precedes (a b : LiveQuery) (es : List Event) : Prop :=
  Ahead a.HearsOn b.HearsOn (es.flatMap Event.calls)

/-- The one query is over the result of the other, which had been made before. -/
structure Feeds (a b : LiveQuery) : Prop where
  source : b.source = a.result
  older : a.result.loc < b.result.loc

end LiveQuery

namespace World

variable {u v w : World} {q a b : LiveQuery} {i j : Nat} {call : Topic × Event}

/-- What is accepted on a topic. -/
def acceptedOn (w : World) (call : Topic × Event) : Jobs Job :=
  (w.bus.listenersOn call.1).filterMap (Listener.acceptance? call.2)

namespace Enrolled

variable (enrolled : w.Enrolled)
include enrolled

/-- Identities tell live queries apart. -/
theorem job_of_listens {n id : Nat} {route : Route} {job : Job}
    (listens : w.bus.listeners[n]? = some (.invalidate id route job)) (lists : w.bus.Lists q)
    (same : id = q.result.id) : job = q.job := by
  obtain ⟨r, rfl, rfl⟩ := enrolled.ranked.live n id route job listens
  exact enrolled.ranked.one r q ⟨n, route, listens⟩ lists (.inl same)

/-- On a topic it is up to the live query whether its job is accepted. -/
theorem exists_acceptedOn_iff (attached : w.Attached q i) :
    (∃ x ∈ w.acceptedOn call, x.1 = q.result.id) ↔ q.HearsOn call := by
  rw [← attached.mem_listenersOn_iff enrolled]
  constructor
  · rintro ⟨⟨id, job⟩, member, rfl⟩
    obtain ⟨route, among, accepts⟩ := Act.mem_acceptance_iff.mp member
    obtain ⟨n, -, listens⟩ := List.mem_filterMap.mp among
    obtain rfl := enrolled.job_of_listens listens attached.lists rfl
    exact ⟨route, among, accepts⟩
  · rintro ⟨route, among, accepts⟩
    exact ⟨(q.result.id, q.job), Act.mem_acceptance_iff.mpr ⟨route, among, accepts⟩, rfl⟩

/-- On a topic the older of two live queries is accepted first. -/
theorem pairwise_acceptedOn (first : w.bus.Lists a) (second : w.bus.Lists b)
    (older : a.result.loc < b.result.loc) :
    (w.acceptedOn call).Pairwise fun x y => x.1 = b.result.id → ¬y.1 = a.result.id := by
  have place : ∀ {l x q}, l ∈ w.bus.listeners → Listener.acceptance? call.2 l = some x →
      w.bus.Lists q → x.1 = q.result.id → l.place? = some q.result.loc := by
    intro l x q member accepted lists same
    obtain ⟨n, listens⟩ := Array.getElem?_of_mem member
    cases l with
    | script => cases accepted
    | invalidate id route job =>
      simp only [Listener.acceptance?, Option.ite_none_right_eq_some, Option.some.injEq] at accepted
      obtain ⟨-, rfl⟩ := accepted
      rw [enrolled.job_of_listens listens lists same]
      rfl
  refine List.pairwise_filterMap.mpr (List.pairwise_filterMap.mpr
    ((enrolled.ordered call.1).imp fun {m n} ordered l listens l' listens' => ?_))
  intro x accepted y accepted' later earlier
  have here := place (Array.mem_of_getElem? listens) accepted second later
  have there := place (Array.mem_of_getElem? listens') accepted' first earlier
  have wrong := ordered b.result.loc (by simpa [Bus.place?, listens] using here) a.result.loc
    (by simpa [Bus.place?, listens'] using there)
  exact Nat.not_lt.mpr wrong older

end Enrolled

end World

namespace Act

variable {again : Reentry} {u v w : World} {a b : LiveQuery} {i j : Nat} {es : List Event}

/-- In a delivery the job of one live query is accepted before that of another if and only if the
one is the first to hear of something. -/
theorem ahead_acceptances (proper : again.Proper) (enrolled : w.Enrolled)
    (first : w.Attached a i) (second : w.Attached b j) (older : a.result.loc < b.result.loc)
    (stays : v.Attached a i) (stays' : v.Attached b j)
    (gives : (deliver again.perform es).Gives w () v) :
    Ahead (·.1 = a.result.id) (·.1 = b.result.id) (acceptances again es w) ↔ a.Precedes b es := by
  induction es generalizing w with
  | nil => simp [acceptances, LiveQuery.Precedes, Ahead]
  | cons e es ih =>
    obtain ⟨u, told, rest⟩ := gives_deliver_cons.mp gives
    obtain ⟨swept, before⟩ := World.leads_sweep w enrolled
    obtain ⟨enrolled', between⟩ := World.Comes.here.gives (.tell proper e _) told |>.leads swept
    obtain ⟨-, after⟩ := World.Comes.here.gives (.deliver proper es) rest |>.leads enrolled'
    have now := first.between before (between.trans after) stays
    have now' := second.between before (between.trans after) stays'
    have calls : (w.sweep.bus.hearers e).filterMap (Listener.acceptance? e) =
        e.calls.flatMap w.sweep.acceptedOn := by
      rw [Bus.hearers_eq, List.filterMap_flatMap, Event.calls, List.flatMap_map]
      rfl
    have one : ∀ call ∈ e.calls, Ahead (·.1 = a.result.id) (·.1 = b.result.id)
        (w.sweep.acceptedOn call) ↔ a.HearsOn call := fun call _ => by
      rw [Ahead.iff_exists_of_pairwise (swept.pairwise_acceptedOn now.lists now'.lists older)]
      exact swept.exists_acceptedOn_iff now
    have other : ∀ call ∈ e.calls, (∀ x ∈ w.sweep.acceptedOn call, ¬x.1 = b.result.id) ↔
        ¬b.HearsOn call := fun call _ => by
      simp only [← swept.exists_acceptedOn_iff now', not_exists, not_and]
    rw [acceptances_cons told, calls, LiveQuery.Precedes, List.flatMap_cons, Ahead.append_iff,
      Ahead.append_iff, Ahead.flatMap_iff one other,
      ih enrolled' (now.between between after stays) (now'.between between after stays') rest]
    refine or_congr_right (and_congr_left fun _ => ?_)
    rw [List.forall_mem_flatMap]
    exact forall₂_congr other

end Act

namespace Round.Begun

variable {K : Command → Prop} {again : Reentry} {r : Round} {a b q : LiveQuery} {i j : Nat}
  (made : again.Made (Scope.clean K) (Act.Settling K)) (proper : again.Proper)
  (begun : r.Begun K again)

include begun proper

theorem ahead_accepted (first : r.opened.Attached a i) (second : r.opened.Attached b j)
    (older : a.result.loc < b.result.loc) (stays : r.told.Attached a i)
    (stays' : r.told.Attached b j) :
    Ahead (·.1 = a.result.id) (·.1 = b.result.id) (r.accepted again) ↔ a.Precedes b r.batch := by
  obtain ⟨u, delivered, same⟩ := begun.told
  obtain ⟨before, after⟩ := begun.comes_told proper
  obtain ⟨enrolled, later⟩ := before.leads begun.enrolled
  obtain ⟨-, later'⟩ := after.leads enrolled
  have now := first.between later later' stays
  have now' := second.between later later' stays'
  rw [same] at stays stays'
  exact Act.ahead_acceptances proper enrolled now now' older
    (v := u) ⟨stays.derived, stays.listens, stays.retains⟩
    ⟨stays'.derived, stays'.listens, stays'.retains⟩ delivered

include made

/-- The turn in which a result is refreshed is the only one of its identity. -/
theorem exists_refreshes?_iff (refreshed : q.result ∈ r.refreshes again) {t : JobTurn}
    (member : t ∈ r.turns again) :
    (∃ result ∈ t.refreshes?, result = q.result) ↔ t.id = q.result.id := by
  have identity : ∀ {t}, t ∈ r.turns again → t.refreshes? = some q.result → t.id = q.result.id := by
    intro t member found
    obtain ⟨p, -, id, -, same, -⟩ := (begun.refreshes?_eq_some made proper member).mp found
    rw [id, same]
  constructor
  · rintro ⟨_, found, rfl⟩
    exact identity member found
  · intro same
    obtain ⟨t', member', found⟩ := List.mem_filterMap.mp refreshed
    have once : ((r.turns again).map JobTurn.id).Nodup := by
      have ids := ((begun.turns_isPrefix made).sublist.map Prod.fst).nodup
        (Jobs.nodup_firsts (r.accepted again))
      rwa [List.map_map] at ids
    obtain rfl :=
      List.inj_on_of_nodup_map once member member' (same.trans (identity member' found).symm)
    exact ⟨q.result, found, rfl⟩

/-- Of two live queries that a round refreshes the older one comes first if and only if it hears
first. -/
theorem sublist_refreshes_iff (first : r.opened.Attached a i) (second : r.opened.Attached b j)
    (older : a.result.loc < b.result.loc) (stays : r.told.Attached a i)
    (stays' : r.told.Attached b j) (refreshed : a.result ∈ r.refreshes again)
    (refreshed' : b.result ∈ r.refreshes again) :
    [a.result, b.result].Sublist (r.refreshes again) ↔ a.Precedes b r.batch := by
  have differ : a.result ≠ b.result := fun same => by simp [same] at older
  obtain ⟨t, turn, found⟩ := List.mem_filterMap.mp refreshed'
  have last := (begun.exists_refreshes?_iff made proper refreshed' turn).mp ⟨_, found, rfl⟩
  obtain ⟨rest, all⟩ := begun.turns_isPrefix made
  calc [a.result, b.result].Sublist (r.refreshes again)
    _ ↔ Ahead (· = a.result) (· = b.result) (r.refreshes again) :=
      (Ahead.iff_sublist differ (begun.nodup_refreshes made proper) refreshed').symm
    _ ↔ Ahead (·.id = a.result.id) (·.id = b.result.id) (r.turns again) :=
      Ahead.filterMap_iff (fun _ => begun.exists_refreshes?_iff made proper refreshed)
        fun _ => begun.exists_refreshes?_iff made proper refreshed'
    _ ↔ Ahead (·.1 = a.result.id) (·.1 = b.result.id)
          ((r.turns again).map fun t => (t.id, t.job)) := by rw [Ahead.map_iff]
    _ ↔ Ahead (·.1 = a.result.id) (·.1 = b.result.id) (r.accepted again).firsts := by
      rw [← all, Ahead.append_iff_of_mem (List.mem_map_of_mem turn) last]
    _ ↔ Ahead (·.1 = a.result.id) (·.1 = b.result.id) (r.accepted again) := Jobs.ahead_firsts
    _ ↔ a.Precedes b r.batch := begun.ahead_accepted proper first second older stays stays'

end Round.Begun

end ReactiveQuery
