import Mathlib.Data.List.Chain
import Mathlib.Data.List.Sort
import ReactiveQuery.Sort

/-! Sorting by halves under a comparison that need not be an order.  Nothing is lost and nothing is
added; where no two elements are put behind each other, neighbours stand as the comparison has
them; and where standing before is transitive as well, the result is the stable sort, the only
one there is. -/

namespace ReactiveQuery

variable {α : Type}

section
variable (le : α → α → Bool)

/-- Sorts by halves, with a test that says whether one element may stand before another. -/
def sortHalves (items : List α) : List α :=
  if items.length < 2 then items
  else
    (sortHalves (items.take (items.length / 2))).merge
      (sortHalves (items.drop (items.length / 2))) le
termination_by items.length
decreasing_by
  · simp only [List.length_take]; omega
  · simp only [List.length_drop]; omega

/-- Of any two of the items one may stand before the other. -/
def TotalOn (items : List α) : Prop :=
  ∀ a ∈ items, ∀ b ∈ items, le a b = true ∨ le b a = true

/-- Among the items, what may stand before one may stand before all that this one may precede. -/
def TransOn (items : List α) : Prop :=
  ∀ a ∈ items, ∀ b ∈ items, ∀ c ∈ items, le a b = true → le b c = true → le a c = true

/-- Each of two elements may stand before the other. -/
def tied (a b : α) : Bool := le a b && le b a

/-- The items in another arrangement, in which each may stand before all that follow it, and tied
ones have kept their order. -/
structure StablySorted (items sorted : List α) : Prop where
  perm : sorted.Perm items
  ordered : sorted.Pairwise (le · ·)
  ties : ∀ a ∈ items, sorted.filter (tied le a) = items.filter (tied le a)

end

/-- An element may stand before another unless it compares as the greater one. -/
def mayPrecede (compare : α → α → Ordering) (a b : α) : Bool := compare a b != .gt

section
variable {m : Type → Type} [Monad m] [LawfulMonad m] (compare : α → α → Ordering)

theorem mergeBy_pure (left right : List α) :
    mergeBy (fun a b => (pure (compare a b) : m Ordering)) left right =
      pure (left.merge right (mayPrecede compare)) := by
  induction left generalizing right with
  | nil => rw [mergeBy, List.nil_merge]
  | cons l left outer =>
    induction right with
    | nil => simp [mergeBy]
    | cons r right inner =>
      rw [mergeBy, pure_bind, List.cons_merge_cons]
      by_cases behind : compare l r = .gt
      · simp [mayPrecede, behind, inner]
      · simp [mayPrecede, behind, outer]

/-- A comparison that always answers makes sorting give a list and do nothing else. -/
theorem mergeSortBy_pure (items : List α) :
    mergeSortBy (fun a b => (pure (compare a b) : m Ordering)) items =
      pure (sortHalves (mayPrecede compare) items) := by
  fun_induction sortHalves (mayPrecede compare) items with
  | case1 items short => rw [mergeSortBy, dif_pos short]
  | case2 items long first second =>
    rw [mergeSortBy, dif_neg long]
    simp only [first, second, pure_bind, mergeBy_pure]

end

section
variable {le : α → α → Bool} {items xs ys sx sy : List α}

/-- What holds of at most one item, and of a merge when it holds of both parts, holds of sorting. -/
theorem sortHalves_induction {P : List α → List α → Prop}
    (short : ∀ xs : List α, xs.length < 2 → P xs xs)
    (merge : ∀ xs ys sx sy, P xs sx → P ys sy → P (xs ++ ys) (sx.merge sy le)) (items : List α) :
    P items (sortHalves le items) := by
  fun_induction sortHalves le items with
  | case1 items few => exact short items few
  | case2 items _ first second =>
    have both := merge _ _ _ _ first second
    rwa [List.take_append_drop] at both

theorem sortHalves_perm (items : List α) : (sortHalves le items).Perm items :=
  sortHalves_induction (P := fun xs sorted => sorted.Perm xs) (fun _ _ => .refl _)
    (fun _ _ _ _ first second => (List.merge_perm_append ..).trans (first.append second)) items

/-- A merge begins with the first element of one of its parts. -/
theorem mem_head?_merge {a : α} (first : a ∈ (xs.merge ys le).head?) :
    a ∈ xs.head? ∨ a ∈ ys.head? := by
  cases xs with
  | nil => exact .inr (by simpa using first)
  | cons x xs =>
    cases ys with
    | nil => exact .inl (by simpa using first)
    | cons y ys =>
      rw [List.cons_merge_cons] at first
      split at first
      · exact .inl first
      · exact .inr first

/-- At a change of side the element that was passed over stands next, so neighbours keep the order
that the test gives, also where it is not transitive. -/
theorem isChain_merge (total : TotalOn le (xs ++ ys)) (left : xs.IsChain (le · ·))
    (right : ys.IsChain (le · ·)) : (xs.merge ys le).IsChain (le · ·) := by
  induction xs generalizing ys with
  | nil => simpa using right
  | cons x xs outer =>
    induction ys with
    | nil => simpa using left
    | cons y ys inner =>
      rw [List.cons_merge_cons]
      rw [List.isChain_cons] at left right
      split
      · next before =>
        refine List.isChain_cons.mpr ⟨fun z next => ?_,
          outer (fun a ha b hb => total a (by simp_all) b (by simp_all)) left.2
            (List.isChain_cons.mpr right)⟩
        rcases mem_head?_merge next with next | next
        · exact left.1 z next
        · cases next
          exact before
      · next behind =>
        have back : le y x = true :=
          (total x (by simp) y (by simp)).resolve_left behind
        refine List.isChain_cons.mpr ⟨fun z next => ?_,
          inner (fun a ha b hb => total a (by grind) b (by grind)) right.2⟩
        rcases mem_head?_merge next with next | next
        · cases next
          exact back
        · exact right.1 z next

theorem pairwise_merge_of_trans (total : TotalOn le items) (trans : TransOn le items)
    (inside : ∀ a ∈ xs ++ ys, a ∈ items) (left : xs.Pairwise (le · ·))
    (right : ys.Pairwise (le · ·)) : (xs.merge ys le).Pairwise (le · ·) := by
  induction xs generalizing ys with
  | nil => simpa using right
  | cons x xs outer =>
    induction ys with
    | nil => simpa using left
    | cons y ys inner =>
      have hx : x ∈ items := inside x (by simp)
      have hy : y ∈ items := inside y (by simp)
      rw [List.cons_merge_cons]
      rw [List.pairwise_cons] at left right
      split
      · next before =>
        refine List.pairwise_cons.mpr ⟨fun z later => ?_,
          outer (fun a ha => inside a (by simp_all)) left.2 (List.pairwise_cons.mpr right)⟩
        have hz : z ∈ items := inside z (by grind [List.mem_merge])
        rcases List.mem_merge.mp later with later | later
        · exact left.1 z later
        · rcases List.mem_cons.mp later with rfl | later
          · exact before
          · exact trans x hx y hy z hz before (right.1 z later)
      · next behind =>
        have back : le y x = true := (total x hx y hy).resolve_left behind
        refine List.pairwise_cons.mpr ⟨fun z later => ?_,
          inner (fun a ha => inside a (by grind)) right.2⟩
        have hz : z ∈ items := inside z (by grind [List.mem_merge])
        rcases List.mem_merge.mp later with later | later
        · rcases List.mem_cons.mp later with rfl | later
          · exact back
          · exact trans y hy x hx z hz back (left.1 z later)
        · exact right.1 z later

/-- When an element of the right part goes first, nothing tied with it is left in the left part. -/
theorem filter_tied_merge {a : α} (trans : TransOn le items) (known : a ∈ items)
    (inside : ∀ a ∈ xs ++ ys, a ∈ items) (left : xs.Pairwise (le · ·)) :
    (xs.merge ys le).filter (tied le a) = xs.filter (tied le a) ++ ys.filter (tied le a) := by
  induction xs generalizing ys with
  | nil => simp
  | cons x xs outer =>
    induction ys with
    | nil => simp
    | cons y ys inner =>
      have hx : x ∈ items := inside x (by simp)
      have hy : y ∈ items := inside y (by simp)
      have onLeft := @outer (y :: ys) (fun b hb => inside b (by simp_all)) left.of_cons
      have onRight := inner fun b hb => inside b (by grind)
      rw [List.cons_merge_cons]
      split
      · rw [List.filter_cons, onLeft, List.filter_cons (x := x)]
        split <;> rfl
      · next behind =>
        rw [List.filter_cons, onRight]
        split
        · next tie =>
          have none : (x :: xs).filter (tied le a) = [] := by
            refine List.filter_eq_nil_iff.mpr fun z member same => behind ?_
            have hz : z ∈ items := inside z (by grind)
            rw [tied, Bool.and_eq_true] at tie same
            have between : le z y = true := trans z hz a known y hy same.2 tie.1
            rcases List.mem_cons.mp member with rfl | member
            · exact between
            · exact trans x hx z hz y hy (List.rel_of_pairwise_cons left member) between
          rw [none, List.nil_append, List.nil_append, List.filter_cons, if_pos tie]
        · next apart => rw [List.filter_cons (x := y), if_neg apart]

/-- Tied elements are tied with the same ones. -/
theorem tied_congr {a b c : α} (trans : TransOn le items) (ha : a ∈ items) (hb : b ∈ items)
    (hc : c ∈ items) (tie : tied le a b = true) : tied le a c = tied le b c := by
  simp only [tied, Bool.and_eq_true] at tie ⊢
  have before : le a c = le b c :=
    Bool.eq_iff_iff.mpr ⟨trans b hb a ha c hc tie.2, trans a ha b hb c hc tie.1⟩
  have behind : le c a = le c b :=
    Bool.eq_iff_iff.mpr ⟨fun above => trans c hc a ha b hb above tie.1,
      fun above => trans c hc b hb a ha above tie.2⟩
  rw [before, behind]

namespace StablySorted

variable {sorted other : List α}

/-- What is sorted already is its own stable arrangement. -/
theorem self (ordered : items.Pairwise (le · ·)) : StablySorted le items items :=
  ⟨.refl _, ordered, fun _ _ => rfl⟩

/-- The elements tied with one from elsewhere have kept their order too. -/
theorem filter_tied {a : α} (trans : TransOn le items) (known : a ∈ items)
    (inside : ∀ x ∈ xs, x ∈ items) (stable : StablySorted le xs sorted) :
    sorted.filter (tied le a) = xs.filter (tied le a) := by
  by_cases some : ∃ x ∈ xs, tied le a x = true
  · obtain ⟨x, member, tie⟩ := some
    have alike : ∀ z ∈ xs, tied le a z = tied le x z := fun z hz =>
      tied_congr trans known (inside x member) (inside z hz) tie
    rw [List.filter_congr alike,
      List.filter_congr fun z hz => alike z (stable.perm.mem_iff.mp hz)]
    exact stable.ties x member
  · have none : ∀ z ∈ xs, ¬tied le a z = true := fun z hz tie => some ⟨z, hz, tie⟩
    rw [List.filter_eq_nil_iff.mpr none,
      List.filter_eq_nil_iff.mpr fun z hz => none z (stable.perm.mem_iff.mp hz)]

theorem merge (total : TotalOn le (xs ++ ys)) (trans : TransOn le (xs ++ ys))
    (left : StablySorted le xs sx) (right : StablySorted le ys sy) :
    StablySorted le (xs ++ ys) (sx.merge sy le) := by
  have both := left.perm.append right.perm
  have inside : ∀ a ∈ sx ++ sy, a ∈ xs ++ ys := fun a => both.mem_iff.mp
  refine ⟨(List.merge_perm_append ..).trans both,
    pairwise_merge_of_trans total trans inside left.ordered right.ordered, fun a known => ?_⟩
  rw [filter_tied_merge trans known inside left.ordered, List.filter_append,
    left.filter_tied trans known fun x => List.mem_append_left ys,
    right.filter_tied trans known fun y => List.mem_append_right xs]

/-- Of two tied items the one that comes first goes on coming first. -/
theorem sublist {a b : α} (total : TotalOn le items) (stable : StablySorted le items sorted)
    (before : [a, b].Sublist items) (tie : tied le a b = true) : [a, b].Sublist sorted := by
  have known : a ∈ items := before.subset (by simp)
  have self : tied le a a = true := by
    rw [tied, Bool.and_self]
    exact (total a known a known).elim id id
  have both := before.filter (tied le a)
  rw [← stable.ties a known, List.filter_cons_of_pos self, List.filter_cons_of_pos tie,
    List.filter_nil] at both
  exact both.trans List.filter_sublist

/-- Stable arrangements begin with the same element, the first of those that may stand before all
others, and go on alike. -/
theorem unique (total : TotalOn le items) (first : StablySorted le items sorted)
    (second : StablySorted le items other) : sorted = other := by
  have perm : other.Perm sorted := second.perm.trans first.perm.symm
  have known : ∀ a ∈ sorted, a ∈ items := fun a => first.perm.mem_iff.mp
  have ties : ∀ a ∈ sorted, sorted.filter (tied le a) = other.filter (tied le a) := fun a member =>
    (first.ties a (known a member)).trans (second.ties a (known a member)).symm
  have ordered := first.ordered
  have ordered' := second.ordered
  clear first second
  induction sorted generalizing other with
  | nil => rw [perm.eq_nil]
  | cons x sorted ih =>
    cases other with
    | nil => cases perm.symm.eq_nil
    | cons y other =>
      have self : ∀ a ∈ items, le a a = true := fun a ha => (total a ha a ha).elim id id
      have hx := known x (by simp)
      have hy := known y (perm.mem_iff.mp (by simp))
      have xy : le x y = true := by
        rcases List.mem_cons.mp (perm.mem_iff.mp (List.mem_cons_self (a := y))) with rfl | later
        · exact self y hy
        · exact List.rel_of_pairwise_cons ordered later
      have yx : le y x = true := by
        rcases List.mem_cons.mp (perm.mem_iff.mpr (List.mem_cons_self (a := x))) with rfl | later
        · exact self x hx
        · exact List.rel_of_pairwise_cons ordered' later
      -- Each stands before the other, so both are first among those tied with them.
      have same : x = y := by
        have heads := ties x (by simp)
        rw [List.filter_cons_of_pos (by simp [tied, self x hx]),
          List.filter_cons_of_pos (by simp [tied, xy, yx])] at heads
        exact (List.cons.inj heads).1
      subst same
      refine congrArg _ (ih perm.cons_inv (fun a ha => known a (List.mem_cons_of_mem _ ha))
        (fun a ha => ?_) ordered.of_cons ordered'.of_cons)
      have here := ties a (List.mem_cons_of_mem _ ha)
      rw [List.filter_cons, List.filter_cons] at here
      split at here
      · exact (List.cons.inj here).2
      · exact here

end StablySorted

/-- Sorting by halves is stable where standing before is total and transitive. -/
theorem stablySorted_sortHalves (total : TotalOn le items) (trans : TransOn le items) :
    StablySorted le items (sortHalves le items) := by
  refine sortHalves_induction (P := fun xs sorted =>
    (∀ x ∈ xs, x ∈ items) → StablySorted le xs sorted) (fun xs short _ => .self ?_)
    (fun xs ys sx sy left right inside => ?_) items fun _ => id
  · match xs, short with
    | [], _ => exact .nil
    | [_], _ => exact List.pairwise_singleton ..
  · exact .merge (fun a ha b hb => total a (inside a ha) b (inside b hb))
      (fun a ha b hb c hc => trans a (inside a ha) b (inside b hb) c (inside c hc))
      (left fun x hx => inside x (List.mem_append_left ys hx))
      (right fun y hy => inside y (List.mem_append_right xs hy))

/-- Neighbours in the result of sorting by halves stand as the test has them. -/
theorem isChain_sortHalves (total : TotalOn le items) :
    (sortHalves le items).IsChain (le · ·) := by
  refine (sortHalves_induction (P := fun xs sorted =>
    (∀ x ∈ xs, x ∈ items) → sorted.Perm xs ∧ sorted.IsChain (le · ·)) (fun xs short _ => ?_)
    (fun xs ys sx sy left right inside => ?_) items fun _ => id).2
  · refine ⟨.refl _, ?_⟩
    match xs, short with
    | [], _ => exact .nil
    | [_], _ => exact .singleton _
  · obtain ⟨permL, chainL⟩ := left fun x hx => inside x (List.mem_append_left ys hx)
    obtain ⟨permR, chainR⟩ := right fun y hy => inside y (List.mem_append_right xs hy)
    have known : ∀ a ∈ sx ++ sy, a ∈ items := fun a ha =>
      inside a ((permL.append permR).mem_iff.mp ha)
    exact ⟨(List.merge_perm_append ..).trans (permL.append permR),
      isChain_merge (fun a ha b hb => total a (known a ha) b (known b hb)) chainL chainR⟩

theorem orderedInsert_eq_merge (a : α) (xs : List α) :
    xs.orderedInsert (le · ·) a = [a].merge xs le := by
  induction xs with
  | nil => simp
  | cons x xs ih =>
    rw [List.orderedInsert_cons, List.cons_merge_cons, ih]
    split <;> simp

/-- Insertion merges one element at a time, so it gives a stable arrangement too. -/
theorem stablySorted_insertionSort (total : TotalOn le items) (trans : TransOn le items) :
    StablySorted le items (items.insertionSort (le · ·)) := by
  induction items with
  | nil => exact .self .nil
  | cons a rest ih =>
    rw [List.insertionSort_cons, orderedInsert_eq_merge]
    have inserted : StablySorted le rest (rest.insertionSort (le · ·)) :=
      ih (fun b hb c hc => total b (by simp [hb]) c (by simp [hc]))
        fun b hb c hc d hd => trans b (by simp [hb]) c (by simp [hc]) d (by simp [hd])
    exact .merge total trans (.self (List.pairwise_singleton _ a)) inserted

end

/-- Under a comparison that always answers, sorting gives the items in another arrangement and does
nothing else.  If of two items never both are greater than the other, no item stands directly
before one that it is greater than.  If not being greater is transitive besides, no item stands
anywhere before one that it is greater than, items of which neither is greater keep their order,
every stable sort and insertion among them gives the same, and sorting again changes nothing. -/
theorem mergeSortBy_arranges (compare : α → α → Ordering) (items : List α) :
    ∃ sorted : List α,
      (∀ (m : Type → Type) [Monad m] [LawfulMonad m],
        mergeSortBy (fun a b => (pure (compare a b) : m Ordering)) items = pure sorted) ∧
      sorted.Perm items ∧
      ((∀ a ∈ items, ∀ b ∈ items, compare a b = .gt → compare b a ≠ .gt) →
        sorted.IsChain (fun a b => compare a b ≠ .gt) ∧
        ((∀ a ∈ items, ∀ b ∈ items, ∀ c ∈ items,
            compare a b ≠ .gt → compare b c ≠ .gt → compare a c ≠ .gt) →
          sorted.Pairwise (fun a b => compare a b ≠ .gt) ∧
          StablySorted (mayPrecede compare) items sorted ∧
          (∀ other, StablySorted (mayPrecede compare) items other → other = sorted) ∧
          items.insertionSort (mayPrecede compare · ·) = sorted ∧
          ∀ (m : Type → Type) [Monad m] [LawfulMonad m],
            mergeSortBy (fun a b => (pure (compare a b) : m Ordering)) sorted = pure sorted)) := by
  have may : ∀ a b, mayPrecede compare a b = true ↔ compare a b ≠ .gt := fun a b => by
    simp [mayPrecede]
  have perm : (sortHalves (mayPrecede compare) items).Perm items := sortHalves_perm items
  refine ⟨_, fun m _ _ => mergeSortBy_pure compare items, perm, fun asymmetric => ?_⟩
  have total : TotalOn (mayPrecede compare) items := fun a ha b hb => by
    rw [may, may]
    exact Decidable.or_iff_not_imp_left.mpr fun greater =>
      asymmetric a ha b hb (Decidable.not_not.mp greater)
  refine ⟨(isChain_sortHalves total).imp fun a b => (may a b).mp, fun transitive => ?_⟩
  have trans : TransOn (mayPrecede compare) items := fun a ha b hb c hc => by
    rw [may, may, may]
    exact transitive a ha b hb c hc
  have stable := stablySorted_sortHalves total trans
  have inside : ∀ a ∈ sortHalves (mayPrecede compare) items, a ∈ items := fun a =>
    perm.mem_iff.mp
  have total' : TotalOn (mayPrecede compare) (sortHalves (mayPrecede compare) items) :=
    fun a ha b hb => total a (inside a ha) b (inside b hb)
  have again : sortHalves (mayPrecede compare) (sortHalves (mayPrecede compare) items) =
      sortHalves (mayPrecede compare) items :=
    (stablySorted_sortHalves total' fun a ha b hb c hc =>
      trans a (inside a ha) b (inside b hb) c (inside c hc)).unique total' (.self stable.ordered)
  refine ⟨stable.ordered.imp fun {a b} => (may a b).mp, stable,
    fun other arranged => arranged.unique total stable,
    (stablySorted_insertionSort total trans).unique total stable, fun m _ _ => ?_⟩
  rw [mergeSortBy_pure, again]

/-- Numbers by their tens, of which some are the same. -/
theorem mergeSortBy_arranges_tens :
    let tens : Nat → Nat → Ordering := fun a b => compare (a / 10) (b / 10)
    let items := [31, 12, 35, 18, 7]
    (∀ a ∈ items, ∀ b ∈ items, tens a b = .gt → tens b a ≠ .gt) ∧
      (∀ a ∈ items, ∀ b ∈ items, ∀ c ∈ items,
        tens a b ≠ .gt → tens b c ≠ .gt → tens a c ≠ .gt) ∧
      StablySorted (mayPrecede tens) items [7, 12, 18, 31, 35] ∧
      mergeSortBy (fun a b => some (tens a b)) items = some [7, 12, 18, 31, 35] := by
  intro tens items
  have asymmetric : ∀ a ∈ items, ∀ b ∈ items, tens a b = .gt → tens b a ≠ .gt := by decide
  have transitive : ∀ a ∈ items, ∀ b ∈ items, ∀ c ∈ items,
      tens a b ≠ .gt → tens b c ≠ .gt → tens a c ≠ .gt := by decide
  obtain ⟨sorted, gives, -, laws⟩ := mergeSortBy_arranges tens items
  obtain ⟨-, stable, -, inserted, -⟩ := (laws asymmetric).2 transitive
  have found : items.insertionSort (mayPrecede tens · ·) = [7, 12, 18, 31, 35] := by decide
  obtain rfl := inserted.symm.trans found
  exact ⟨asymmetric, transitive, stable, gives Option⟩

end ReactiveQuery
