import Mathlib.Data.List.Permutation
import ReactiveQuery.Proofs.Activity
import ReactiveQuery.Proofs.Sort.Stable
import ReactiveQuery.Proofs.Sorting
import ReactiveQuery.Proofs.Value.Order

/-! Sorting by keys.  Equality and order under conversion are not transitive over keys of several
kinds, so sorting keeps apart only neighbours that are out of order.  Where not being greater is
transitive among the rows, as it is among keys on one scale, it is stable. -/

namespace ReactiveQuery

section
variable {α : Type} {compare : α → α → Option Ordering} {items sorted : List α}

/-- What sorting gives when no comparison fails that it makes. -/
theorem sortHalves_of_mergeSortBy (found : mergeSortBy compare items = some sorted) :
    sorted = sortHalves (fun a b => compare a b != some .gt) items := by
  have total := (mergeSortBy_map (fun a b => some ((compare a b).getD .eq)) id
    (fun a _ b _ o answer => by simp [answer]) found).1
  rw [List.map_id, List.map_id] at total
  have same : mayPrecede (fun a b => (compare a b).getD .eq) =
      fun a b => compare a b != some .gt := by
    funext a b
    rw [mayPrecede]
    rcases compare a b with _ | _ | _ | _ <;> rfl
  rw [← same]
  exact Option.some.inj (total.symm.trans (mergeSortBy_pure _ items))

/-- Where no comparison fails, sorting gives a result. -/
theorem exists_mergeSortBy (answers : ∀ a ∈ items, ∀ b ∈ items, (compare a b).isSome) :
    ∃ sorted, mergeSortBy compare items = some sorted := by
  have total := mergeSortBy_pure (m := Option) (fun a b => (compare a b).getD .eq) items
  have found := (mergeSortBy_map compare id (fun a ha b hb o answer => by
    obtain ⟨order, known⟩ := Option.isSome_iff_exists.mp (answers a ha b hb)
    rw [known] at answer
    exact known.trans answer) total).1
  exact ⟨_, by simpa using found⟩

end

namespace SortKey

variable {call : Caller} {ctx : Context} {keys : List SortKey} {items : List Value} {w v : World}

/-- Each row belongs to its item. -/
theorem extractAll_items {done rows : List (List Value × Value)}
    (read : (extractAll call ctx keys done items).Gives w rows v) :
    rows.map (·.2) = done.map (·.2) ++ items := by
  induction items generalizing done w with
  | nil =>
    obtain ⟨rfl, -⟩ := Act.gives_pure.mp read
    rw [List.append_nil]
  | cons item items ih =>
    rw [extractAll, Act.gives_bind] at read
    obtain ⟨row, u, -, rest⟩ := read
    rw [ih rest, List.map_append, List.append_assoc]
    rfl

/-- What sorting gives is the sorted rows without their keys; of less than two items it reads no
keys. -/
theorem sort_gives {rows : List (List Value × Value)}
    (read : (Act.holding items (extractAll call ctx keys [] items)).Gives w rows v)
    {sorted : List Value} {u : World} :
    (sort call ctx keys items).Gives w sorted u ↔ ∃ arranged,
      mergeSortBy (fun a b => compareRows v.heap (keys.map (·.ascending)) a.1 b.1) rows =
        some arranged ∧ sorted = arranged.map (·.2) ∧
      u = if items.length < 2 then w else v := by
  have own : rows.map (·.2) = items := by
    obtain ⟨_, read, -⟩ := Act.gives_holding.mp read
    exact extractAll_items read
  rw [sort]
  by_cases few : items.length < 2
  · rw [mergeSortBy, dif_pos (by rwa [← own, List.length_map] at few), if_pos few]
    simp [few, own, eq_comm]
  · rw [if_neg few, if_neg few, Act.Gives, Act.on_bind_ok read, ← Act.Gives, Act.gives_bind]
    refine exists_congr fun arranged => ?_
    simp [eq_comm, and_assoc]

/-- The item itself as its key, upwards. -/
def itself : SortKey := ⟨.here, [], true⟩

theorem extractAll_itself (done : List (List Value × Value)) :
    (extractAll call ctx [itself] done items).Gives w (done ++ items.map fun v => ([v], v)) w := by
  induction items generalizing done with
  | nil => simp [extractAll]
  | cons item items ih =>
    rw [extractAll, Act.gives_bind]
    refine ⟨[item], w, rfl, ?_⟩
    simpa using ih (done ++ [([item], item)])

theorem sort_itself {sorted : List Value}
    (found : mergeSortBy (w.heap.compareKeys true) items = some sorted) :
    (sort call ctx [itself] items).Gives w sorted w := by
  have read : (Act.holding items (extractAll call ctx [itself] [] items)).Gives w
      (items.map fun v => ([v], v)) w :=
    Act.gives_holding.mpr ⟨_, extractAll_itself [], rfl⟩
  refine (sort_gives read).mpr
    ⟨sorted.map fun v => ([v], v), ?_, by simp [Function.comp_def], by simp⟩
  refine (mergeSortBy_map _ _ (fun a _ b _ order known => ?_) found).1
  simp only [List.map_cons, List.map_nil, compareRows, show itself.ascending = true from rfl, known]
  cases order <;> rfl

/-- Sorting arranges the rows so that none stands directly before one that it is greater than; it
gives a result where the conversion of every key ends.  If not being greater is transitive among the
rows, or the keys are on the same scales, no row stands anywhere before one that it is greater than,
rows of which neither is greater keep the order of the source, and so do those that are equal. -/
theorem sort_respects {rows : List (List Value × Value)}
    (read : (Act.holding items (extractAll call ctx keys [] items)).Gives w rows v) :
    let compare := fun a b : List Value × Value =>
      compareRows v.heap (keys.map (·.ascending)) a.1 b.1
    rows.map (·.2) = items ∧
      ((∀ row ∈ rows, ∀ key ∈ row.1, (v.heap.primitive key).isSome) →
        ∃ sorted u, (sort call ctx keys items).Gives w sorted u) ∧
      ∀ sorted u, (sort call ctx keys items).Gives w sorted u →
        ∃ arranged : List (List Value × Value),
          sorted = arranged.map (·.2) ∧ arranged.Perm rows ∧
          arranged.IsChain (fun a b => compare a b ≠ some .gt) ∧
          ((∀ a ∈ rows, ∀ b ∈ rows, ∀ c ∈ rows, compare a b ≠ some .gt →
              compare b c ≠ some .gt → compare a c ≠ some .gt) ∨
            (∃ scales : List Scale, ∀ row ∈ rows, List.Forall₂ (·.holds ·) scales row.1) →
            arranged.Pairwise (fun a b => compare a b ≠ some .gt) ∧
            StablySorted (fun a b => compare a b != some .gt) rows arranged ∧
            ∀ a b, compare a b = some .eq → [a, b].Sublist rows → [a, b].Sublist arranged) := by
  intro compare
  have own : rows.map (·.2) = items := by
    obtain ⟨_, read, -⟩ := Act.gives_holding.mp read
    exact extractAll_items read
  have total : TotalOn (fun a b => compare a b != some .gt) rows := fun a _ b _ => by
    rw [bne_iff_ne, bne_iff_ne]
    refine Decidable.or_iff_not_imp_left.mpr fun greater => ?_
    rw [show compare b a = some .lt from compareRows_swap (Decidable.not_not.mp greater)]
    decide
  refine ⟨own, fun ends => ?_, fun sorted u gives => ?_⟩
  · obtain ⟨arranged, found⟩ : ∃ arranged, mergeSortBy compare rows = some arranged :=
      exists_mergeSortBy fun a ha b hb => isSome_compareRows (ends a ha) (ends b hb)
    exact ⟨_, _, (sort_gives read).mpr ⟨arranged, found, rfl, rfl⟩⟩
  · obtain ⟨arranged, found, rfl, -⟩ := (sort_gives read).mp gives
    obtain rfl := sortHalves_of_mergeSortBy found
    refine ⟨_, rfl, sortHalves_perm rows,
      (isChain_sortHalves total).imp fun a b => bne_iff_ne.mp, fun orderly => ?_⟩
    have trans : TransOn (fun a b => compare a b != some .gt) rows := fun a ha b hb c hc => by
      rw [bne_iff_ne, bne_iff_ne, bne_iff_ne]
      obtain transitive | ⟨scales, fit⟩ := orderly
      · exact transitive a ha b hb c hc
      · exact compareRows_trans (fit a ha) (fit b hb) (fit c hc)
    have stable := stablySorted_sortHalves total trans
    refine ⟨stable.ordered.imp fun {a b} => bne_iff_ne.mp, stable, fun a b equal before =>
      stable.sublist total before ?_⟩
    have back : compare b a ≠ some .gt := fun greater => by
      cases equal.symm.trans (compareRows_swap greater)
    rw [tied, Bool.and_eq_true, bne_iff_ne, bne_iff_ne, equal]
    exact ⟨by decide, back⟩

/-- Numbers and a boolean, of which two are equal. -/
theorem sort_respects_numbers :
    let call : Caller := fun _ _ _ => pure .null
    let ctx : Context := ⟨⟨0, 0⟩, []⟩
    let items : List Value := [.ofNat 3, .bool true, .ofNat 1, .ofNat 2]
    let rows := items.map fun v => ([v], v)
    (Act.holding items (extractAll call ctx [itself] [] items)).Gives {} rows {} ∧
      ∃ arranged, (sort call ctx [itself] items).Gives {} (arranged.map (·.2)) {} ∧
        arranged.Perm rows ∧
        arranged.Pairwise (fun a b => compareRows {} [true] a.1 b.1 ≠ some .gt) ∧
        [([.bool true], .bool true), ([.ofNat 1], .ofNat 1)].Sublist arranged := by
  intro call ctx items rows
  have read : (Act.holding items (extractAll call ctx [itself] [] items)).Gives {} rows {} :=
    Act.gives_holding.mpr ⟨_, extractAll_itself [], rfl⟩
  obtain ⟨-, gives, laws⟩ := sort_respects read
  obtain ⟨_, u, gives⟩ := gives (by simp [rows, items, Heap.primitive, Value.ofNat])
  obtain ⟨arranged, rfl, perm, -, orderly⟩ := laws _ u gives
  have fit : ∀ row ∈ rows, List.Forall₂ (·.holds ·) [Scale.number] row.1 := by
    simp only [rows, items, List.map_cons, List.map_nil, List.forall_mem_cons]
    exact ⟨.cons rfl .nil, .cons rfl .nil, .cons rfl .nil, .cons rfl .nil, by simp⟩
  obtain ⟨ordered, -, ties⟩ := orderly (.inr ⟨_, fit⟩)
  have equal : compareRows {} [true] [.bool true] [.ofNat 1] = some .eq := by decide +kernel
  obtain ⟨_, -, -, rfl⟩ := (sort_gives read).mp gives
  exact ⟨read, arranged, gives, perm, ordered,
    ties _ _ equal (.cons _ (.cons_cons _ (.cons_cons _ (.cons _ .slnil))))⟩

/-- A text that is no number stays before a number and this before a text, out of order with it;
equal keys are turned around when one goes behind what the other stays behind of; and three keys can
each be greater than the next, so that no arrangement of them is in order. -/
theorem sort_leaves_disorder :
    let call : Caller := fun _ _ _ => pure .null
    let ctx : Context := ⟨⟨0, 0⟩, []⟩
    let compare := ({} : Heap).compareKeys true
    (sort call ctx [itself] [.text "a", .ofNat 1, .text "5"]).Gives {}
        [.text "a", .ofNat 1, .text "5"] {} ∧
      compare (.text "a") (.text "5") = some .gt ∧
      (sort call ctx [itself] [.text "x", .ofNat 10, .text "10", .text "z"]).Gives {}
        [.text "10", .text "x", .ofNat 10, .text "z"] {} ∧
      compare (.ofNat 10) (.text "10") = some .eq ∧
      ∀ arranged : List Value, arranged.Perm [.text "9", .text "11", .ofNat 10] →
        ¬arranged.Pairwise fun a b => compare a b ≠ some .gt := by
  intro call ctx compare
  have cyclic : ∀ arranged ∈ ([.text "9", .text "11", .ofNat 10] : List Value).permutations',
      ¬arranged.Pairwise fun a b => compare a b ≠ some .gt := by decide +kernel
  have a1 : compare (.text "a") (.ofNat 1) = some .lt := by decide +kernel
  have one5 : compare (.ofNat 1) (.text "5") = some .lt := by decide +kernel
  have x10 : compare (.text "x") (.ofNat 10) = some .lt := by decide +kernel
  have tenz : compare (.text "10") (.text "z") = some .lt := by decide +kernel
  have xten : compare (.text "x") (.text "10") = some .gt := by decide +kernel
  have xz : compare (.text "x") (.text "z") = some .lt := by decide +kernel
  have nz : compare (.ofNat 10) (.text "z") = some .lt := by decide +kernel
  refine ⟨sort_itself (by simp [mergeSortBy, mergeBy, compare, a1, one5]), by decide +kernel,
    sort_itself ?_, by decide +kernel,
    fun arranged perm => cyclic arranged (List.mem_permutations'.mpr perm)⟩
  change mergeSortBy compare _ = _
  simp [mergeSortBy, mergeBy, x10, tenz, xten, xz, nz]

end SortKey

end ReactiveQuery
