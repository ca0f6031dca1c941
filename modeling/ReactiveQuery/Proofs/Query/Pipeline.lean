import Mathlib.Data.List.Forall2
import Mathlib.Data.List.Perm.Basic
import ReactiveQuery.Proofs.Query.Effectless
import ReactiveQuery.Proofs.Sort.Columns

/-! What a query comes to where its evaluations have no effects.  Filtering, projecting and reading
keys then are passes over lists, and the rows are those of the pipeline that the query describes:
the projected matches, sorted before or after projection. -/

namespace ReactiveQuery

/-- Rows of keys compare alike where the cells are the same. -/
theorem compareRows_cells {g h : Heap} (same : g.cells = h.cells) (flags : List Bool)
    (as bs : List Value) : compareRows g flags as bs = compareRows h flags as bs := by
  have primitive (v : Value) : g.primitive v = h.primitive v :=
    Heap.primitive_congr (Heap.text_cells same v)
  induction flags generalizing as bs with
  | nil => rfl
  | cons ascending flags ih =>
    match as, bs with
    | [], _ | _ :: _, [] => rfl
    | a :: as, b :: bs =>
      simp only [compareRows, Heap.compareKeys, Heap.looseEq, Heap.greater, Heap.less,
        Heap.looseCompare, primitive, ih]

/-- Each of the right-hand members has a partner. -/
theorem exists_of_forall₂ {α β : Type} {R : α → β → Prop} {as : List α} {bs : List β}
    (all : List.Forall₂ R as bs) : ∀ b ∈ bs, ∃ a ∈ as, R a b := by
  induction all with
  | nil => nofun
  | cons first _ ih =>
    refine List.forall_mem_cons.mpr ⟨⟨_, List.mem_cons_self, first⟩, fun b member => ?_⟩
    obtain ⟨a, inside, related⟩ := ih b member
    exact ⟨a, List.mem_cons_of_mem _ inside, related⟩

/-- Rows with the keys that they are sorted by are sorted in some way. -/
abbrev RowSort := List SortKey → List (List Value × Value) → Option (List (List Value × Value))

/-- Merge sort by keys, in the directions of the keys. -/
def mergeRows (h : Heap) : RowSort := fun keys =>
  mergeSortBy fun a b => compareRows h (keys.map (·.ascending)) a.1 b.1

/-- The conversions of keys come to an end. -/
def SortKey.Convert (h : Heap) (_ : List SortKey) (row : List Value) : Prop :=
  ∀ key ∈ row, (h.primitive key).isSome

/-- The keys are in columns that run in the directions of the keys. -/
def SortKey.InColumns (columns : List (Column × Bool)) (keys : List SortKey) (row : List Value) :
    Prop :=
  columns.map (·.2) = keys.map (·.ascending) ∧
    List.Forall₂ (fun c key => c.1.holds key) columns row

/-- The same keys, the other way around. -/
def SortKey.turned (keys : List SortKey) : List SortKey :=
  keys.map fun key => { key with ascending := !key.ascending }

theorem SortKey.InColumns.convert {columns : List (Column × Bool)} {keys : List SortKey}
    {row : List Value} (fit : InColumns columns keys row) (h : Heap) : Convert h keys row := by
  intro key member
  obtain ⟨c, -, held⟩ := exists_of_forall₂ fit.2 key member
  exact Column.isSome_primitive h held

section
variable {columns : List (Column × Bool)} {keys : List SortKey}
  {keyed : List (List Value × Value)}

/-- Where the keys are in columns, merge sort is the stable sort in lexicographic order. -/
theorem mergeRows_columns (h : Heap)
    (fit : ∀ row ∈ keyed, SortKey.InColumns columns keys row.1) :
    mergeRows h keys keyed = some (keyed.mergeSort (lexBefore columns)) := by
  cases keyed with
  | nil => simp [mergeRows, mergeSortBy]
  | cons row rows =>
    rw [mergeRows, ← (fit row List.mem_cons_self).1]
    exact mergeSortBy_columns fun row member => (fit row member).2

/-- Turning every key around mirrors the sort: of the rows read backwards, it gives the sorted rows
read backwards. -/
theorem mergeRows_turned (h : Heap)
    (fit : ∀ row ∈ keyed, SortKey.InColumns columns keys row.1) :
    mergeRows h (SortKey.turned keys) keyed =
      (mergeRows h keys keyed.reverse).map List.reverse := by
  have turned : ∀ row ∈ keyed,
      SortKey.InColumns (columns.map fun c => (c.1, !c.2)) (SortKey.turned keys) row.1 := by
    refine fun row member => ⟨?_, List.forall₂_map_left_iff.mpr (fit row member).2⟩
    have flags := congrArg (List.map (!·)) (fit row member).1
    simpa [SortKey.turned, Function.comp_def] using flags
  rw [mergeRows_columns h turned, mergeSort_mirrored,
    mergeRows_columns h fun row member => fit row (List.mem_reverse.mp member), Option.map_some]

end

/-- Sorted is what is sorted by the keys that are read from each item. -/
def SortKey.Arranges (call : Caller) (ctx : Context) (w : World) (sort : RowSort)
    (keys : List SortKey) (items sorted : List Value) : Prop :=
  ∃ keyed arranged : List (List Value × Value), keyed.map (·.2) = items ∧
    (∀ row ∈ keyed, (extract call ctx row.2 [] keys).Yields w row.1) ∧
    sort keys keyed = some arranged ∧ sorted = arranged.map (·.2)

namespace SortKey.Arranges

variable {call : Caller} {ctx : Context} {w u : World} {keys : List SortKey}
  {items sorted : List Value} {h : Heap}

theorem perm (arranges : Arranges call ctx w (mergeRows h) keys items sorted) :
    sorted.Perm items := by
  obtain ⟨keyed, arranged, rfl, -, found, rfl⟩ := arranges
  rw [sortHalves_of_mergeSortBy found]
  exact (sortHalves_perm keyed).map _

theorem mem (arranges : Arranges call ctx w (mergeRows h) keys items sorted) {item : Value}
    (member : item ∈ sorted) : item ∈ items :=
  arranges.perm.mem_iff.mp member

theorem before (arranges : Arranges call ctx u (mergeRows u.heap) keys items sorted)
    (later : w.Undisturbed u) : Arranges call ctx w (mergeRows w.heap) keys items sorted := by
  obtain ⟨keyed, arranged, own, reads, found, rfl⟩ := arranges
  simp only [mergeRows, compareRows_cells later.cells] at found
  exact ⟨keyed, arranged, own, fun row member => (reads row member).before later, found, rfl⟩

theorem lexicographic (arranges : Arranges call ctx w (mergeRows h) keys items sorted)
    {columns : List (Column × Bool)}
    (fit : ∀ item ∈ items, ∀ row, (extract call ctx item [] keys).Yields w row →
      InColumns columns keys row) :
    Arranges call ctx w (fun _ keyed => some (keyed.mergeSort (lexBefore columns))) keys items
      sorted := by
  obtain ⟨keyed, arranged, rfl, reads, found, rfl⟩ := arranges
  refine ⟨keyed, arranged, rfl, reads, (mergeRows_columns h fun row member => ?_).symm.trans found,
    rfl⟩
  exact fit row.2 (List.mem_map_of_mem member) row.1 (reads row member)

end SortKey.Arranges

namespace Definition

/-- The pipeline that a query describes, from the matches to the rows. -/
def Pipeline (d : Definition) (call : Caller) (ctx : Context) (w : World) (sort : RowSort)
    (matched rows : List Value) : Prop :=
  let projected := List.Forall₂ fun item row => (d.project call ctx item).Yields w row
  match d.sort with
  | none => projected matched rows
  | some keys =>
    if d.sortsFirst then ∃ sorted, SortKey.Arranges call ctx w sort keys matched sorted ∧
      projected sorted rows
    else ∃ made, projected matched made ∧ SortKey.Arranges call ctx w sort keys made rows

/-- All the keys that a query sorts by are as told: those of the matches, or of what they are
projected to. -/
def KeysAre (d : Definition) (call : Caller) (ctx : Context) (w : World) (matched : List Value)
    (Q : List SortKey → List Value → Prop) : Prop :=
  ∀ keys, d.sort = some keys → ∀ item ∈ matched, ∀ x,
    (if d.sortsFirst then x = item else (d.project call ctx item).Yields w x) →
    ∀ row, (SortKey.extract call ctx x [] keys).Yields w row → Q keys row

end Definition

section
variable {d : Definition} {call : Caller} {ctx : Context} {w u : World} {accept : Value → Bool}
  {items : List Value}

namespace Definition

theorem filterItems_settled
    (filter : ∀ item ∈ items, (d.accepts call ctx item).Settles w ∧
      ∀ kept, (d.accepts call ctx item).Yields w kept → kept = accept item)
    (later : w.Undisturbed u) :
    ∃ v, (d.filterItems call ctx items).Gives u (items.filter accept) v ∧ u.Undisturbed v := by
  -- Each item leaves another world, so the pass may start in any world like the first.
  induction items generalizing u with
  | nil => exact ⟨u, by simp [filterItems], .refl u⟩
  | cons item items ih =>
    obtain ⟨⟨settles, told⟩, rest⟩ := List.forall_mem_cons.mp filter
    obtain ⟨kept, v, gives, on⟩ := settles u later
    obtain rfl := told kept ⟨v, u, v, later, gives, .refl v⟩
    obtain ⟨v', gives', on'⟩ := ih rest (later.trans on)
    refine ⟨v', ?_, on.trans on'⟩
    rw [filterItems, Act.gives_bind]
    refine ⟨_, v, gives, ?_⟩
    cases told : accept item with
    | true => simpa [told] using gives'
    | false => simpa [told] using gives'

theorem projectItems_settled (project : ∀ item ∈ items, (d.project call ctx item).Settles w)
    (later : w.Undisturbed u) (done : List Value) :
    ∃ rows v, (d.projectItems call ctx done items).Gives u (done ++ rows) v ∧ u.Undisturbed v ∧
      List.Forall₂ (fun item row => (d.project call ctx item).Came w row v) items rows := by
  induction items generalizing u done with
  | nil => exact ⟨[], u, by simp [projectItems], .refl u, .nil⟩
  | cons item items ih =>
    obtain ⟨settles, rest⟩ := List.forall_mem_cons.mp project
    obtain ⟨row, v, gives, on, came⟩ := settles.holding later done
    obtain ⟨rows, v', gives', on', all⟩ := ih rest (later.trans on) (done ++ [row])
    refine ⟨row :: rows, v', ?_, on.trans on', .cons ((came.before later).after on') all⟩
    rw [projectItems, Act.gives_bind]
    exact ⟨row, v, gives, by simpa using gives'⟩

theorem filterProject_settled
    (filter : ∀ item ∈ items, (d.accepts call ctx item).Settles w ∧
      ∀ kept, (d.accepts call ctx item).Yields w kept → kept = accept item)
    (project : ∀ item ∈ items.filter accept, (d.project call ctx item).Settles w)
    (later : w.Undisturbed u) (done : List Value) :
    ∃ rows v, (d.filterProject call ctx done items).Gives u (done ++ rows) v ∧ u.Undisturbed v ∧
      List.Forall₂ (fun item row => (d.project call ctx item).Came w row v)
        (items.filter accept) rows := by
  induction items generalizing u done with
  | nil => exact ⟨[], u, by simp [filterProject], .refl u, .nil⟩
  | cons item items ih =>
    obtain ⟨⟨settles, told⟩, rest⟩ := List.forall_mem_cons.mp filter
    obtain ⟨kept, v, gives, on, came⟩ := settles.holding later done
    obtain rfl := told kept (came.before later).yields
    rw [filterProject]
    cases told : accept item with
    | false =>
      rw [List.filter_cons_of_neg (by simp [told])] at project ⊢
      obtain ⟨rows, v', gives', on', all⟩ := ih rest project (later.trans on) done
      refine ⟨rows, v', Act.gives_bind.mpr ⟨_, v, gives, ?_⟩, on.trans on', all⟩
      simpa [told] using gives'
    | true =>
      rw [List.filter_cons_of_pos told] at project ⊢
      obtain ⟨settles, project⟩ := List.forall_mem_cons.mp project
      obtain ⟨row, v', gives', on', came⟩ := settles.holding (later.trans on) done
      obtain ⟨rows, v'', gives'', on'', all⟩ :=
        ih rest project ((later.trans on).trans on') (done ++ [row])
      refine ⟨row :: rows, v'', Act.gives_bind.mpr ⟨_, v, gives, ?_⟩,
        (on.trans on').trans on'', .cons ((came.before (later.trans on)).after on'') all⟩
      rw [told, if_pos rfl, Act.gives_bind]
      exact ⟨row, v', gives', by simpa using gives''⟩

end Definition

namespace SortKey

variable {keys : List SortKey}

theorem extractAll_settled (extracts : ∀ item ∈ items, (extract call ctx item [] keys).Settles w)
    (later : w.Undisturbed u) (done : List (List Value × Value)) :
    ∃ keyed v, (extractAll call ctx keys done items).Gives u (done ++ keyed) v ∧
      u.Undisturbed v ∧ keyed.map (·.2) = items ∧
      ∀ row ∈ keyed, (extract call ctx row.2 [] keys).Yields w row.1 := by
  induction items generalizing u done with
  | nil => exact ⟨[], u, by simp [extractAll], .refl u, rfl, by simp⟩
  | cons item items ih =>
    obtain ⟨settles, rest⟩ := List.forall_mem_cons.mp extracts
    obtain ⟨row, v, gives, on, came⟩ := settles.holding later (done.flatMap (·.1))
    obtain ⟨keyed, v', gives', on', own, all⟩ := ih rest (later.trans on) (done ++ [(row, item)])
    refine ⟨(row, item) :: keyed, v', ?_, on.trans on', by rw [List.map_cons, own],
      List.forall_mem_cons.mpr ⟨(came.before later).yields, all⟩⟩
    rw [extractAll, Act.gives_bind]
    exact ⟨row, v, gives, by simpa using gives'⟩

/-- What sorting gives is merge-sorted, and it gives something where no conversion of a key goes on
for ever. -/
theorem sort_settled (extracts : ∀ item ∈ items, (extract call ctx item [] keys).Settles w) :
    (∀ sorted v, (sort call ctx keys items).Gives w sorted v →
      w.Undisturbed v ∧ Arranges call ctx w (mergeRows w.heap) keys items sorted) ∧
    ((∀ item ∈ items, ∀ row, (extract call ctx item [] keys).Yields w row →
        ∀ key ∈ row, (w.heap.primitive key).isSome) →
      ∃ sorted v, (sort call ctx keys items).Gives w sorted v) := by
  have hold := World.Undisturbed.hold w (items ++ w.held)
  obtain ⟨keyed, u, gives, on, own, reads⟩ := extractAll_settled extracts hold []
  have read : (Act.holding items (extractAll call ctx keys [] items)).Gives w keyed
      { u with held := w.held } := Act.gives_holding.mpr ⟨u, gives, rfl⟩
  have on' : w.Undisturbed { u with held := w.held } :=
    (hold.trans on).trans (World.Undisturbed.hold u w.held)
  have same (a b : List Value × Value) :
      compareRows { u with held := w.held }.heap (keys.map (·.ascending)) a.1 b.1 =
        compareRows w.heap (keys.map (·.ascending)) a.1 b.1 :=
    compareRows_cells on'.cells _ _ _
  refine ⟨fun sorted v sorts => ?_, fun ends => ?_⟩
  · obtain ⟨arranged, found, rfl, rfl⟩ := (sort_gives read).mp sorts
    simp only [same] at found
    refine ⟨?_, keyed, arranged, own, reads, found, rfl⟩
    split
    · exact .refl w
    · exact on'
  · obtain ⟨arranged, found⟩ : ∃ arranged, mergeSortBy (fun a b : List Value × Value =>
        compareRows w.heap (keys.map (·.ascending)) a.1 b.1) keyed = some arranged := by
      refine exists_mergeSortBy fun a ha b hb => ?_
      have known (row : List Value × Value) (member : row ∈ keyed) :
          ∀ key ∈ row.1, (w.heap.primitive key).isSome :=
        ends row.2 (own ▸ List.mem_map_of_mem member) row.1 (reads row member)
      exact isSome_compareRows (known a ha) (known b hb)
    exact ⟨_, _, (sort_gives read).mpr ⟨arranged, by simpa only [same] using found, rfl, rfl⟩⟩

end SortKey

namespace Definition

theorem execute_unsorted (unsorted : d.sort = none) :
    d.execute call ctx items = d.filterProject call ctx [] items := by
  unfold execute
  rw [unsorted]

theorem execute_sortFirst {keys : List SortKey} (sort : d.sort = some keys)
    (first : d.sortsFirst = true) :
    d.execute call ctx items = (do
      let kept ← d.filterItems call ctx items
      let sorted ← SortKey.sort call ctx keys kept
      d.projectItems call ctx [] sorted) := by
  rw [sortsFirst, Bool.and_eq_true] at first
  obtain ⟨c, select⟩ := Option.isSome_iff_exists.mp first.1
  unfold execute
  rw [sort, select, first.2]

theorem execute_sortLast {keys : List SortKey} (sort : d.sort = some keys)
    (last : d.sortsFirst = false) :
    d.execute call ctx items = (do
      let rows ← d.filterProject call ctx [] items
      SortKey.sort call ctx keys rows) := by
  unfold execute
  rw [sort]
  cases select : d.select with
  | none => rfl
  | some c =>
    rw [sortsFirst, select, Option.isSome_some, Bool.true_and] at last
    rw [last]

theorem KeysAre.convert {keys : List SortKey} {item x : Value}
    (converts : d.KeysAre call ctx w (items.filter accept) (SortKey.Convert w.heap))
    (sort : d.sort = some keys) (member : item ∈ items.filter accept)
    (source : if d.sortsFirst then x = item else (d.project call ctx item).Yields w x)
    (later : w.Undisturbed u) {row : List Value}
    (reads : (SortKey.extract call ctx x [] keys).Yields u row) :
    ∀ key ∈ row, (u.heap.primitive key).isSome := by
  intro key inside
  rw [Heap.primitive_congr (Heap.text_cells later.cells key)]
  exact converts keys sort item member x source row (reads.before later) key inside

/-- Sorting before projection, the rows are the projected items in the order of their keys. -/
theorem sortFirst_settled (effectless : d.Effectless call ctx w accept items) {keys : List SortKey}
    (sort : d.sort = some keys) (first : d.sortsFirst = true) :
    (∀ rows v, (d.execute call ctx items).Gives w rows v → w.Undisturbed v ∧
      ∃ sorted, SortKey.Arranges call ctx w (mergeRows w.heap) keys (items.filter accept) sorted ∧
        List.Forall₂ (fun item row => (d.project call ctx item).Yields w row) sorted rows) ∧
    (d.KeysAre call ctx w (items.filter accept) (SortKey.Convert w.heap) →
      ∃ rows v, (d.execute call ctx items).Gives w rows v) := by
  obtain ⟨u, filtered, on⟩ := filterItems_settled effectless.filter (.refl w)
  have extracts : ∀ item ∈ items.filter accept,
      (SortKey.extract call ctx item [] keys).Settles u := fun item member =>
    (effectless.itemKeys keys sort first item member).after on
  obtain ⟨sorts, gives⟩ := SortKey.sort_settled extracts
  have projected {sorted : List Value} {v : World}
      (arranged : SortKey.Arranges call ctx u (mergeRows u.heap) keys (items.filter accept) sorted)
      (later : u.Undisturbed v) :=
    projectItems_settled (fun item member => (effectless.project item (arranged.mem member)).1)
      (on.trans later) []
  simp only [execute_sortFirst sort first, Act.gives_bind]
  refine ⟨?_, fun converts => ?_⟩
  · rintro rows v ⟨kept, u', filtered', sorted, t, sorted_gives, rows_give⟩
    obtain ⟨rfl, rfl⟩ := filtered.unique filtered'
    obtain ⟨later, arranged⟩ := sorts sorted t sorted_gives
    obtain ⟨made, v', gives, on', all⟩ := projected arranged later
    obtain ⟨rfl, rfl⟩ := gives.unique rows_give
    exact ⟨(on.trans later).trans on', sorted, arranged.before on,
      all.imp fun _ _ came => came.yields⟩
  · obtain ⟨sorted, t, sorted_gives⟩ := gives fun item member row reads =>
      converts.convert sort member (by rw [if_pos first]) on reads
    obtain ⟨later, arranged⟩ := sorts sorted t sorted_gives
    obtain ⟨made, v, gives, -⟩ := projected arranged later
    exact ⟨_, v, _, u, filtered, sorted, t, sorted_gives, gives⟩

/-- Sorting after projection, the rows are the projected matches in the order of their own keys. -/
theorem sortLast_settled (effectless : d.Effectless call ctx w accept items) {keys : List SortKey}
    (sort : d.sort = some keys) (last : d.sortsFirst = false) :
    (∀ rows v, (d.execute call ctx items).Gives w rows v → w.Undisturbed v ∧
      ∃ made, List.Forall₂ (fun item row => (d.project call ctx item).Yields w row)
          (items.filter accept) made ∧
        SortKey.Arranges call ctx w (mergeRows w.heap) keys made rows) ∧
    (d.KeysAre call ctx w (items.filter accept) (SortKey.Convert w.heap) →
      ∃ rows v, (d.execute call ctx items).Gives w rows v) := by
  obtain ⟨made, u, projected, on, all⟩ := filterProject_settled effectless.filter
    (fun item member => (effectless.project item member).1) (.refl w) []
  rw [List.nil_append] at projected
  have extracts : ∀ row ∈ made, (SortKey.extract call ctx row [] keys).Settles u := by
    intro row member
    obtain ⟨item, inside, came⟩ := exists_of_forall₂ all row member
    exact effectless.rowKeys keys sort last item inside row u came
  obtain ⟨sorts, gives⟩ := SortKey.sort_settled extracts
  simp only [execute_sortLast sort last, Act.gives_bind]
  refine ⟨?_, fun converts => ?_⟩
  · rintro rows v ⟨made', u', projected', rows_give⟩
    obtain ⟨rfl, rfl⟩ := projected.unique projected'
    obtain ⟨later, arranged⟩ := sorts rows v rows_give
    exact ⟨on.trans later, made, all.imp fun _ _ came => came.yields, arranged.before on⟩
  · obtain ⟨sorted, t, sorted_gives⟩ := gives fun row member ks reads => by
      obtain ⟨item, inside, came⟩ := exists_of_forall₂ all row member
      have source : if d.sortsFirst then row = item
          else (d.project call ctx item).Yields w row := by
        rw [last]
        exact came.yields
      exact converts.convert sort inside source on reads
    exact ⟨sorted, t, made, u, projected, sorted_gives⟩

/-- Without effects a query gives the rows of its pipeline, and it gives rows where no conversion
of a key goes on for ever. -/
theorem execute_settled (effectless : d.Effectless call ctx w accept items) :
    (∀ rows v, (d.execute call ctx items).Gives w rows v →
      w.Undisturbed v ∧ d.Pipeline call ctx w (mergeRows w.heap) (items.filter accept) rows) ∧
    (d.KeysAre call ctx w (items.filter accept) (SortKey.Convert w.heap) →
      ∃ rows v, (d.execute call ctx items).Gives w rows v) := by
  unfold Pipeline
  cases sort : d.sort with
  | none =>
    obtain ⟨rows, v, gives, on, all⟩ := filterProject_settled effectless.filter
      (fun item member => (effectless.project item member).1) (.refl w) []
    rw [List.nil_append] at gives
    rw [execute_unsorted sort]
    refine ⟨fun rows' v' gives' => ?_, fun _ => ⟨rows, v, gives⟩⟩
    obtain ⟨rfl, rfl⟩ := gives.unique gives'
    exact ⟨on, all.imp fun _ _ came => came.yields⟩
  | some keys =>
    cases mode : d.sortsFirst with
    | true => exact sortFirst_settled effectless sort mode
    | false => exact sortLast_settled effectless sort mode

/-- The rows of a pipeline are the projected matches in another order. -/
theorem Pipeline.projected {matched rows : List Value}
    (pipeline : d.Pipeline call ctx w (mergeRows w.heap) matched rows) :
    ∃ order : List Value, order.Perm matched ∧
      List.Forall₂ (fun item row => (d.project call ctx item).Yields w row) order rows := by
  unfold Pipeline at pipeline
  cases sort : d.sort with
  | none =>
    rw [sort] at pipeline
    exact ⟨matched, .refl _, pipeline⟩
  | some keys =>
    simp only [sort] at pipeline
    split at pipeline
    · obtain ⟨sorted, arranged, all⟩ := pipeline
      exact ⟨sorted, arranged.perm, all⟩
    · obtain ⟨made, all, arranged⟩ := pipeline
      obtain ⟨order, perm, all⟩ :=
        List.forall₂_comp_perm_eq_perm_comp_forall₂.le matched rows ⟨made, all, arranged.perm.symm⟩
      exact ⟨order, perm.symm, all⟩

/-- Two pipelines that project the same matches in the same way give the same rows by content, in
another order. -/
theorem Pipeline.perm {other : Definition} {matched rows rows' : List Value}
    (first : d.Pipeline call ctx w (mergeRows w.heap) matched rows)
    (second : other.Pipeline call ctx w (mergeRows w.heap) matched rows')
    (alike : ∀ item ∈ matched, ∀ row row', (d.project call ctx item).Yields w row →
      (other.project call ctx item).Yields w row' → Value.same row row' = true) :
    ∃ arranged : List Value, rows.Perm arranged ∧ Value.sameItems arranged rows' = true := by
  obtain ⟨order, perm, all⟩ := first.projected
  obtain ⟨order', perm', all'⟩ := second.projected
  -- The rows of the first pipeline, in the order in which the second one projects the matches.
  obtain ⟨arranged, made, turned⟩ := List.perm_comp_forall₂ (perm'.trans perm.symm) all
  refine ⟨arranged, turned.symm, Value.sameItems_of_forall₂ ?_⟩
  have known : ∀ item ∈ order', item ∈ matched := fun item => perm'.mem_iff.mp
  clear turned perm' first second
  induction made generalizing rows' with
  | nil =>
    cases all'
    exact .nil
  | cons yields _ ih =>
    cases all' with
    | cons yields' rest =>
      exact .cons (alike _ (known _ List.mem_cons_self) _ _ yields yields')
        (ih rest fun item member => known item (List.mem_cons_of_mem _ member))

/-- Where the keys are in columns, the sort of a pipeline is lexicographic. -/
theorem Pipeline.lexicographic {matched rows : List Value} {h : Heap}
    {columns : List (Column × Bool)} (pipeline : d.Pipeline call ctx w (mergeRows h) matched rows)
    (fit : d.KeysAre call ctx w matched (SortKey.InColumns columns)) :
    d.Pipeline call ctx w (fun _ keyed => some (keyed.mergeSort (lexBefore columns))) matched
      rows := by
  unfold Pipeline at pipeline ⊢
  cases sort : d.sort with
  | none =>
    rw [sort] at pipeline
    exact pipeline
  | some keys =>
    simp only [sort] at pipeline ⊢
    have known := fit keys sort
    cases mode : d.sortsFirst with
    | true =>
      simp only [mode, if_true] at pipeline known ⊢
      obtain ⟨sorted, arranged, all⟩ := pipeline
      exact ⟨sorted, arranged.lexicographic fun item member row reads =>
        known item member item rfl row reads, all⟩
    | false =>
      simp only [mode, Bool.false_eq_true, if_false] at pipeline known ⊢
      obtain ⟨made, all, arranged⟩ := pipeline
      refine ⟨made, all, arranged.lexicographic fun made' member row reads => ?_⟩
      obtain ⟨item, inside, yields⟩ := exists_of_forall₂ all made' member
      exact known item inside made' yields row reads

theorem KeysAre.mono {matched : List Value} {Q R : List SortKey → List Value → Prop}
    (all : d.KeysAre call ctx w matched Q) (weaker : ∀ keys row, Q keys row → R keys row) :
    d.KeysAre call ctx w matched R := fun keys sort item member x source row reads =>
  weaker keys row (all keys sort item member x source row reads)

/-- Where no evaluation fails or has effects, a query gives the rows of its pipeline: the projected
matches in source order, sorted by the keys of the rows, or of the items where these are sorted.  It
gives rows where no conversion of a key goes on for ever.  The two modes give the same rows by
content, in some order.  Where every column of keys holds values of one kind, the sort is the
lexicographic stable sort, and turning the keys around mirrors it. -/
theorem execute_pipeline (effectless : d.Effectless call ctx w accept items) :
    let matched := items.filter accept
    (∀ rows v, (d.execute call ctx items).Gives w rows v →
      w.Undisturbed v ∧ d.Pipeline call ctx w (mergeRows w.heap) matched rows) ∧
    (d.KeysAre call ctx w matched (SortKey.Convert w.heap) →
      ∃ rows v, (d.execute call ctx items).Gives w rows v) ∧
    (∀ sortFirst, Effectless { d with sortFirst } call ctx w accept items →
      ∀ rows v rows' v', (d.execute call ctx items).Gives w rows v →
        (execute call ctx { d with sortFirst } items).Gives w rows' v' →
        ∃ arranged : List Value, rows.Perm arranged ∧ Value.sameItems arranged rows' = true) ∧
    ∀ columns, d.KeysAre call ctx w matched (SortKey.InColumns columns) →
      (∃ rows v, (d.execute call ctx items).Gives w rows v ∧ d.Pipeline call ctx w
        (fun _ keyed => some (keyed.mergeSort (lexBefore columns))) matched rows) ∧
      (∀ c ∈ columns, ∀ a b, c.1.holds a → c.1.holds b →
        w.heap.compareKeys false a b = w.heap.compareKeys true b a) ∧
      ∀ keys, d.sort = some keys → ∀ keyed : List (List Value × Value),
        (∀ row ∈ keyed, SortKey.InColumns columns keys row.1) →
        mergeRows w.heap (SortKey.turned keys) keyed =
          (mergeRows w.heap keys keyed.reverse).map List.reverse := by
  intro matched
  obtain ⟨pipeline, gives⟩ := execute_settled effectless
  refine ⟨pipeline, gives, fun sortFirst effectless' rows v rows' v' given given' => ?_,
    fun columns fit => ⟨?_, fun c _ a b left right => ?_,
      fun keys _ keyed => mergeRows_turned w.heap⟩⟩
  · have other := ((execute_settled effectless').1 rows' v' given').2
    exact Pipeline.perm (pipeline rows v given).2 other fun item member row row' yields yields' =>
      (effectless.project item member).2 row row' yields yields'
  · obtain ⟨rows, v, given⟩ := gives (fit.mono fun keys row fit => fit.convert w.heap)
    exact ⟨rows, v, given, (pipeline rows v given).2.lexicographic fit⟩
  · rw [Column.compareKeys_eq false left right, Column.compareKeys_eq true right left]
    rfl

end Definition

end

namespace Numbered

def path : List Step := [.key (.text "n")]

/-- An object with a number. -/
def item (t n : Nat) : Value := .object t [("n", .ofNat n)]

def items : List Value := [item 0 2, item 1 0, item 2 3]

def world : World where
  heap.nextTag := 3

/-- The objects whose number is not zero, made anew, with the greatest number first. -/
def definition (sortFirst : Bool) : Definition where
  filter := .path .here path
  select := some (.object [("n", .path .here path)])
  sort := some [⟨.here, path, false⟩]
  sortFirst := sortFirst
  paths := [⟨.here, [.key (.text "n")]⟩, ⟨.here, [.key (.text "n")]⟩, ⟨.here, [.key (.text "n")]⟩]

def accept : Value → Bool
  | .object _ [(_, n)] => n.truthy
  | _ => false

section
variable {call : Caller} {ctx : Context} {sortFirst : Bool}

theorem project_item (w : World) (t n : Nat) :
    ((definition sortFirst).project call ctx (item t n)).Gives w (item w.heap.nextTag n)
      { w with heap.nextTag := w.heap.nextTag + 1 } := rfl

theorem extract_item (w : World) (t n : Nat) :
    (SortKey.extract call ctx (item t n) [] [⟨.here, path, false⟩]).Gives w [.ofNat n] w := rfl

theorem exists_item {y : Value} (member : y ∈ items.filter accept) :
    ∃ t n, y = item t n ∧ Scale.number.holds (.ofNat n) := by
  obtain ⟨member, kept⟩ := List.mem_filter.mp member
  simp only [items, List.mem_cons, List.not_mem_nil, or_false] at member
  rcases member with rfl | rfl | rfl
  · exact ⟨0, 2, rfl, by decide +kernel⟩
  · exact absurd kept (by decide +kernel)
  · exact ⟨2, 3, rfl, by decide +kernel⟩

theorem effectless_definition (params : ctx.Fits items 0) :
    (definition sortFirst).Effectless call ctx world accept items := by
  have ready : world.Ready items 0 := by
    refine ⟨⟨rfl, rfl, fun r v member => ?_, fun r e member => ?_⟩, .empty⟩
    · simp [world, Heap.items, Heap.collection?, Heap.cell?] at member
    · simp [world, Heap.fields, Heap.record?, Heap.cell?] at member
  have shape : (definition sortFirst).Fits items 0 := by
    refine ⟨?_, ?_, ?_⟩ <;>
      simp [definition, path, Code.All, Code.AllOfMembers, Step.AllOf, Value.Fits]
  have all : Value.AllFit 0 items items := by
    simp [Value.AllFit, items, item, Value.Fits, Value.FitsFields, Value.ofNat]
  refine Definition.effectless_of_gives ready shape params all ?_ ?_ ?_
  · simp only [items, List.forall_mem_cons]
    exact ⟨⟨_, rfl⟩, ⟨_, rfl⟩, ⟨_, rfl⟩, by simp⟩
  · rintro y member
    obtain ⟨t, n, rfl, -⟩ := exists_item member
    refine ⟨_, _, project_item world t n, fun keys sort _ => ?_⟩
    cases sort
    exact ⟨_, _, extract_item _ _ n⟩
  · rintro keys sort - y member
    obtain ⟨t, n, rfl, -⟩ := exists_item member
    cases sort
    exact ⟨_, _, extract_item world t n⟩

theorem keysAre_definition : (definition sortFirst).KeysAre call ctx world (items.filter accept)
    (SortKey.InColumns [(.of .number, false)]) := by
  intro keys sort y member x source row reads
  cases sort
  obtain ⟨t, n, rfl, finite⟩ := exists_item member
  obtain ⟨t', rfl⟩ : ∃ t', x = item t' n := by
    split at source
    · exact ⟨t, source⟩
    · obtain ⟨_, u, _, -, found, -⟩ := source
      exact ⟨_, (found.unique (project_item u t n)).1⟩
  obtain ⟨_, u, _, -, found, -⟩ := reads
  obtain ⟨rfl, -⟩ := found.unique (extract_item u t' n)
  exact ⟨rfl, .cons finite .nil⟩

end

/-- Both modes sort the numbers downwards, and they give the same rows. -/
theorem execute_numbered :
    let call : Caller := fun _ _ args => Act.freshArray args
    let ctx : Context := ⟨⟨0, 1⟩, []⟩
    let matched := items.filter accept
    (definition false).Effectless call ctx world accept items ∧
      (definition true).Effectless call ctx world accept items ∧
      ∃ rows v rows' v', ((definition false).execute call ctx items).Gives world rows v ∧
        ((definition true).execute call ctx items).Gives world rows' v' ∧
        (definition false).Pipeline call ctx world
          (fun _ keyed => some (keyed.mergeSort (lexBefore [(.of .number, false)]))) matched rows ∧
        (definition true).Pipeline call ctx world
          (fun _ keyed => some (keyed.mergeSort (lexBefore [(.of .number, false)]))) matched rows' ∧
        ∃ arranged : List Value, rows.Perm arranged ∧ Value.sameItems arranged rows' = true := by
  intro call ctx matched
  have params : ctx.Fits items 0 := fun i => by simp [ctx, Context.param, Value.Fits]
  have last : (definition false).Effectless call ctx world accept items :=
    effectless_definition params
  have first : (definition true).Effectless call ctx world accept items :=
    effectless_definition params
  obtain ⟨-, -, modes, columns⟩ := Definition.execute_pipeline last
  obtain ⟨-, -, -, columns'⟩ := Definition.execute_pipeline first
  obtain ⟨⟨rows, v, gives, pipeline⟩, -⟩ := columns _ keysAre_definition
  obtain ⟨⟨rows', v', gives', pipeline'⟩, -⟩ := columns' _ keysAre_definition
  exact ⟨last, first, rows, v, rows', v', gives, gives', pipeline, pipeline',
    modes true first rows v rows' v' gives gives'⟩

end Numbered

end ReactiveQuery
