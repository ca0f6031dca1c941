import ReactiveQuery.Proofs.Sort.Rows

/-! Sorting by columns of one kind.  Where every column of keys holds values on one scale, or only
null, rows are in lexicographic order, sorting is the stable sort in this order, and turning every
direction around mirrors it. -/

namespace ReactiveQuery

open Std (OrientedCmp TransCmp)

/-- What a column of sort keys holds: values on one scale, or null alone. -/
inductive Column where
  | of (scale : Scale)
  | null

namespace Column

def holds : Column → Value → Bool
  | .of scale, a => scale.holds a
  | .null, a => a.isNull

def order : Column → Value → Value → Ordering
  | .of scale => scale.order
  | .null => fun _ _ => .eq

/-- The order of a column, upwards or downwards. -/
def directed (column : Column) (ascending : Bool) (a b : Value) : Ordering :=
  if ascending then column.order a b else column.order b a

instance : (column : Column) → TransCmp column.order
  | .of scale => inferInstanceAs (TransCmp scale.order)
  | .null => { eq_swap := rfl, isLE_trans := fun _ _ => rfl }

instance (column : Column) : (ascending : Bool) → TransCmp (column.directed ascending)
  | true => inferInstanceAs (TransCmp column.order)
  | false => inferInstanceAs (TransCmp fun a b => column.order b a)

/-- Keys in a column compare as the column has them. -/
theorem compareKeys_eq {column : Column} {h : Heap} {a b : Value} (ascending : Bool)
    (left : column.holds a) (right : column.holds b) :
    h.compareKeys ascending a b = some (column.directed ascending a b) := by
  cases column with
  | of scale =>
    obtain ⟨equal, order⟩ := Scale.loose_order (h := h) left right
    rw [Heap.compareKeys_of_order ascending equal order]
    cases ascending
    · exact congrArg some OrientedCmp.eq_swap.symm
    · rfl
  | null =>
    cases a <;> cases left
    cases b <;> cases right
    cases ascending <;> rfl

/-- What a column holds can be converted. -/
theorem isSome_primitive {column : Column} {a : Value} (h : Heap) (held : column.holds a) :
    (h.primitive a).isSome := by
  cases column with
  | of scale =>
    cases scale <;> cases a <;> first | rfl | cases held
  | null =>
    cases a <;> first | rfl | cases held

end Column

/-- The lexicographic order of rows in columns, each upwards or downwards. -/
def lexOrder : List (Column × Bool) → List Value → List Value → Ordering
  | [], _, _ => .eq
  | (column, ascending) :: columns, as, bs =>
    (column.directed ascending (as.headD .null) (bs.headD .null)).then
      (lexOrder columns as.tail bs.tail)

instance lexOrder.instTransCmp : (columns : List (Column × Bool)) → TransCmp (lexOrder columns)
  | [] => { eq_swap := rfl, isLE_trans := fun _ _ => rfl }
  | (column, ascending) :: columns => by
    have rest := instTransCmp columns
    refine { eq_swap := ?_, isLE_trans := ?_ }
    · intro as bs
      rw [lexOrder, lexOrder, Ordering.swap_then, ← OrientedCmp.eq_swap, ← OrientedCmp.eq_swap]
    · intro as bs cs left right
      rw [lexOrder, Ordering.isLE_then_iff_and] at left right ⊢
      refine ⟨TransCmp.isLE_trans left.1 right.1, ?_⟩
      rcases left.2 with before | before
      · exact .inl (TransCmp.lt_of_lt_of_isLE before right.1)
      · rcases right.2 with after | after
        · exact .inl (TransCmp.lt_of_isLE_of_lt left.1 after)
        · exact .inr (TransCmp.isLE_trans before after)

section
variable {columns : List (Column × Bool)} {h : Heap} {as bs : List Value}

/-- Rows in columns compare lexicographically. -/
theorem compareRows_eq_lexOrder (left : List.Forall₂ (fun c a => c.1.holds a) columns as)
    (right : List.Forall₂ (fun c b => c.1.holds b) columns bs) :
    compareRows h (columns.map (·.2)) as bs = some (lexOrder columns as bs) := by
  induction left generalizing bs with
  | nil =>
    cases right
    rfl
  | @cons c a columns as first _ ih =>
    cases right with
    | @cons _ b _ bs second rest =>
      obtain ⟨column, ascending⟩ := c
      simp only [List.map_cons, compareRows, Column.compareKeys_eq ascending first second,
        Option.bind_eq_bind, Option.bind_some, lexOrder, List.headD_cons, List.tail_cons]
      cases column.directed ascending a b with
      | eq => exact ih rest
      | lt | gt => rfl

/-- Turning every direction around turns the order around. -/
theorem lexOrder_mirrored (columns : List (Column × Bool)) (as bs : List Value) :
    lexOrder (columns.map fun c => (c.1, !c.2)) as bs = lexOrder columns bs as := by
  induction columns generalizing as bs with
  | nil => rfl
  | cons c columns ih =>
    obtain ⟨column, ascending⟩ := c
    rw [List.map_cons, lexOrder, lexOrder, ih]
    cases ascending <;> rfl

end

/-- A stable arrangement, read backwards, is one of the items read backwards by the order turned
around. -/
theorem StablySorted.reverse {α : Type} {le : α → α → Bool} {items sorted : List α}
    (stable : StablySorted le items sorted) :
    StablySorted (fun a b => le b a) items.reverse sorted.reverse where
  perm := (List.reverse_perm _).trans (stable.perm.trans (List.reverse_perm _).symm)
  ordered := List.pairwise_reverse.mpr stable.ordered
  ties a member := by
    have same : tied (fun a b => le b a) a = tied le a := funext fun b => Bool.and_comm _ _
    rw [same, List.filter_reverse, List.filter_reverse, stable.ties a (List.mem_reverse.mp member)]

/-- The library's sort is stable. -/
theorem stablySorted_mergeSort {α : Type} {le : α → α → Bool}
    (trans : ∀ a b c, le a b = true → le b c = true → le a c = true)
    (total : ∀ a b, (le a b || le b a) = true) (items : List α) :
    StablySorted le items (items.mergeSort le) where
  perm := List.mergeSort_perm items le
  ordered := List.pairwise_mergeSort trans total items
  ties a _ := by
    have ordered : (items.filter (tied le a)).Pairwise (le · ·) := by
      refine List.pairwise_of_forall_mem_list fun b hb c hc => ?_
      have tieB := (List.mem_filter.mp hb).2
      have tieC := (List.mem_filter.mp hc).2
      rw [tied, Bool.and_eq_true] at tieB tieC
      exact trans b a c tieB.2 tieC.1
    have inside := (List.sublist_mergeSort trans total ordered List.filter_sublist).filter
      (tied le a)
    rw [List.filter_filter] at inside
    simp only [Bool.and_self] at inside
    exact (inside.eq_of_length
      ((List.mergeSort_perm items le).symm.filter (tied le a)).length_eq).symm

/-- May a row of keys stand before another in columns? -/
def lexBefore (columns : List (Column × Bool)) : List Value × Value → List Value × Value → Bool :=
  mayPrecede fun a b => lexOrder columns a.1 b.1

section
variable {columns : List (Column × Bool)} {rows : List (List Value × Value)}

theorem lexBefore_iff {a b : List Value × Value} :
    lexBefore columns a b = true ↔ (lexOrder columns a.1 b.1).isLE := by
  rw [lexBefore, mayPrecede, bne_iff_ne, Ordering.isLE_iff_ne_gt]

theorem lexBefore_trans (a b c : List Value × Value) (left : lexBefore columns a b = true)
    (right : lexBefore columns b c = true) : lexBefore columns a c = true := by
  rw [lexBefore_iff] at left right ⊢
  exact TransCmp.isLE_trans left right

theorem lexBefore_total (a b : List Value × Value) :
    (lexBefore columns a b || lexBefore columns b a) = true := by
  rw [Bool.or_eq_true, lexBefore_iff, lexBefore_iff,
    (OrientedCmp.eq_swap : lexOrder columns b.1 a.1 = _)]
  cases lexOrder columns a.1 b.1 <;> decide

/-- Sorting rows in columns is the library's stable sort in lexicographic order. -/
theorem mergeSortBy_columns {h : Heap}
    (fit : ∀ row ∈ rows, List.Forall₂ (fun c key => c.1.holds key) columns row.1) :
    mergeSortBy (fun a b => compareRows h (columns.map (·.2)) a.1 b.1) rows =
      some (rows.mergeSort (lexBefore columns)) := by
  have total := mergeSortBy_pure (m := Option) (fun a b => lexOrder columns a.1 b.1) rows
  have found := (mergeSortBy_map (fun a b => compareRows h (columns.map (·.2)) a.1 b.1) id
    (fun a ha b hb o answer => by
      rw [id, id, compareRows_eq_lexOrder (fit a ha) (fit b hb)]
      exact answer) total).1
  rw [List.map_id, List.map_id] at found
  rw [found]
  have totalOn : TotalOn (lexBefore columns) rows := fun a _ b _ =>
    Bool.or_eq_true_iff.mp (lexBefore_total a b)
  exact congrArg some ((stablySorted_sortHalves totalOn
    fun a _ b _ c _ => lexBefore_trans a b c).unique totalOn
      (stablySorted_mergeSort lexBefore_trans lexBefore_total rows))

/-- The other way around in every column, sorting gives what it gives of the rows read backwards,
read backwards. -/
theorem mergeSort_mirrored :
    rows.mergeSort (lexBefore (columns.map fun c => (c.1, !c.2))) =
      (rows.reverse.mergeSort (lexBefore columns)).reverse := by
  have turned : lexBefore (columns.map fun c => (c.1, !c.2)) =
      fun a b => lexBefore columns b a := by
    funext a b
    simp only [lexBefore, mayPrecede, lexOrder_mirrored]
  have mirrored : StablySorted (fun a b => lexBefore columns b a) rows.reverse.reverse
      (rows.reverse.mergeSort (lexBefore columns)).reverse :=
    (stablySorted_mergeSort lexBefore_trans lexBefore_total rows.reverse).reverse
  rw [List.reverse_reverse, ← turned] at mirrored
  exact (stablySorted_mergeSort lexBefore_trans lexBefore_total rows).unique
    (fun a _ b _ => Bool.or_eq_true_iff.mp (lexBefore_total a b)) mirrored

end

end ReactiveQuery
