import ReactiveQuery.Text.CharSet

/-! White space: the Unicode property `White_Space`, and texts without it at their ends. -/

namespace ReactiveQuery.Text

def blankSet : CharSet :=
  [(0x9, 0xD), (0x20, 0x20), (0x85, 0x85), (0xA0, 0xA0), (0x1680, 0x1680), (0x2000, 0x200A),
   (0x2028, 0x2029), (0x202F, 0x202F), (0x205F, 0x205F), (0x3000, 0x3000)]

def isBlank (c : Char) : Bool := blankSet.has c

/-- A text without the blanks at its two ends. -/
def trim (cs : List Char) : List Char :=
  ((cs.dropWhile isBlank).reverse.dropWhile isBlank).reverse

theorem dropWhile_isBlank_append {blanks rest : List Char} (all : ∀ c ∈ blanks, isBlank c = true)
    (stop : ∀ c ∈ rest.head?, isBlank c = false) : (blanks ++ rest).dropWhile isBlank = rest := by
  rw [List.dropWhile_append_of_pos all]
  cases rest with
  | nil => rfl
  | cons c rest => simp [stop c rfl]

/-- Blanks around a text that begins and ends with none are all that is taken away. -/
theorem trim_append {before core after : List Char} (hb : ∀ c ∈ before, isBlank c = true)
    (first : ∀ c ∈ core.head?, isBlank c = false) (last : ∀ c ∈ core.getLast?, isBlank c = false)
    (ha : ∀ c ∈ after, isBlank c = true) : trim (before ++ core ++ after) = core := by
  unfold trim
  cases core with
  | nil =>
    have all : ∀ c ∈ before ++ after, isBlank c = true := fun c hc =>
      (List.mem_append.mp hc).elim (hb c) (ha c)
    have none : (before ++ after ++ []).dropWhile isBlank = [] :=
      dropWhile_isBlank_append all (by simp)
    simp only [List.append_nil] at none ⊢
    simp [none]
  | cons c core =>
    rw [List.append_assoc, dropWhile_isBlank_append hb (by simpa using first), List.reverse_append,
      dropWhile_isBlank_append (by simpa using ha) (by rwa [List.head?_reverse]),
      List.reverse_reverse]

theorem isBlank_of_isWhitespace {c : Char} (h : c.isWhitespace) : isBlank c := by
  simp only [Char.isWhitespace, Bool.or_eq_true, decide_eq_true_eq] at h
  rcases h with ((rfl | rfl) | rfl) | rfl <;> decide

end ReactiveQuery.Text
