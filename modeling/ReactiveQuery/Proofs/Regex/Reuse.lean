import ReactiveQuery.Regex.Cache

/-! A cache of patterns never changes what a match gives: every cache that reading patterns can
lead to keeps, for each text, the program that the text writes. -/

namespace ReactiveQuery.Regex.Cache

/-- The caches that reading patterns leads to. -/
inductive Reachable : Cache → Prop where
  | empty : Reachable {}
  | read {c : Cache} (text : String) (h : Reachable c) : Reachable ((get text).run.run c).2

theorem run_get (c : Cache) (text : String) :
    (get text).run.run c = match c.entries.lookup text, Program.ofText? text with
      | some p, _ => (.ok p, c)
      | none, some p => (.ok p, ⟨(text, p) :: c.entries⟩)
      | none, none => (.error (.invalidPattern text "not a pattern"), c) := by
  have reads : (getThe Cache : ExceptT Error (StateM Cache) Cache).run.run c =
    pure (.ok c, c) := rfl
  rw [get, ExceptT.run_bind, StateT.run_bind, reads, pure_bind]
  dsimp only
  cases c.entries.lookup text with
  | some p => rfl
  | none => cases Program.ofText? text <;> rfl

/-- What a cache keeps under a text is the program of that text. -/
theorem Reachable.lookup {c : Cache} (h : Reachable c) {text : String} {p : Program}
    (found : c.entries.lookup text = some p) : Program.ofText? text = some p := by
  induction h with
  | empty => simp at found
  | @read c other _ ih =>
    rw [run_get] at found
    split at found
    · exact ih found
    · next written =>
      rw [List.lookup_cons] at found
      split at found
      · next same =>
        rw [eq_of_beq same, written, found]
      · exact ih found
    · exact ih found

theorem run_isMatch (c : Cache) (pattern text : String) :
    (isMatch pattern text).run.run c = match (get pattern).run.run c with
      | (.ok p, c) => (.ok (p.isMatch text), c)
      | (.error e, c) => (.error e, c) := by
  change (match (get pattern).run.run c with
    | (r, c) => (ExceptT.bindCont (fun p : Program => pure (p.isMatch text)) r :
        StateM Cache (Except Error Bool)).run c) = _
  rcases (get pattern).run.run c with ⟨_ | _, _⟩ <;> rfl

/-- A match through the cache is the match of the program that the pattern writes. -/
theorem Reachable.isMatch {c : Cache} (h : Reachable c) (pattern text : String) :
    ((isMatch pattern text).run.run c).1 = match Program.ofText? pattern with
      | some p => .ok (p.isMatch text)
      | none => .error (.invalidPattern pattern "not a pattern") := by
  rw [run_isMatch, run_get]
  cases found : c.entries.lookup pattern with
  | some p => simp [h.lookup found]
  | none => cases Program.ofText? pattern <;> rfl

theorem Reachable.after_isMatch {c : Cache} (h : Reachable c) (pattern text : String) :
    Reachable ((Cache.isMatch pattern text).run.run c).2 := by
  have same : ((Cache.isMatch pattern text).run.run c).2 = ((get pattern).run.run c).2 := by
    rw [run_isMatch]
    rcases (get pattern).run.run c with ⟨_ | _, _⟩ <;> rfl
  rw [same]
  exact h.read pattern

end ReactiveQuery.Regex.Cache
