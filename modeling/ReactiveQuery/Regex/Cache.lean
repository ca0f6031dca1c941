import ReactiveQuery.Error
import ReactiveQuery.Regex.Program

/-! Programs of the patterns that were read, by their texts. -/

namespace ReactiveQuery.Regex

structure Cache where
  entries : List (String × Program) := []

namespace Cache

def size (c : Cache) : Nat := c.entries.length

/-- The program of a pattern, made on first use; a text that writes no pattern is not kept. -/
def get (text : String) : ExceptT Error (StateM Cache) Program := do
  let cache ← getThe Cache
  match cache.entries.lookup text with
  | some p => return p
  | none =>
    match Program.ofText? text with
    | some p =>
      set (⟨(text, p) :: cache.entries⟩ : Cache)
      return p
    | none => throw (.invalidPattern text "not a pattern")

def isMatch (pattern text : String) : ExceptT Error (StateM Cache) Bool := do
  return (← get pattern).isMatch text

end Cache

end ReactiveQuery.Regex
