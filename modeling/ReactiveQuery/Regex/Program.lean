import ReactiveQuery.Regex.Reader

/-! Matching.  A pattern becomes a program of numbered steps, which runs through a text once and
follows all the ways that it may take side by side. -/

namespace ReactiveQuery.Regex

/-- What a program does at a place before it goes on with the next step. -/
inductive Step where
  /-- Takes the character that follows, which must be in the set. -/
  | take (set : CharSet) (next : Nat)
  | test (look : Look) (next : Nat)
  /-- Goes on both ways. -/
  | fork (left right : Nat)
  | accept

/-- A program: its steps, and the number of the first one. -/
structure Program where
  steps : Array Step
  first : Nat

namespace Program

/-- A program with one more step, from which it begins; the step is told where the rest begins. -/
def precede (p : Program) (step : Nat → Step) : Program :=
  let ⟨steps, first⟩ := p
  let size := steps.size
  ⟨steps.push (step first), size⟩

/-- The body as often as it likes and then the rest; not at all only when `idle`. -/
def loop (idle : Bool) (body : Program → Program) (rest : Program) : Program :=
  let ⟨steps, first⟩ := rest
  let turn := steps.size
  let ⟨steps, again⟩ := body ⟨steps.push (.fork turn first), turn⟩
  ⟨steps.setIfInBounds turn (.fork again first), if idle then turn else again⟩

/-- The body at most `n` times and then the rest. -/
def upTo (n : Nat) (body : Program → Program) (rest : Program) : Program :=
  let ⟨steps, first⟩ := rest
  Nat.repeat (fun p => (body p).precede (.fork · first)) n ⟨steps, first⟩

/-- A program that goes through a pattern, whose sequences stand in reverse, and then the rest. -/
def through : Pattern → Program → Program
  | .empty, rest => rest
  | .literal cs, rest => cs.reverse.foldl (fun p c => p.precede (.take (.single c))) rest
  | .one set, rest => rest.precede (.take set)
  | .look l, rest => rest.precede (.test l)
  | .rep body least none _, rest =>
    Nat.repeat (through body) (least - 1) (loop (least == 0) (through body) rest)
  | .rep body least (some most) _, rest =>
    Nat.repeat (through body) least (upTo (most - least) (through body) rest)
  | .group _ body, rest => through body rest
  | .seq ps, rest => sequence ps rest
  | .alt [], rest => rest.precede (.take [])
  | .alt (p :: ps), rest =>
    let ⟨steps, first⟩ := rest
    either first ps (through p ⟨steps, first⟩)
where
  sequence : List Pattern → Program → Program
    | [], rest => rest
    | p :: ps, rest => sequence ps (through p rest)
  either (first : Nat) : List Pattern → Program → Program
    | [], others => others
    | p :: ps, others =>
      let ⟨steps, other⟩ := others
      either first ps ((through p ⟨steps, first⟩).precede (.fork · other))

def ofPattern (p : Pattern) : Program := through p.mirrored ⟨#[.accept], 0⟩

def ofText? (text : String) : Option Program := (Pattern.ofText? text).map ofPattern

/-- Where a program stands: for each step the number of the last place at which it was reached, and
the steps at this place that take a character. -/
structure Reached where
  marks : Array Nat
  takers : List (CharSet × Nat)

/-- All that is reached at a place from some steps, unless the program accepts.  Every step is gone
into once and adds at most two, which bounds the fuel. -/
def reach (steps : Array Step) (place : Place) (number : Nat) :
    Nat → List Nat → Array Nat → List (CharSet × Nat) → Option Reached
  | 0, _, marks, takers => some ⟨marks, takers⟩
  | _, [], marks, takers => some ⟨marks, takers⟩
  | fuel + 1, n :: todo, marks, takers =>
    if marks.getD n number == number then reach steps place number fuel todo marks takers
    else
      let marks := marks.setIfInBounds n number
      match steps[n]? with
      | none => reach steps place number fuel todo marks takers
      | some .accept => none
      | some (.take set next) =>
        reach steps place number fuel todo marks ((set, next) :: takers)
      | some (.test look next) =>
        let todo := if look.holds place then next :: todo else todo
        reach steps place number fuel todo marks takers
      | some (.fork left right) =>
        reach steps place number fuel (left :: right :: todo) marks takers

/-- Does the program accept somewhere in the rest of a text?  It goes on with the steps that took
the character before, and also begins anew. -/
def search (p : Program) (before : Option Char) (number : Nat) (marks : Array Nat)
    (todo : List Nat) (text : List Char) : Bool :=
  let todo := p.first :: todo
  let fuel := todo.length + 2 * p.steps.size
  match reach p.steps ⟨before, text.head?⟩ number fuel todo marks [] with
  | none => true
  | some reached =>
    match text with
    | [] => false
    | c :: text =>
      let next := reached.takers.filterMap fun (set, next) => if set.has c then some next else none
      p.search (some c) (number + 1) reached.marks next text

/-- Does a text hold a match? -/
def isMatch (p : Program) (text : String) : Bool :=
  p.search none 1 (.replicate p.steps.size 0) [] text.toList

end Program

end ReactiveQuery.Regex
