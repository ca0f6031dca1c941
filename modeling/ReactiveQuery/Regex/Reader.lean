import ReactiveQuery.Regex.Class
import ReactiveQuery.Regex.Footprint
import ReactiveQuery.Text.Letter

/-! Reading written patterns.  Groups are kept on a stack of open branches. -/

namespace ReactiveQuery.Regex

/-- A piece of a branch: a pattern with its nesting depth, or a change of flags. -/
inductive Piece where
  | pattern (p : Pattern) (depth : Nat)
  | flags

/-- The branches of an open group, the last one first, each with its last piece first. -/
structure Branches where
  done : List (List Piece) := []
  current : List Piece := []
  /-- The flags to go back to when the group closes. -/
  outer : Flags := {}
  /-- The number of a group that captures. -/
  number : Option Nat := none

/-- The state of reading: what is left, the flags, the number of groups so far, their names, and the
open groups. -/
structure Reading where
  rest : List Char
  flags : Flags := {}
  groups : Nat := 0
  names : List (List Char) := []
  group : Branches := {}
  stack : List Branches := []

def Piece.depth : Piece → Nat
  | .pattern _ d => d
  | .flags => 0

def Piece.pattern? : Piece → Option Pattern
  | .pattern p _ => some p
  | .flags => none

/-- A branch as one pattern, with its nesting depth. -/
def branchPattern (pieces : List Piece) : Pattern × Nat :=
  let pieces := pieces.reverse
  let inner := (pieces.map Piece.depth).foldl max 0
  (.inSequence (pieces.filterMap Piece.pattern?), if 1 < pieces.length then inner + 1 else inner)

def Branches.pattern (b : Branches) : Pattern × Nat :=
  match ((b.current :: b.done).map branchPattern).reverse with
  | [only] => only
  | all => (.anyOf (all.map (·.1)), (all.map (·.2)).foldl max 0 + 1)

namespace Reading

def push (r : Reading) (p : Pattern) (depth : Nat) (rest : List Char) : Reading :=
  { r with rest, group := { r.group with current := .pattern p depth :: r.group.current } }

/-- A character, folded when case does not count.  Without Unicode only bytes of ASCII can match. -/
def literal? (f : Flags) (c : Char) (asByte : Bool) : Option Pattern :=
  if !f.unicode && asByte && 0x80 ≤ c.toNat then none
  else some (.oneOf (f.fold (.single c)))

def pushAtom (r : Reading) (atom : Atom) (rest : List Char) : Option Reading :=
  match atom with
  | .literal c asByte => (literal? r.flags c asByte).map (r.push · 0 rest)
  | .set s => some (r.push (.oneOf s) 0 rest)
  | .look l => some (r.push (.look l) 0 rest)

/-- Repeats the last piece of the current branch, which must be a pattern.  A question mark that
follows makes the repetition lazy. -/
def repeatLast (r : Reading) (least : Nat) (most : Option Nat) (rest : List Char) :
    Option Reading :=
  let (lazy, rest) := match rest with
    | '?' :: rest => (true, rest)
    | rest => (false, rest)
  match r.group.current with
  | .pattern p d :: before =>
    let repeated := p.repeated least most (lazy == r.flags.swapGreed)
    let group := { r.group with current := .pattern repeated (d + 1) :: before }
    some { r with rest, group }
  | _ => none

/-- Decimal digits of a count; in extended patterns blanks and comments may stand among them. -/
def countDigits (extended inComment : Bool) : List Char → List Char × List Char
  | [] => ([], [])
  | c :: cs =>
    if inComment then countDigits extended (c != '\n') cs
    else if c.isDigit then
      let (ds, rest) := countDigits extended false cs
      (c :: ds, rest)
    else if extended && c == '#' then countDigits extended true cs
    else if extended && Text.isBlank c then countDigits extended false cs
    else ([], c :: cs)

/-- A count of at most 32 bits, which may be missing, with the blanks around it. -/
def readCount (f : Flags) (cs : List Char) : Option (Option Nat × List Char) :=
  let (ds, rest) := countDigits f.extended false (cs.dropWhile Text.isBlank)
  let rest := f.gap (rest.dropWhile Text.isBlank)
  if ds.isEmpty then some (none, rest)
  else if Numeral.ofDigits ds < 0x100000000 then some (some (Numeral.ofDigits ds), rest)
  else none

/-- A counted repetition, from after its brace. -/
def counted (r : Reading) (cs : List Char) : Option Reading := do
  let f := r.flags
  let (least, rest) ← readCount f (f.gap cs)
  let least ← least
  match rest with
  | ',' :: rest =>
    match f.gap rest with
    | '\x7d' :: rest => r.repeatLast least none (f.gap rest)
    | rest =>
      let (most, rest) ← readCount f rest
      let most ← most
      match rest with
      | '\x7d' :: rest =>
        if least ≤ most then r.repeatLast least (some most) (f.gap rest) else none
      | _ => none
  | '\x7d' :: rest => r.repeatLast least (some least) (f.gap rest)
  | _ => none

/-- May a character stand in the name of a group? -/
def isNameChar (first : Bool) (c : Char) : Bool :=
  c == '_' || Text.isLetter c ||
    (!first && (Text.isNumber c || c == '.' || c == '[' || c == ']'))

def openGroup (r : Reading) (flags : Flags) (number : Option Nat) (rest : List Char) : Reading :=
  { r with rest, flags, group := { outer := r.flags, number }, stack := r.group :: r.stack }

/-- A group with the next number. -/
def openNumbered (r : Reading) (rest : List Char) : Reading :=
  { r with groups := r.groups + 1 }.openGroup r.flags (some (r.groups + 1)) rest

/-- A group name, up to its angle bracket; no two groups share one. -/
def openNamed (r : Reading) (cs : List Char) : Option Reading :=
  let name := cs.takeWhile (· != '>')
  match name, cs.drop name.length with
  | c :: more, _ :: rest =>
    if isNameChar true c && more.all (isNameChar false) && !r.names.contains name then
      some ({ r with names := name :: r.names }.openNumbered rest)
    else none
  | _, _ => none

/-- A group, from after its parenthesis. -/
def readGroup (r : Reading) (cs : List Char) : Option Reading :=
  match r.flags.gap cs with
  | '?' :: '=' :: _ | '?' :: '!' :: _ | '?' :: '<' :: '=' :: _ | '?' :: '<' :: '!' :: _ => none
  | '?' :: 'P' :: '<' :: cs | '?' :: '<' :: cs => r.openNamed cs
  | '?' :: cs =>
    let letters := cs.takeWhile fun c => c != ':' && c != ')'
    match cs.drop letters.length with
    | ':' :: rest => (r.flags.read? [] letters).map (r.openGroup · none rest)
    | ')' :: rest =>
      if letters.isEmpty then none
      else do
        let flags ← r.flags.read? [] letters
        let group := { r.group with current := .flags :: r.group.current }
        return { r with rest, flags, group }
    | _ => none
  | cs => some (r.openNumbered cs)

def closeGroup (r : Reading) (rest : List Char) : Option Reading :=
  match r.stack with
  | outer :: stack =>
    let (p, d) := r.group.pattern
    let p := match r.group.number with
      | some n => .group n p
      | none => p
    some ({ r with flags := r.group.outer, group := outer, stack }.push p (d + 1) rest)
  | [] => none

/-- Reads the next piece, which takes at least one character.  The fuel is for classes. -/
def step (fuel : Nat) (r : Reading) (c : Char) (cs : List Char) : Option Reading :=
  match c with
  | '(' => r.readGroup cs
  | ')' => r.closeGroup cs
  | '|' =>
    let group := { r.group with done := r.group.current :: r.group.done, current := [] }
    some { r with rest := cs, group }
  | '[' =>
    (readBracket r.flags fuel cs).map fun (set, depth, rest) => r.push (.oneOf set) depth rest
  | '?' => r.repeatLast 0 (some 1) cs
  | '*' => r.repeatLast 0 none cs
  | '+' => r.repeatLast 1 none cs
  | '\x7b' => r.counted cs
  | '\\' => (readEscape r.flags cs).bind fun (atom, rest) => r.pushAtom atom rest
  | '.' => r.flags.dot?.map fun set => r.push (.oneOf set) 0 cs
  | '^' => some (r.push (.look r.flags.caret) 0 cs)
  | '$' => some (r.push (.look r.flags.dollar) 0 cs)
  | c => r.pushAtom (.literal c false) cs

/-- Reads to the end; fuel beyond the length of what is left is enough. -/
def run : Nat → Reading → Option Reading
  | 0, _ => none
  | fuel + 1, r =>
    match r.flags.gap r.rest with
    | [] => some r
    | c :: cs => (step fuel r c cs).bind (run fuel)

end Reading

/-- How deep groups, repetitions, branches and classes may nest. -/
def nestLimit : Nat := 250

namespace Pattern

/-- The pattern that a text writes, unless it is malformed, nests too deep or grows too large. -/
def ofText? (text : String) : Option Pattern := do
  let r ← Reading.run (text.length + 1) { rest := text.toList }
  let (p, depth) := r.group.pattern
  if r.stack.isEmpty && depth ≤ nestLimit && p.fits then some p else none

end Pattern

end ReactiveQuery.Regex
