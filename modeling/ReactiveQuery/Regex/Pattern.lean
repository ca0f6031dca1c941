import ReactiveQuery.Text.WordChar

/-! Regular expressions.  The functions that put patterns together (`oneOf`, `inSequence`,
`repeated`, `anyOf`) keep them in a simple form: neighbouring literals are one literal, alternatives
between characters are one set, and what alternatives begin with in common stands in front. -/

namespace ReactiveQuery.Regex

/-- A place in a text: the characters before and after it. -/
structure Place where
  before : Option Char
  after : Option Char

/-- How a place lies to the words around it. -/
inductive WordEdge where
  | edge | inside
  | start | finish
  | startHalf | finishHalf
  deriving DecidableEq

/-- A condition on a place. -/
inductive Look where
  | textStart | textEnd
  | lineStart | lineEnd
  /-- Lines that may end in a carriage return and a line feed. -/
  | returnStart | returnEnd
  /-- With `ascii`, words of ASCII characters. -/
  | word (kind : WordEdge) (ascii : Bool)
  deriving DecidableEq

/-- Letters, digits and the underscore of ASCII. -/
def asciiWordSet : CharSet := [(0x30, 0x39), (0x41, 0x5A), (0x5F, 0x5F), (0x61, 0x7A)]

def WordEdge.holds (before after : Bool) : WordEdge → Bool
  | .edge => before != after
  | .inside => before == after
  | .start => !before && after
  | .finish => before && !after
  | .startHalf => !before
  | .finishHalf => !after

def Look.holds (p : Place) : Look → Bool
  | .textStart => p.before.isNone
  | .textEnd => p.after.isNone
  | .lineStart => p.before.all (· == '\n')
  | .lineEnd => p.after.all (· == '\n')
  | .returnStart => p.before.all fun c => c == '\n' || (c == '\r' && p.after != some '\n')
  | .returnEnd => p.after.all fun c => c == '\r' || (c == '\n' && p.before != some '\r')
  | .word kind ascii =>
    let isWordChar := if ascii then asciiWordSet.has else Text.isWordChar
    kind.holds (p.before.any isWordChar) (p.after.any isWordChar)

inductive Pattern where
  | empty
  /-- At least one character, in this order. -/
  | literal (chars : List Char)
  /-- One character of a canonical set. -/
  | one (set : CharSet)
  | look (l : Look)
  /-- At least `least` and at most `most` times. -/
  | rep (body : Pattern) (least : Nat) (most : Option Nat) (greedy : Bool)
  | group (number : Nat) (body : Pattern)
  | seq (parts : List Pattern)
  | alt (branches : List Pattern)

namespace Pattern

/-- Are two patterns built alike? -/
def same : Pattern → Pattern → Bool
  | .empty, .empty => true
  | .literal a, .literal b => a == b
  | .one a, .one b => a == b
  | .look a, .look b => a == b
  | .rep a l m g, .rep a' l' m' g' => l == l' && m == m' && g == g' && same a a'
  | .group n a, .group n' a' => n == n' && same a a'
  | .seq ps, .seq qs => sameAll ps qs
  | .alt ps, .alt qs => sameAll ps qs
  | _, _ => false
where
  sameAll : List Pattern → List Pattern → Bool
  | [], [] => true
  | p :: ps, q :: qs => same p q && sameAll ps qs
  | _, _ => false

/-- The number of patterns that a pattern is built of. -/
def size : Pattern → Nat
  | .rep body .. => body.size + 1
  | .group _ body => body.size + 1
  | .seq ps => sizes ps 1
  | .alt ps => sizes ps 1
  | _ => 1
where
  sizes : List Pattern → Nat → Nat
  | [], n => n
  | p :: ps, n => sizes ps (n + p.size)

/-- Does every match take no character?  A set without members has no match, and is not meant. -/
def onlyEmpty : Pattern → Bool
  | .empty | .look _ => true
  | .literal _ | .one _ => false
  | .rep body _ most _ => most.isSome && body.onlyEmpty
  | .group _ body => body.onlyEmpty
  | .seq ps => all ps
  | .alt ps => all ps
where
  all : List Pattern → Bool
  | [] => true
  | p :: ps => p.onlyEmpty && all ps

/-- The fewest characters that a match takes; none when a part has no match at all. -/
def shortest : Pattern → Option Nat
  | .empty | .look _ => some 0
  | .literal cs => some cs.length
  | .one set => if set.isEmpty then none else some 1
  | .rep body least _ _ => body.shortest.map (least * ·)
  | .group _ body => body.shortest
  | .seq ps => total ps 0
  | .alt [] => none
  | .alt (p :: ps) => do least ps (← p.shortest)
where
  total : List Pattern → Nat → Option Nat
  | [], n => some n
  | p :: ps, n => do total ps (n + (← p.shortest))
  least : List Pattern → Nat → Option Nat
  | [], n => some n
  | p :: ps, n => do least ps (min n (← p.shortest))

/-- Must every match begin at a place of this kind?  Only what stands in front of the first
character is looked at. -/
def opensWith (l : Look) : Pattern → Bool
  | .look l' => l == l'
  | .rep body least _ _ => least != 0 && body.opensWith l
  | .group _ body => body.opensWith l
  | .seq ps => front ps
  | .alt ps => all ps
  | _ => false
where
  front : List Pattern → Bool
  | [] => false
  | p :: ps => p.opensWith l || (p.onlyEmpty && front ps)
  all : List Pattern → Bool
  | [] => true
  | p :: ps => p.opensWith l && all ps

/-- The same pattern with the parts of sequences in reverse; literals stay as they are. -/
def mirrored : Pattern → Pattern
  | .rep body least most greedy => .rep body.mirrored least most greedy
  | .group n body => .group n body.mirrored
  | .seq ps => .seq (reversed ps [])
  | .alt ps => .alt (each ps)
  | p => p
where
  reversed : List Pattern → List Pattern → List Pattern
  | [], done => done
  | p :: ps, done => reversed ps (p.mirrored :: done)
  each : List Pattern → List Pattern
  | [] => []
  | p :: ps => p.mirrored :: each ps

/-! ### Putting patterns together -/

def oneOf (set : CharSet) : Pattern :=
  match set with
  | [(low, high)] => if low == high then .literal [Char.ofNat low] else .one set
  | set => .one set

/-- The parts of a pattern as far as it is a sequence. -/
def parts : Pattern → List Pattern
  | .empty => []
  | .seq ps => ps
  | p => [p]

def branches : Pattern → List Pattern
  | .alt ps => ps
  | p => [p]

/-- A part in front of others, where literals that meet become one. -/
def before (p : Pattern) (rest : List Pattern) : List Pattern :=
  match p, rest with
  | .literal a, .literal b :: rest => .literal (a ++ b) :: rest
  | p, rest => p :: rest

def inSequence (ps : List Pattern) : Pattern :=
  match (ps.flatMap parts).foldr before [] with
  | [] => .empty
  | [p] => p
  | ps => .seq ps

/-- A repetition; rounds that take no character need not be repeated. -/
def repeated (body : Pattern) (least : Nat) (most : Option Nat) (greedy : Bool) : Pattern :=
  let idle := body.onlyEmpty
  let least := if idle then min least 1 else least
  let most := if idle then some (min (most.getD 1) 1) else most
  if least == 0 && most == some 0 then .empty
  else if least == 1 && most == some 1 then body
  else .rep body least most greedy

/-- The one set of alternatives that are single characters throughout, or sets throughout. -/
def commonSet? (ps : List Pattern) : Option CharSet :=
  let chars := ps.mapM fun
    | .literal [c] => some (CharSet.single c)
    | _ => none
  let sets := ps.mapM fun
    | .one set => some set
    | _ => none
  (chars <|> sets).map fun sets => .canonical sets.flatten

/-- The parts with which two sequences both begin. -/
def commonFront : List Pattern → List Pattern → List Pattern
  | p :: ps, q :: qs => if p.same q then p :: commonFront ps qs else []
  | _, _ => []

/-- Sequences with the parts that all of them begin with. -/
def sharedFront? : List Pattern → Option (List (List Pattern) × List Pattern)
  | .seq ps :: rest => do
    let others ← rest.mapM fun
      | .seq qs => some qs
      | _ => none
    let front := others.foldl commonFront ps
    if front.isEmpty then none else some (ps :: others, front)
  | _ => none

/-- Alternatives, at least one part of each being taken out in front every time they are looked
at again; their size bounds how often. -/
def anyOfWithin : Nat → List Pattern → Pattern
  | 0, ps => .alt ps
  | fuel + 1, ps =>
    match ps.flatMap branches with
    | [] => .one []
    | [p] => p
    | ps =>
      match commonSet? ps with
      | some set => oneOf set
      | none =>
        match sharedFront? ps with
        | none => .alt ps
        | some (sequences, front) =>
          let rests := sequences.map fun ps => inSequence (ps.drop front.length)
          inSequence (front ++ [anyOfWithin fuel rests])

def anyOf (ps : List Pattern) : Pattern := anyOfWithin (size.sizes ps 1) ps

end Pattern

end ReactiveQuery.Regex
