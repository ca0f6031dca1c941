import ReactiveQuery.Text.Encoding
import ReactiveQuery.Regex.Pattern

/-! The room that a pattern takes as an automaton over bytes.  One automaton reads a text from its
start and one from its end; a pattern fits when each stays within `roomLimit`.  The automata
themselves are not kept: only states and bytes are counted. -/

namespace ReactiveQuery.Regex

/-- States so far, and bytes beside them. -/
structure Room where
  states : Nat := 0
  extra : Nat := 0

/-- Bytes that a state takes. -/
def stateBytes : Nat := 32

/-- Ten mebibytes. -/
def roomLimit : Nat := 10 * 1024 * 1024

def Room.bytes (r : Room) : Nat := stateBytes * r.states + r.extra

/-- A step that takes room and fails where none is left. -/
abbrev Build := StateT Room Option

namespace Build

/-- Room for states and for bytes beside them; returns the number of the first state. -/
def take (states extra : Nat) : Build Nat := fun room =>
  let taken : Room := ⟨room.states + states, room.extra + extra⟩
  if taken.bytes ≤ roomLimit then some (room.states, taken) else none

def state : Build Unit := discard (take 1 0)

/-- Ways out of states that branch, four bytes each. -/
def exits (n : Nat) : Build Unit := discard (take 0 (4 * n))

/-- A way on from the end of what was built, which takes room only if that state branches. -/
def join (branching : Bool) : Build Unit := if branching then exits 1 else pure ()

/-- A part after an end that may branch; returns whether its own end does. -/
def follow (branching : Bool) (part : Build Bool) : Build Bool := do
  let next ← part
  join branching
  return next

/-- More copies one after another, from an end that may branch; returns whether the last one does.
The room is handed on openly, so that large counts run as a loop and stop where it is used up. -/
def copies (body : Build Bool) : Nat → Bool → Build Bool
  | 0, branching, room => some (branching, room)
  | n + 1, branching, room =>
    match follow branching body room with
    | some (next, room) => copies body n next room
    | none => none

/-- An exact number of copies. -/
def exactly (body : Build Bool) : Nat → Build Bool
  | 0 => do state; return false
  | n + 1 => do copies body n (← body)

/-- Copies that each may be the last, or left out. -/
def options (body : Build Bool) : Nat → Bool → Build Bool :=
  copies do
    state
    let branching ← body
    exits 2
    return branching

/-- A repetition; `takes` when every match of the body takes a character. -/
def repetition (body : Build Bool) (takes : Bool) (least : Nat) : Option Nat → Build Bool
  | some 1 =>
    if least == 0 then do
      join (← options body 1 false)
      state
      return false
    else exactly body 1
  | some most =>
    if least == most then exactly body least
    else do
      let branching ← exactly body least
      state
      join (← options body (most - least) branching)
      return false
  | none =>
    match least with
    | 0 =>
      if takes then do
        state
        join (← body)
        exits 1
        return true
      else do
        join (← body)
        discard (take 3 0)
        exits 4
        return false
    | 1 => do
      join (← body)
      state
      exits 1
      return true
    | n + 2 => do
      join (← exactly body (n + 1))
      join (← body)
      state
      exits 1
      return true

/-! ### Sets of characters -/

/-- The states that were built for a set: in each slot the last one, by its key. -/
abbrev Known := Array (List Nat × Nat)

/-- Slots without states; no key is empty. -/
def noneKnown (slots : Nat) : Known := .replicate slots ([], 0)

/-- The number of slots when sets are read forward. -/
def treeSlots : Nat := 10000

/-- The number of slots when sets are read backward. -/
def chainSlots : Nat := 1000

/-- The hash of a key, which mixes in its numbers in order. -/
def hash (key : List Nat) : UInt64 :=
  key.foldl (fun hash word => (hash ^^^ word.toUInt64) * 1099511628211) 14695981039346656037

/-- The state of a key.  It is built when its slot does not hold it. -/
def shared (key : List Nat) (extra : Nat) : StateT Known Build Nat := do
  let slot := (hash key).toNat % (← get).size
  let (held, state) := (← get).getD slot ([], 0)
  if held == key then return state
  let state ← take 1 extra
  modify (·.setIfInBounds slot (key, state))
  return state

/-- Eight bytes for each way out of a state, unless it has one. -/
def arcBytes (arcs : Nat) : Nat := 8 * arcs

/-- The state where byte sequences begin that end in `target`.  Neighbours that begin alike share
the way; no sequence is longer than `depth`. -/
def byteTree (target : Nat) : Nat → List (List Text.ByteRange) → StateT Known Build Nat
  | depth + 1, sequences@((_ :: _) :: _) => do
    let groups := sequences.splitBy fun a b => a.head? == b.head?
    let arcs ← groups.mapM fun group => do
      let next ← byteTree target depth (group.map List.tail)
      return match group with
        | ((low, high) :: _) :: _ => [low, high, next]
        | _ => []
    shared arcs.flatten (arcBytes arcs.length)
  | _, _ => return target

/-- The states of byte sequences that are read from their ends and end in `target`. -/
def byteChains (target : Nat) (sequences : List (List Text.ByteRange)) : StateT Known Build Unit :=
  sequences.forM fun sequence => do
    discard (sequence.foldlM (fun here (low, high) => shared [here, low, high] 0) target)
    exits 1

/-- One character of a set.  Characters of ASCII are bytes. -/
def oneOf (backward : Bool) (set : CharSet) : Build Bool := do
  if set.all (·.2 < 0x80) then
    discard (take 2 (arcBytes set.length))
  else if backward then
    state
    discard ((byteChains (← take 1 0) (Text.encodings set)).run (noneKnown chainSlots))
  else
    discard ((byteTree (← take 1 0) 4 (Text.encodings set)).run (noneKnown treeSlots))
  return false

/-! ### Alternatives of literals -/

/-- The literals of a place in a tree of literals, as runs between those that end there. -/
def runs (literals : List (List UInt8)) : List (List (List UInt8)) :=
  let ended := literals.takeWhile List.isEmpty
  let runs := (literals.drop ended.length).foldr
    (fun
      | [], runs => [] :: runs
      | literal, run :: runs => (literal :: run) :: runs
      | literal, [] => [[literal]])
    [[]]
  if ended.isEmpty then runs else [] :: runs

/-- What follows each first byte of some literals. -/
def followers (literals : List (List UInt8)) : List (List (List UInt8)) :=
  (literals.filterMap List.head?).eraseDups.map fun byte =>
    literals.filterMap fun
      | b :: rest => if b == byte then some rest else none
      | [] => none

/-- The places of a tree of literals; `fuel` bounds how many there are. -/
def literalTree : Nat → List (List (List UInt8)) → Build Unit
  | 0, _, room | _, [], room => some ((), room)
  | fuel + 1, place :: places, room =>
    let runs := runs place
    let arms := runs.map followers
    let arcs := (arms.map List.length).filter (0 < ·)
    let ways := arcs.length + (runs.length - 1)
    let own : Build Unit := do
      discard (take arcs.length (arcs.foldl (fun n k => n + if 1 < k then arcBytes k else 0) 0))
      if ways != 1 then
        state
        exits ways
    let next := arms.flatten.filter fun place => place.any (!·.isEmpty)
    match own room with
    | some ((), room) => literalTree fuel (next ++ places) room
    | none => none

def literals (backward : Bool) (literals : List (List UInt8)) : Build Bool := do
  let literals := if backward then literals.map List.reverse else literals
  state
  literalTree (literals.foldl (fun n literal => n + literal.length) 1) [literals]
  return false

end Build

namespace Pattern

/-- The bytes of alternatives that are all literals. -/
def literals? (ps : List Pattern) : Option (List (List UInt8)) :=
  ps.mapM fun
    | .literal cs => some (cs.flatMap String.utf8EncodeChar)
    | _ => none

/-- Takes the room of a pattern whose sequences stand in the order of reading; returns whether
its last state branches. -/
def build (backward : Bool) : Pattern → Build Bool
  | .empty | .look _ => do Build.state; return false
  | .literal cs => do
    discard (Build.take (cs.foldl (fun n c => n + c.utf8Size) 0) 0)
    return false
  | .one set => Build.oneOf backward set
  | .rep body least most _ =>
    Build.repetition (body.build backward) (body.shortest.any (0 < ·)) least most
  | .group _ body =>
    if backward then body.build backward
    else do
      Build.state
      Build.join (← body.build backward)
      Build.state
      return false
  | .seq [] | .alt [] => do Build.state; return false
  | .seq (p :: ps) => do inOrder ps (← p.build backward)
  | .alt [p] => p.build backward
  | .alt (p :: q :: ps) =>
    match literals? (p :: q :: ps) with
    | some literals => Build.literals backward literals
    | none => do
      branch (← p.build backward)
      branch (← q.build backward)
      discard (Build.take 2 0)
      each ps
where
  branch (branching : Bool) : Build Unit := do
    Build.exits 1
    Build.join branching
  inOrder : List Pattern → Bool → Build Bool
    | [], branching, room => some (branching, room)
    | p :: ps, branching, room =>
      match Build.follow branching (p.build backward) room with
      | some (next, room) => inOrder ps next room
      | none => none
  each : List Pattern → Build Bool
    | [], room => some (false, room)
    | p :: ps, room =>
      match (p.build backward >>= branch) room with
      | some ((), room) => each ps room
      | none => none

/-- Takes the room of the automaton that looks for a pattern everywhere, or at the one place where
it can begin. -/
def automaton (backward : Bool) (p : Pattern) : Build Unit := do
  let fixed := p.opensWith (if backward then .textEnd else .textStart)
  if fixed then Build.state
  else
    discard (Build.take 3 (Build.arcBytes 1))
    Build.exits 1
  let branching ← (group 0 p).build backward
  Build.state
  Build.join branching
  Build.join !fixed

/-- Does a pattern fit into the room there is? -/
def fits (p : Pattern) : Bool :=
  ((p.automaton false).run {}).isSome && ((p.mirrored.automaton true).run {}).isSome

end Pattern

end ReactiveQuery.Regex
