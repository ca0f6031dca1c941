import ReactiveQuery.Regex.Pattern
import ReactiveQuery.Text.Blank
import ReactiveQuery.Text.Folding
import ReactiveQuery.Text.Numeral

/-! Flags, escapes and bracketed classes of written patterns.  Every reader takes the characters
that are left and gives back what it leaves; `none` refuses the pattern. -/

namespace ReactiveQuery.Regex

structure Flags where
  ignoreCase : Bool := false
  multiLine : Bool := false
  dotAll : Bool := false
  extended : Bool := false
  crlf : Bool := false
  swapGreed : Bool := false
  unicode : Bool := true

/-- The rest after blanks and comments. -/
def skipBlanks (inComment : Bool) : List Char → List Char
  | [] => []
  | c :: cs =>
    if inComment then skipBlanks (c != '\n') cs
    else if Text.isBlank c then skipBlanks false cs
    else if c == '#' then skipBlanks true cs
    else c :: cs

/-- Letters, digits and underscore, and the other classes of ASCII characters that have names. -/
def namedClass? : String → Option CharSet
  | "alnum" => some [(0x30, 0x39), (0x41, 0x5A), (0x61, 0x7A)]
  | "alpha" => some [(0x41, 0x5A), (0x61, 0x7A)]
  | "ascii" => some [(0, 0x7F)]
  | "blank" => some [(0x9, 0x9), (0x20, 0x20)]
  | "cntrl" => some [(0, 0x1F), (0x7F, 0x7F)]
  | "digit" => some [(0x30, 0x39)]
  | "graph" => some [(0x21, 0x7E)]
  | "lower" => some [(0x61, 0x7A)]
  | "print" => some [(0x20, 0x7E)]
  | "punct" => some [(0x21, 0x2F), (0x3A, 0x40), (0x5B, 0x60), (0x7B, 0x7E)]
  | "space" => some [(0x9, 0xD), (0x20, 0x20)]
  | "upper" => some [(0x41, 0x5A)]
  | "word" => some asciiWordSet
  | "xdigit" => some [(0x30, 0x39), (0x41, 0x46), (0x61, 0x66)]
  | _ => none

namespace Flags

/-- In extended patterns blanks and comments mean nothing. -/
def gap (f : Flags) (cs : List Char) : List Char :=
  if f.extended then skipBlanks false cs else cs

/-- The character that follows one, past blanks and the sign of a comment. -/
def peek (f : Flags) (cs : List Char) : Option Char :=
  if !f.extended then cs.head?
  else match cs.dropWhile Text.isBlank with
    | '#' :: cs => (cs.dropWhile Text.isBlank).head?
    | cs => cs.head?

/-- A canonical set, with all that is alike to its members when case does not count. -/
def fold (f : Flags) (set : CharSet) : CharSet :=
  if !f.ignoreCase then set
  else if f.unicode then Text.closeUnderCase set
  else Text.closeUnderAsciiCase set

/-- What a set leaves out.  Without Unicode the characters are bytes, and a set that is left must
be of ASCII to match in texts. -/
def negate? (f : Flags) (negated : Bool) (set : CharSet) : Option CharSet :=
  let set := if !negated then set else if f.unicode then set.complement else set.complementUpTo 0xFF
  if f.unicode || set.all (·.2 ≤ 0x7F) then some set else none

/-- A set, folded first and then negated. -/
def foldAndNegate? (f : Flags) (negated : Bool) (set : CharSet) : Option CharSet :=
  f.negate? negated (f.fold set)

/-- Any character but those that end a line, or any at all. -/
def dot? (f : Flags) : Option CharSet :=
  let newlines : CharSet := if f.crlf then [(0xA, 0xA), (0xD, 0xD)] else [(0xA, 0xA)]
  if f.unicode then some (CharSet.complement (if f.dotAll then [] else newlines)) else none

def caret (f : Flags) : Look :=
  if !f.multiLine then .textStart else if f.crlf then .returnStart else .lineStart

def dollar (f : Flags) : Look :=
  if !f.multiLine then .textEnd else if f.crlf then .returnEnd else .lineEnd

def set? (f : Flags) (value : Bool) : Char → Option Flags
  | 'i' => some { f with ignoreCase := value }
  | 'm' => some { f with multiLine := value }
  | 's' => some { f with dotAll := value }
  | 'x' => some { f with extended := value }
  | 'R' => some { f with crlf := value }
  | 'U' => some { f with swapGreed := value }
  | 'u' => some { f with unicode := value }
  | _ => none

/-- Flags by letter, each at most once, with at most one minus, which no end may follow. -/
def read? (f : Flags) (seen : List Char) : List Char → Option Flags
  | [] => if seen.head? == some '-' then none else some f
  | c :: cs =>
    if seen.contains c then none
    else if c == '-' then read? f (c :: seen) cs
    else do read? (← f.set? (!seen.contains '-') c) (c :: seen) cs

end Flags

/-- What an escape or a plain character stands for. -/
inductive Atom where
  /-- A character, which may be written as a byte of two hexadecimal digits. -/
  | literal (c : Char) (asByte : Bool)
  | set (s : CharSet)
  | look (l : Look)

def isMeta (c : Char) : Bool := "\\.+*?()|[]\x7b\x7d^$#&-~".toList.contains c

/-- The character with a code given by hexadecimal digits. -/
def hexChar? (digits : List Char) : Option Char := do
  let code ← Numeral.hex? digits
  if h : code.isValidChar then some (.ofNatAux code h) else none

/-- So many hexadecimal digits. -/
def takeHex (f : Flags) : Nat → List Char → Option (List Char × List Char)
  | 0, cs => some ([], cs)
  | n + 1, cs =>
    match f.gap cs with
    | c :: cs => do
      let _ ← Numeral.hexValue? c
      let (digits, rest) ← takeHex f n cs
      return (c :: digits, rest)
    | [] => none

/-- Hexadecimal digits up to a closing brace; comments and blanks between them mean nothing in
extended patterns. -/
def takeHexInBraces (extended inComment : Bool) : List Char → Option (List Char × List Char)
  | [] => none
  | c :: cs =>
    if inComment then takeHexInBraces extended (c != '\n') cs
    else if c == '\x7d' then some ([], cs)
    else if extended && Text.isBlank c then takeHexInBraces extended false cs
    else if extended && c == '#' then takeHexInBraces extended true cs
    else do
      let _ ← Numeral.hexValue? c
      let (digits, rest) ← takeHexInBraces extended false cs
      return (c :: digits, rest)

/-- A character by its code, in so many digits or in braces. -/
def readHex (f : Flags) (width : Nat) (cs : List Char) : Option (Atom × List Char) :=
  match f.gap cs with
  | '\x7b' :: cs => do
    let (digits, rest) ← takeHexInBraces f.extended false cs
    return (.literal (← hexChar? digits) false, rest)
  | cs => do
    let (digits, rest) ← takeHex f width cs
    return (.literal (← hexChar? digits) (width == 2), rest)

/-- Letters and hyphens at the front, past blanks and comments in extended patterns, with the number
of characters as a bound on the steps. -/
def takeName (f : Flags) : Nat → List Char → List Char × List Char
  | 0, cs => ([], cs)
  | fuel + 1, cs =>
    match cs with
    | c :: rest =>
      if c.isAlpha || c == '-' then
        let (name, rest) := takeName f fuel (f.gap rest)
        (c :: name, rest)
      else ([], cs)
    | [] => ([], [])

/-- The kinds of word edge that may follow `\b` in braces; other text in braces is a repetition. -/
def readWordEdge (f : Flags) (cs : List Char) : Option (Atom × List Char) :=
  let look (kind : WordEdge) (rest : List Char) := some (Atom.look (.word kind !f.unicode), rest)
  match cs with
  | '\x7b' :: inner =>
    let inner := f.gap inner
    match takeName f inner.length inner with
    | ([], []) => none
    | ([], _) => look .edge cs
    | (name, '\x7d' :: rest) =>
      match String.ofList name with
      | "start" => look .start rest
      | "end" => look .finish rest
      | "start-half" => look .startHalf rest
      | "end-half" => look .finishHalf rest
      | _ => none
    | _ => none
  | cs => look .edge cs

/-- An escaped letter that stands for a class, or its capital for what the class leaves out. -/
def readEscapedClass (f : Flags) (negated : Bool) (unicode : CharSet) (name : String)
    (rest : List Char) : Option (Atom × List Char) := do
  let set ← if f.unicode then some unicode else namedClass? name
  return (.set (← f.negate? negated set), rest)

/-- An escape, from after its backslash. -/
def readEscape (f : Flags) : List Char → Option (Atom × List Char)
  | [] => none
  | c :: cs =>
    let literal (c : Char) := some (Atom.literal c false, cs)
    let word (kind : WordEdge) := some (Atom.look (.word kind !f.unicode), cs)
    if isMeta c then literal c
    else match c with
      | 'x' => readHex f 2 cs
      | 'u' => readHex f 4 cs
      | 'U' => readHex f 8 cs
      | 'd' => readEscapedClass f false Text.digitSet "digit" cs
      | 'D' => readEscapedClass f true Text.digitSet "digit" cs
      | 's' => readEscapedClass f false Text.blankSet "space" cs
      | 'S' => readEscapedClass f true Text.blankSet "space" cs
      | 'w' => readEscapedClass f false Text.wordSet "word" cs
      | 'W' => readEscapedClass f true Text.wordSet "word" cs
      | 'a' => literal '\x07'
      | 'f' => literal '\x0C'
      | 't' => literal '\t'
      | 'n' => literal '\n'
      | 'r' => literal '\r'
      | 'v' => literal '\x0B'
      | 'A' => some (.look .textStart, cs)
      | 'z' => some (.look .textEnd, cs)
      | 'b' => readWordEdge f cs
      | 'B' => word .inside
      | '<' => word .start
      | '>' => word .finish
      | c => if c.isAlphanum || 0x80 ≤ c.toNat then none else literal c

/-- A named class, from after its opening bracket: is it negated, and its members. -/
def readNamedClass : List Char → Option (Bool × CharSet × List Char)
  | ':' :: cs =>
    let (negated, cs) := match cs with
      | '^' :: cs => (true, cs)
      | cs => (false, cs)
    let name := cs.takeWhile (· != ':')
    match cs.drop name.length with
    | ':' :: ']' :: rest =>
      (namedClass? (String.ofList name)).map fun set => (negated, set, rest)
    | _ => none
  | _ => none

/-- One member of a class. -/
def readMember (f : Flags) : List Char → Option (Atom × List Char)
  | [] => none
  | '\\' :: cs => readEscape f cs
  | c :: cs => some (.literal c false, cs)

/-- The code that a character of a class has.  Without Unicode it is a byte. -/
def memberCode? (f : Flags) (c : Char) (asByte : Bool) : Option Nat :=
  if f.unicode || asByte || c.toNat ≤ 0x7F then some c.toNat else none

def Atom.set? (f : Flags) : Atom → Option CharSet
  | .literal c asByte => (memberCode? f c asByte).map fun code => [(code, code)]
  | .set s => some s
  | .look _ => none

/-- A member or a range of a class. -/
def readRange (f : Flags) (cs : List Char) : Option (CharSet × List Char) := do
  let (low, rest) ← readMember f cs
  let alone := (low.set? f).map fun set => (set, f.gap rest)
  match f.gap rest with
  | [] => none
  | '-' :: more =>
    if f.peek more == some ']' || f.peek more == some '-' then alone
    else
      let (high, rest) ← readMember f (f.gap more)
      match low, high with
      | .literal l lb, .literal h hb =>
        let first ← memberCode? f l lb
        let last ← memberCode? f h hb
        if l.toNat ≤ h.toNat then some ([(first, last)], rest) else none
      | _, _ => none
  | _ => alone

/-- A class with its nesting depth: what was read of it so far. -/
structure Union where
  ranges : List (Nat × Nat) := []
  members : Nat := 0
  depth : Nat := 0

namespace Union

def add (u : Union) (ranges : List (Nat × Nat)) (depth : Nat) : Union :=
  ⟨ranges ++ u.ranges, u.members + 1, max u.depth depth⟩

/-- Several members nest one deeper than one. -/
def nesting (u : Union) : Nat := if 1 < u.members then u.depth + 1 else u.depth

def set (u : Union) : CharSet := .canonical u.ranges

end Union

abbrev SetOperator := CharSet → CharSet → CharSet

/-- The left side of a set operation applied to the members that follow it. -/
def applyPending (f : Flags) (pending : Option (SetOperator × Union)) (u : Union) : Union :=
  match pending with
  | none => { u with depth := u.nesting, members := 1 }
  | some (op, left) =>
    ⟨op (f.fold left.set) (f.fold u.set), 1, max left.depth u.nesting + 1⟩

/-- The hyphens, or else the bracket, that stand for themselves at the front of a class. -/
def leadingMembers (f : Flags) (u : Union) : Nat → List Char → Option (Union × List Char)
  | 0, _ => none
  | fuel + 1, cs =>
    match cs with
    | [] => none
    | '-' :: rest => leadingMembers f (u.add [(0x2D, 0x2D)] 0) fuel (f.gap rest)
    | ']' :: rest =>
      if u.members == 0 then
        match f.gap rest with
        | [] => none
        | rest => some (u.add [(0x5D, 0x5D)] 0, rest)
      else some (u, cs)
    | cs => some (u, cs)

/-- The front of a class, from after its opening bracket: is it negated, and its first members. -/
def openClass (f : Flags) (fuel : Nat) (cs : List Char) : Option (Bool × Union × List Char) :=
  let (negated, cs) := match f.gap cs with
    | '^' :: cs => (true, f.gap cs)
    | cs => (false, cs)
  (leadingMembers f {} fuel cs).map fun (u, rest) => (negated, u, rest)

/-- The members of a class up to its closing bracket.  Every step takes a character, so that fuel
beyond the length of the text is enough. -/
def readClass (f : Flags) :
    Nat → Option (SetOperator × Union) → Union → List Char → Option (Union × List Char)
  | 0, _, _, _ => none
  | fuel + 1, pending, u, cs =>
    match f.gap cs with
    | [] => none
    | ']' :: rest => some (applyPending f pending u, rest)
    | '[' :: rest =>
      match readNamedClass rest with
      | some (negated, set, rest) => do
        readClass f fuel pending (u.add (← f.foldAndNegate? negated set) 0) rest
      | none => do
        let (negated, inner, rest) ← openClass f fuel rest
        let (inner, rest) ← readClass f fuel none inner rest
        let set ← f.foldAndNegate? negated inner.set
        readClass f fuel pending (u.add set (inner.depth + 1)) rest
    | '&' :: '&' :: rest =>
      readClass f fuel (some (CharSet.inter, applyPending f pending u)) {} rest
    | '-' :: '-' :: rest =>
      readClass f fuel (some (CharSet.diff, applyPending f pending u)) {} rest
    | '~' :: '~' :: rest =>
      readClass f fuel (some (CharSet.symmDiff, applyPending f pending u)) {} rest
    | cs => do
      let (ranges, rest) ← readRange f cs
      readClass f fuel pending (u.add ranges 0) rest

/-- A bracketed class from after its bracket: its set, its nesting depth, and the rest. -/
def readBracket (f : Flags) (fuel : Nat) (cs : List Char) :
    Option (CharSet × Nat × List Char) := do
  let (negated, u, rest) ← openClass f fuel cs
  let (u, rest) ← readClass f fuel none u rest
  return (← f.foldAndNegate? negated u.set, u.depth + 1, rest)

end ReactiveQuery.Regex
