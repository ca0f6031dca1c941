import ReactiveQuery.Query.Node

/-! Compiled queries. -/

namespace ReactiveQuery

/-- What an extension function does. -/
inductive ExtensionAction where
  /-- Its first argument. -/
  | id
  /-- All its arguments. -/
  | args
  /-- The number of its calls. -/
  | tick
  /-- The source and the parameters of the query that calls it. -/
  | ctx
  /-- Fails with its first argument as the message. -/
  | fail
  /-- Adds one to a field of a record. -/
  | bump
  /-- Sets a field of a record. -/
  | set
  /-- Appends to a collection. -/
  | push
  /-- Runs another query over the source, once. -/
  | select
  deriving DecidableEq

/-- A registered extension function; the serial number tells registrations apart. -/
structure Extension where
  serial : Nat
  action : ExtensionAction
  deriving DecidableEq

mutual
/-- A compiled expression; what could be computed beforehand has become a literal. -/
inductive Code where
  | literal (v : Value)
  | unary (op : UnaryOp) (operand : Code)
  | binary (op : BinaryOp) (left right : Code)
  | ternary (cond yes no : Code)
  | path (root : Root) (steps : List Step)
  | object (members : List (String × Code))
  | array (items : List Code)
  | call (function : Extension) (args : List Code)

inductive Step where
  | key (v : Value)
  | computed (c : Code)
end

instance : Inhabited Code := ⟨.literal .null⟩

def Code.literal? : Code → Option Value
  | .literal v => some v
  | _ => none

/-- Where to read a sort key, and which way it runs. -/
structure SortKey where
  root : Root
  steps : List Step
  ascending : Bool

/-- A compiled query with every path that it reads, in the order of reading. -/
structure Definition where
  filter : Code
  select : Option Code
  sort : Option (List SortKey)
  sortFirst : Bool
  paths : List Path

mutual
/-- The places of the observable values among the literals of an expression. -/
def Code.places : Code → List Nat
  | .literal v => v.places
  | .unary _ a => a.places
  | .binary _ a b => a.places ++ b.places
  | .ternary a b c => a.places ++ b.places ++ c.places
  | .path _ steps => Step.placesOfAll steps
  | .object members => Code.placesOfMembers members
  | .array items => Code.placesOfAll items
  | .call _ args => Code.placesOfAll args

def Code.placesOfAll : List Code → List Nat
  | [] => []
  | c :: cs => c.places ++ Code.placesOfAll cs

def Code.placesOfMembers : List (String × Code) → List Nat
  | [] => []
  | (_, c) :: cs => c.places ++ Code.placesOfMembers cs

def Step.placesOfAll : List Step → List Nat
  | [] => []
  | .key v :: steps => v.places ++ Step.placesOfAll steps
  | .computed c :: steps => c.places ++ Step.placesOfAll steps
end

namespace Definition

def places (d : Definition) : List Nat :=
  d.filter.places ++ (d.select.map Code.places).getD [] ++
    ((d.sort.getD []).flatMap fun key => Step.placesOfAll key.steps) ++
    d.paths.flatMap fun p => p.components.flatMap fun
      | .key v => v.places
      | .computed _ => []

end Definition

end ReactiveQuery
