import ReactiveQuery.Error
import ReactiveQuery.Value.Access

/-! Query expressions as a parser builds them. -/

namespace ReactiveQuery

inductive UnaryOp where
  | not | neg
  deriving DecidableEq

inductive BinaryOp where
  | and | or
  | add | sub | mul | div | mod
  | eq | ne | gt | ge | lt | le
  | isIn | regex
  deriving DecidableEq

def UnaryOp.tag : UnaryOp → String
  | .not => "not"
  | .neg => "neg"

namespace BinaryOp

def tag : BinaryOp → String
  | .and => "and"
  | .or => "or"
  | .add => "add"
  | .sub => "sub"
  | .mul => "mul"
  | .div => "div"
  | .mod => "mod"
  | .eq => "eq"
  | .ne => "neq"
  | .gt => "gt"
  | .ge => "gte"
  | .lt => "lt"
  | .le => "lte"
  | .isIn => "in"
  | .regex => "regex"

def ofTag? : String → Option BinaryOp
  | "and" => some .and
  | "or" => some .or
  | "add" => some .add
  | "sub" => some .sub
  | "mul" => some .mul
  | "div" => some .div
  | "mod" => some .mod
  | "eq" => some .eq
  | "neq" => some .ne
  | "gt" => some .gt
  | "gte" => some .ge
  | "lt" => some .lt
  | "lte" => some .le
  | "in" => some .isIn
  | "regex" | "re" => some .regex
  | _ => none

theorem ofTag?_tag (op : BinaryOp) : ofTag? op.tag = some op := by cases op <;> rfl

end BinaryOp

/-- Where a path starts: at the record at hand or at an argument of the query. -/
inductive Root where
  | here
  | arg (index : Nat)
  deriving DecidableEq

mutual
inductive Node where
  | literal (v : Value)
  | unary (op : UnaryOp) (operand : Node)
  | binary (op : BinaryOp) (left right : Node)
  | ternary (cond yes no : Node)
  | path (root : Root) (components : List Component)
  | object (members : List (String × Node))
  | array (items : List Node)
  | call (name : String) (args : List Node)

/-- A step of a path: a key that is written, or one that is computed from the record at hand. -/
inductive Component where
  | key (v : Value)
  | computed (n : Node)
end

instance : Inhabited Node := ⟨.literal .null⟩

structure Path where
  root : Root
  components : List Component

namespace Path

def node (p : Path) : Node := .path p.root p.components

def isComputed : Component → Bool
  | .computed _ => true
  | .key _ => false

def hasComputedKey (p : Path) : Bool := p.components.any isComputed

/-- The written keys as texts, in order. -/
def literalKeys (p : Path) (h : Heap) : Option (List String) :=
  (p.components.filterMap fun
    | .key v => some v
    | .computed _ => none).mapM h.text

/-- The path as it is written. -/
def text (p : Path) (h : Heap) : Option String := do
  let root := match p.root with
    | .here => "@"
    | .arg i => s!"%{i}"
  let steps ← p.components.mapM fun
    | .key v => (h.text v).map ("." ++ ·)
    | .computed _ => some "[..]"
  return String.join (root :: steps)

end Path

namespace Node

/-- The operator node of a tag.  Operators take one, two or three operands; arrays take any. -/
def ofTag (tag : String) (operands : List Node) : Except Error Node :=
  let wrong (expected : Nat) : Except Error Node :=
    .error (.invalidOperands tag expected operands.length)
  match tag, operands with
  | "not", [x] => .ok (.unary .not x)
  | "neg", [x] => .ok (.unary .neg x)
  | "not", _ | "neg", _ => wrong 1
  | "tern", [c, t, o] | "ternary", [c, t, o] => .ok (.ternary c t o)
  | "tern", _ | "ternary", _ => wrong 3
  | "arr", items => .ok (.array items)
  | tag, operands =>
    match BinaryOp.ofTag? tag, operands with
    | none, _ => .error (.unknownOperator tag)
    | some op, [l, r] => .ok (.binary op l r)
    | some _, _ => wrong 2

end Node

/-- A key of an order clause. -/
structure OrderKey where
  path : Path
  ascending : Bool

/-- A query as a parser gives it. -/
structure Query where
  filter : Node := .literal (.bool true)
  select : Option Node := none
  order : List OrderKey := []
  /-- Sort what the filter keeps before projecting it. -/
  sortFirst : Bool := false

end ReactiveQuery
