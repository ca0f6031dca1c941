import ReactiveQuery.Query.Code
import ReactiveQuery.Query.Operator
import ReactiveQuery.Regex.Cache
import ReactiveQuery.Text.Lowercase

/-! Compilation: operators on literals are computed once, and function names are resolved. -/

namespace ReactiveQuery

/-- Extension functions by name, whatever the case of its letters. -/
abbrev Extensions := FieldMap Extension

namespace Extensions

def find? (es : Extensions) (name : String) : Option Extension :=
  FieldMap.get? (Text.lowercase name) es

def register (es : Extensions) (name : String) (e : Extension) : Extensions :=
  FieldMap.insert (Text.lowercase name) e es

end Extensions

/-- Compilation reads patterns into the cache, also when it fails later. -/
abbrev Compile := ExceptT Fault (StateM Regex.Cache)

namespace Compile

def ofOption {α : Type} (result : Option α) : Compile α :=
  ExceptT.mk (pure (match result with
    | some a => .ok a
    | none => .error .endless))

def raise {α : Type} (error : Error) : Compile α := throw (.raised error)

end Compile

/-- Does a pattern match a subject?  Only texts are patterns. -/
def regexMatch (h : Heap) (pattern subject : Value) : Compile Value :=
  match pattern with
  | .text p => do
    let s ← Compile.ofOption (h.text subject)
    return .bool (← (Regex.Cache.isMatch p s).adapt .raised)
  | _ => pure (.bool false)

/-- The value of a binary operator on two operands. -/
def BinaryOp.compute (h : Heap) (op : BinaryOp) (l r : Value) : Compile Value :=
  match op with
  | .regex => regexMatch h l r
  | op => Compile.ofOption (op.apply h l r)

/-- What compilation can see. -/
structure CompileScope where
  heap : Heap
  extensions : Extensions

variable (scope : CompileScope)

def Code.unary? (op : UnaryOp) : Code → Compile Code
  | .literal v => do return .literal (← Compile.ofOption (op.apply scope.heap v))
  | c => pure (.unary op c)

def Code.binary? (op : BinaryOp) : Code → Code → Compile Code
  | .literal l, .literal r => do return .literal (← op.compute scope.heap l r)
  | l, r => pure (.binary op l r)

def Code.ternary? : Code → Code → Code → Code
  | .literal c, .literal y, .literal n => .literal (if c.truthy then y else n)
  | c, y, n => .ternary c y n

mutual
def Node.compile : Node → Compile Code
  | .literal v => pure (.literal v)
  | .unary op a => do Code.unary? scope op (← a.compile)
  | .binary op a b => do
    let l ← a.compile
    Code.binary? scope op l (← b.compile)
  | .ternary a b c => do
    let cond ← a.compile
    let yes ← b.compile
    return Code.ternary? cond yes (← c.compile)
  | .path root components => do return .path root (← Component.compileAll components)
  | .object members => do return .object (← Node.compileMembers members)
  | .array items => do return .array (← Node.compileAll items)
  | .call name args =>
    match scope.extensions.find? name with
    | none => Compile.raise (.unknownExtension name)
    | some function => do return .call function (← Node.compileAll args)

def Node.compileAll : List Node → Compile (List Code)
  | [] => pure []
  | n :: ns => do return (← n.compile) :: (← Node.compileAll ns)

def Node.compileMembers : List (String × Node) → Compile (List (String × Code))
  | [] => pure []
  | (k, n) :: ns => do return (k, ← n.compile) :: (← Node.compileMembers ns)

/-- Computed keys that turn out literal are written keys. -/
def Component.compileAll : List Component → Compile (List Step)
  | [] => pure []
  | .key v :: cs => do return .key v :: (← Component.compileAll cs)
  | .computed n :: cs => do
    let step := match ← n.compile with
      | .literal v => Step.key v
      | c => .computed c
    return step :: (← Component.compileAll cs)
end

def OrderKey.compile (o : OrderKey) : Compile SortKey := do
  return ⟨o.path.root, ← Component.compileAll scope o.path.components, o.ascending⟩

/-- Compiles the filter, the projection and the order, in this sequence. -/
def Query.compile (q : Query) (paths : List Path) : Compile Definition := do
  let filter ← q.filter.compile scope
  let select ← q.select.mapM (Node.compile scope)
  let sort ← q.order.mapM (OrderKey.compile scope)
  return { filter, select, sort := if sort.isEmpty then none else some sort,
           sortFirst := q.sortFirst, paths }

end ReactiveQuery
