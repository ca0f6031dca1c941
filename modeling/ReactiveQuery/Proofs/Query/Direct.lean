import ReactiveQuery.Query.Evaluate

/-! The meaning of query expressions, read off the tree.  Nothing is computed beforehand: every
operator is applied when the evaluation comes to it, and patterns are read whenever they are
needed. -/

namespace ReactiveQuery

/-- What a pattern and a subject give; only texts are patterns. -/
def patternMeaning (h : Heap) (pattern subject : Value) : Except Fault Value :=
  match pattern with
  | .text p =>
    match h.text subject, Regex.Program.ofText? p with
    | none, _ => .error .endless
    | some _, none => .error (.raised (.invalidPattern p "not a pattern"))
    | some s, some program => .ok (.bool (program.isMatch s))
  | _ => .ok (.bool false)

/-- The value of an operator on two operands. -/
def BinaryOp.meaning (h : Heap) (op : BinaryOp) (l r : Value) : Except Fault Value :=
  match op with
  | .regex => patternMeaning h l r
  | op => ((op.apply h l r).map .ok).getD (.error .endless)

/-- Asks the heap for something that may be refused. -/
def Act.judge {α : Type} (question : Heap → Except Fault α) : Act α := do
  match question (← get).heap with
  | .ok a => pure a
  | .error e => throw e

/-- Where a path starts. -/
def Context.start (ctx : Context) (record : Value) : Root → Value
  | .here => record
  | .arg i => ctx.param i

section
variable (extensions : Extensions) (call : Caller) (ctx : Context) (record : Value)

mutual
/-- Evaluates an expression as it stands, with functions looked up among the extensions. -/
def Node.interpret : Node → Act Value
  | .literal v => pure v
  | .unary op a => do
    let v ← a.interpret
    Act.ask (op.apply · v)
  | .binary .and a b => do
    let l ← a.interpret
    if l.truthy then Act.holding [l] b.interpret else return l
  | .binary .or a b => do
    let l ← a.interpret
    if l.truthy then return l else Act.holding [l] b.interpret
  | .binary op a b => do
    let l ← a.interpret
    let r ← Act.holding [l] b.interpret
    Act.judge (op.meaning · l r)
  | .ternary a b c => do
    if (← a.interpret).truthy then b.interpret else c.interpret
  | .path root components => Component.walk (ctx.start record root) components
  | .object members => do Act.freshObject (← Node.interpretMembers [] members)
  | .array items => do Act.freshArray (← Node.interpretAll [] items)
  | .call name args =>
    match extensions.find? name with
    | none => Act.raise (.unknownExtension name)
    | some function => do
      let values ← Node.interpretAll [] args
      Act.holding values (call function ctx values)

def Node.interpretAll (done : List Value) : List Node → Act (List Value)
  | [] => pure done
  | n :: ns => do
    let v ← Act.holding done n.interpret
    Node.interpretAll (done ++ [v]) ns

def Node.interpretMembers (done : FieldMap Value) :
    List (String × Node) → Act (FieldMap Value)
  | [] => pure done
  | (k, n) :: ns => do
    let v ← Act.holding done.values n.interpret
    Node.interpretMembers (FieldMap.insert k v done) ns

/-- Walks along a path.  A computed key is evaluated on the record at hand, and only when the walk
comes to it. -/
def Component.walk (current : Value) : List Component → Act Value
  | [] => pure current
  | .key k :: components => do
    match (← get).heap.drill current with
    | none => return .null
    | some v =>
      let next ← Act.ask (·.read v k)
      Component.walk next components
  | .computed n :: components => do
    match (← get).heap.drill current with
    | none => return .null
    | some v =>
      let k ← Act.holding [v] n.interpret
      let next ← Act.ask (·.read v k)
      Component.walk next components
end

end

mutual
/-- The places of the observable values among the literals of an expression. -/
def Node.places : Node → List Nat
  | .literal v => v.places
  | .unary _ a => a.places
  | .binary _ a b => a.places ++ b.places
  | .ternary a b c => a.places ++ b.places ++ c.places
  | .path _ components => Component.placesOfAll components
  | .object members => Node.placesOfMembers members
  | .array items => Node.placesOfAll items
  | .call _ args => Node.placesOfAll args

def Node.placesOfAll : List Node → List Nat
  | [] => []
  | n :: ns => n.places ++ Node.placesOfAll ns

def Node.placesOfMembers : List (String × Node) → List Nat
  | [] => []
  | (_, n) :: ns => n.places ++ Node.placesOfMembers ns

def Component.placesOfAll : List Component → List Nat
  | [] => []
  | .key v :: components => v.places ++ Component.placesOfAll components
  | .computed n :: components => n.places ++ Component.placesOfAll components
end

end ReactiveQuery
