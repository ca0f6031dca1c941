import ReactiveQuery.Engine.Live

/-! Extension functions.  Missing arguments are null. -/

namespace ReactiveQuery.Extension

variable (call : Caller) (dispatch : Act Unit)

/-- One more than the calls so far of a registration. -/
def countCall (serial : Nat) : Act Nat := modifyGet fun w =>
  let n := (w.calls.lookup serial).getD 0 + 1
  (n, { w with calls := (serial, n) :: w.calls.filter (·.1 != serial) })

def bump (target field : Value) : Act Value := do
  if let .record r := target then
    let key ← Act.ask (·.text field)
    let old ← Act.ask fun h => h.number ((FieldMap.get? key (h.fields r)).getD .null)
    r.setField dispatch key (.number (old.add .one))
  return .bool true

def set (target field value : Value) : Act Value := do
  if let .record r := target then
    r.setField dispatch (← Act.ask (·.text field)) value
  return value

def push (target value : Value) : Act Value := do
  match target with
  | .collection r =>
    let _ ← r.change dispatch (.push value)
    return .ofNat ((← get).heap.items r).length
  | _ => return .null

def select (ctx : Context) (args : List Value) : Act Value := do
  let text ← match args with
    | [] => pure ""
    | v :: _ => Act.ask (·.text v)
  return .collection (← Act.query call ctx.source text args.tail)

/-- Calls an extension function.  All but the sub-query log their arguments. -/
def invoke (e : Extension) (ctx : Context) (args : List Value) : Act Value := do
  let arg (i : Nat) : Value := (args[i]?).getD .null
  unless e.action = .select do Act.log (.called e.action args)
  match e.action with
  | .id => return arg 0
  | .args => Act.freshArray args
  | .tick => return .ofNat (← countCall e.serial)
  | .ctx => do
    let params ← Act.freshArray ctx.params
    Act.freshArray [.collection ctx.source, params]
  | .fail => Act.raise (.invalidOperation (← Act.ask (·.text (arg 0))))
  | .bump => bump dispatch (arg 0) (arg 1)
  | .set => set dispatch (arg 0) (arg 1) (arg 2)
  | .push => push dispatch (arg 0) (arg 1)
  | .select => select call ctx args

end ReactiveQuery.Extension
