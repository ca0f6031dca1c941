import ReactiveQuery.Query.Node

/-! Operators applied to values; `none` says that a conversion never ends. -/

namespace ReactiveQuery

def UnaryOp.apply (h : Heap) (op : UnaryOp) (v : Value) : Option Value :=
  match op with
  | .not => some (.bool !v.truthy)
  | .neg => h.neg v

/-- The value of an operator other than `regex`.  Both `and` and `or` give one of their operands. -/
def BinaryOp.apply (h : Heap) (op : BinaryOp) (l r : Value) : Option Value :=
  match op with
  | .and => some (if l.truthy then r else l)
  | .or => some (if l.truthy then l else r)
  | .add => h.add l r
  | .sub => h.arith .sub l r
  | .mul => h.arith .mul l r
  | .div => h.arith .div l r
  | .mod => h.arith .rem l r
  | .eq => (h.looseEq l r).map .bool
  | .ne => (h.looseEq l r).map (.bool !·)
  | .gt => (h.greater l r).map .bool
  | .ge => (h.atLeast l r).map .bool
  | .lt => (h.less l r).map .bool
  | .le => (h.atMost l r).map .bool
  | .isIn => (h.contains r l).map .bool
  | .regex => some (.bool false)

end ReactiveQuery
