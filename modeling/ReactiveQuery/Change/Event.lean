import ReactiveQuery.Value.Basic

/-! Changes: what changed on which target, and the topics that listeners follow. -/

namespace ReactiveQuery

inductive EventKey where
  | field (name : String)
  | content
  | length
  deriving DecidableEq

namespace EventKey

def text : EventKey → String
  | .field name => name
  | .content => ".content"
  | .length => ".length"

end EventKey

structure Event where
  target : Nat
  key : EventKey
  new : Value
  old : Value

/-- The values that an event carries. -/
def Event.values (e : Event) : List Value := [e.new, e.old]

/-- A target and a key to follow, where `none` stands for all. -/
structure Topic where
  target : Option Nat
  key : Option EventKey
  deriving DecidableEq

/-- The topics that an event belongs to, in the order in which their listeners hear of it. -/
def Event.topics (target : Nat) (key : EventKey) : List Topic :=
  [⟨some target, some key⟩, ⟨none, some key⟩, ⟨some target, none⟩, ⟨none, none⟩]

/-- A listener's registration on a topic. -/
structure Subscription where
  topic : Topic
  listener : Nat
  deriving DecidableEq

end ReactiveQuery
