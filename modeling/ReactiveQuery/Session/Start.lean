import ReactiveQuery.Session.Perform

/-! Sessions: an engine with its limits, queries and extension functions, and commands on it. -/

namespace ReactiveQuery

structure Setup where
  maxNotifyCycles : Nat := 128
  parserPoolCapacity : Nat := 4
  /-- Without a parser there is no engine. -/
  hasParser : Bool := true
  queries : List (String × QueryDraft) := []
  extensions : List (String × ExtensionAction) := []

namespace World

def registerAll (extensions : List (String × ExtensionAction)) (w : World) : World :=
  extensions.foldl (fun w (name, action) => ((Act.register name action).run.run w).2) w

/-- A world without an engine's own extension functions. -/
def bare (queries : List (String × QueryDraft)) (extensions : List (String × ExtensionAction)) :
    World :=
  { queries : World }.registerAll extensions

/-- A new engine, which knows sub-queries by the name `select` unless the setup replaces it. -/
def start (setup : Setup) : Except Error World :=
  if setup.hasParser then
    let w := bare setup.queries (("select", .select) :: setup.extensions)
    .ok { w with
      bus := { w.bus with ceiling := setup.maxNotifyCycles }
      parsers := { w.parsers with capacity := setup.parserPoolCapacity } }
  else .error (.missingCollaborator "parser")

end World

/-- Performs a command from outside; `none` says that it never ends. -/
def World.perform (w : World) (c : Command) : Option (Reply × World) :=
  let (result, w) := (Reentry.deepest.perform c).run.run w
  match result with
  | .ok reply => some (reply, w)
  | .error (.raised e) => some (.failed e, w)
  | .error .endless => none

end ReactiveQuery
