/-! What can go wrong, as causes, with the wording of each. -/

namespace ReactiveQuery

/-- An error that a caller can see. -/
inductive Error where
  | unknownOperator (tag : String)
  | invalidOperands (operator : String) (expected got : Nat)
  | unknownExtension (name : String)
  | invalidPattern (pattern message : String)
  | parse (query message : String)
  | cycleOverrun (cycles : Nat)
  | missingCollaborator (name : String)
  | unknownField (field : String)
  | invalidOperation (message : String)
  deriving DecidableEq

namespace Error

def message : Error → String
  | .unknownOperator tag => s!"Invalid parser node: {tag}"
  | .invalidOperands op expected got =>
    s!"Operator {op} expects {expected} operand(s), got {got}"
  | .unknownExtension name => "Extension '" ++ name ++ "' does not exist"
  | .invalidPattern pattern message => s!"Invalid pattern /{pattern}/: {message}"
  | .parse query message => "Failed to parse query '" ++ query ++ "': " ++ message
  | .cycleOverrun cycles => s!"Too many notification cycles (limit {cycles})"
  | .missingCollaborator name => s!"Required collaborator not available: {name}"
  | .unknownField field => s!"Record does not declare field: {field}"
  | .invalidOperation message => s!"Invalid operation: {message}"

/-- Does the error arise while a query is read and compiled? -/
def isCompileError : Error → Bool
  | .unknownOperator _ | .invalidOperands .. | .unknownExtension _ | .invalidPattern ..
  | .parse .. => true
  | .cycleOverrun _ | .missingCollaborator _ | .unknownField _ | .invalidOperation _ => false

end Error

/-- Why an activity gives no result: an error, or it never ends. -/
inductive Fault where
  | raised (error : Error)
  | endless
  deriving DecidableEq

end ReactiveQuery
