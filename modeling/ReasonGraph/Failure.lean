import ReasonGraph.Engine.Options
import ReasonGraph.Engine.Seed
import ReasonGraph.Registry

/-! Failures as a caller sees them: a code for machines, a message for people, and for some
the field or relation that is to blame. -/

namespace ReasonGraph

/-- The parts may be any values; whoever reports a failure hands them in. -/
inductive Failure where
  | general (message : Value)
  | validation (field reason : Value)
  | configuration (message : Value)
  | registration (relation message : Value)

namespace Failure

def code : Failure → String
  | general _ => "solvechain_error"
  | validation _ _ => "validation_error"
  | configuration _ => "configuration_error"
  | registration _ _ => "rule_registration_error"

def message : Failure → Value
  | general message => message
  | validation field reason => .text (field.display ++ ": " ++ reason.display)
  | configuration message => message
  | registration _ message => message

def fields (f : Failure) : List (String × Value) :=
  let shared := [("code", .text f.code), ("message", f.message)]
  match f with
  | validation field _ => ("field", field) :: shared
  | registration relation _ => ("relation_type", relation) :: shared
  | _ => shared

end Failure

def Rejection.failure (r : Rejection) : Failure := .validation (.text r.field) (.text r.reason)

def RegistrationError.failure (e : RegistrationError) : Failure :=
  .registration .null (.text e.message)

end ReasonGraph
