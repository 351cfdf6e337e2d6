/-! What can be wrong with loose data, and where. Every issue has a short code and one
sentence; its place is the way from the outermost record down to the value. -/

namespace ReasonGraph.Schema

/-- One step on the way to a value: a field or key by name, a list item by position. -/
inductive Key where
  | name (s : String)
  | item (i : Nat)
deriving DecidableEq

inductive Fault where
  | missing
  | extra
  | notRecord (record : String)
  | notAttributes
  | notText
  | emptyText
  | notListed (names : List String)
  | notLiteral (names : List String)
  | notNumber
  | unreadableNumber
  | notAbove (bound : Nat)
  | below (bound : Nat)
  | above (bound : Nat)
  | notInteger
  | unreadableInteger
  | fractional
  | oversized
  | notFinite
  | notTruthValue
  | unreadableTruthValue
  | notList
  | notMap
  | frozen
deriving DecidableEq

namespace Fault

def code : Fault → String
  | missing => "missing"
  | extra => "extra_forbidden"
  | notRecord _ => "model_type"
  | notAttributes => "model_attributes_type"
  | notText => "string_type"
  | emptyText => "string_too_short"
  | notListed _ => "enum"
  | notLiteral _ => "literal_error"
  | notNumber => "float_type"
  | unreadableNumber => "float_parsing"
  | notAbove _ => "greater_than"
  | below _ => "greater_than_equal"
  | above _ => "less_than_equal"
  | notInteger => "int_type"
  | unreadableInteger => "int_parsing"
  | fractional => "int_from_float"
  | oversized => "int_parsing_size"
  | notFinite => "finite_number"
  | notTruthValue => "bool_type"
  | unreadableTruthValue => "bool_parsing"
  | notList => "list_type"
  | notMap => "dict_type"
  | frozen => "frozen_instance"

def alternatives (names : List String) : String :=
  match (names.map fun s => "'" ++ s ++ "'").reverse with
  | [] => ""
  | [only] => only
  | last :: rest => ", ".intercalate rest.reverse ++ " or " ++ last

def message : Fault → String
  | missing => "Field required"
  | extra => "Extra inputs are not permitted"
  | notRecord record => "Input should be a valid dictionary or instance of " ++ record
  | notAttributes => "Input should be a valid dictionary or object to extract fields from"
  | notText => "Input should be a valid string"
  | emptyText => "String should have at least 1 character"
  | notListed names => "Input should be " ++ alternatives names
  | notLiteral names => "Input should be " ++ alternatives names
  | notNumber => "Input should be a valid number"
  | unreadableNumber => "Input should be a valid number, unable to parse string as a number"
  | notAbove bound => "Input should be greater than " ++ toString bound
  | below bound => "Input should be greater than or equal to " ++ toString bound
  | above bound => "Input should be less than or equal to " ++ toString bound
  | notInteger => "Input should be a valid integer"
  | unreadableInteger =>
    "Input should be a valid integer, unable to parse string as an integer"
  | fractional => "Input should be a valid integer, got a number with a fractional part"
  | oversized => "Unable to parse input string as an integer, exceeded maximum size"
  | notFinite => "Input should be a finite number"
  | notTruthValue => "Input should be a valid boolean"
  | unreadableTruthValue => "Input should be a valid boolean, unable to interpret input"
  | notList => "Input should be a valid list"
  | notMap => "Input should be a valid dictionary"
  | frozen => "Instance is frozen"

end Fault

structure Issue where
  place : List Key
  fault : Fault
deriving DecidableEq

def Issue.under (k : Key) (i : Issue) : Issue := { i with place := k :: i.place }

end ReasonGraph.Schema
