import ReasonGraph.Value.Basic
import ReasonGraph.Decimal.Shortest
import ReasonGraph.Text.Quoted

/-! How a loose value is written in messages: with quotes, inside a longer text; plain, where
a text stands for itself; and on display, where a member is told with its vocabulary. -/

namespace ReasonGraph.Value
open Text

mutual

def written : Value → String
  | null => "None"
  | bool b => if b then "True" else "False"
  | int n => toString n
  | float x => Decimal.shortest x
  | text s => quoted s
  | member m => "<" ++ m.vocabulary ++ "." ++ m.name.toUpper ++ ": " ++ quoted m.name ++ ">"
  | list items => "[" ++ ", ".intercalate (writtenItems items) ++ "]"
  | map fields => "\x7b" ++ ", ".intercalate (writtenFields fields) ++ "\x7d"

def writtenItems : List Value → List String
  | [] => []
  | v :: rest => written v :: writtenItems rest

def writtenFields : List (String × Value) → List String
  | [] => []
  | (k, v) :: rest => (quoted k ++ ": " ++ written v) :: writtenFields rest

end

def display : Value → String
  | text s => s
  | member m => m.vocabulary ++ "." ++ m.name.toUpper
  | v => written v

def plain : Value → String
  | text s => s
  | member m => m.name
  | v => written v

end ReasonGraph.Value
