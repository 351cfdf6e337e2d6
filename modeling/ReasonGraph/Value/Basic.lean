import ReasonGraph.Graph.Basic

/-! Loose data as callers hand it in: numbers, texts, lists and maps that have not been
checked yet. A member of one of the three vocabularies (verdicts, kinds, relations) may
stand wherever its name may. -/

namespace ReasonGraph

inductive Member where
  | state (s : LogicState)
  | kind (k : NodeKind)
  | relation (r : Relation)
deriving DecidableEq

namespace Member

def name : Member → String
  | state s => s.name
  | kind k => k.name
  | relation r => r.name

def vocabulary : Member → String
  | state _ => "LogicState"
  | kind _ => "NodeType"
  | relation _ => "RelationType"

end Member

inductive Value where
  | null
  | bool (b : Bool)
  | int (n : Int)
  | float (x : Float)
  | text (s : String)
  | member (m : Member)
  | list (items : List Value)
  | map (fields : List (String × Value))
deriving Inhabited

namespace Value

/-- Nothing, no, zero and what is empty count as false. -/
def isTruthy : Value → Bool
  | null => false
  | bool b => b
  | int n => n ≠ 0
  | float x => !(x == 0.0)
  | text s => s ≠ ""
  | member m => m.name ≠ ""
  | list items => !items.isEmpty
  | map fields => !fields.isEmpty

def text? : Value → Option String
  | text s => some s
  | member m => some m.name
  | _ => none

def number? : Value → Option Float
  | bool b => some (if b then 1.0 else 0.0)
  | int n => some (Float.ofInt n)
  | float x => some x
  | _ => none

def texts (ids : List String) : Value := list (ids.map text)

end Value
end ReasonGraph
