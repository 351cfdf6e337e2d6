import ReasonGraph.Schema.Reader
import ReasonGraph.Engine.Run

/-! The records that callers exchange with the engine, field by field: names, defaults and
bounds. Some refuse unknown fields and some are sealed once made. -/

namespace ReasonGraph.Schema
open Reader Fields

def logic : Reader LogicState := oneOf (LogicState.all.map (·.name)) LogicState.ofName?

def kind : Reader NodeKind := oneOf (NodeKind.all.map (·.name)) NodeKind.ofName?

def node : Reader (Node Float) := fieldsOf "GraphNode" fun fs =>
  Node.mk <$> required fs "id" nonemptyText
    <*> required fs "type" kind
    <*> optional fs "title" "" text
    <*> optional fs "confidence" 50.0 percentage

def edge : Reader (Edge Float) := fieldsOf "GraphEdge" fun fs =>
  Edge.mk <$> required fs "id" nonemptyText
    <*> required fs "source_id" text
    <*> required fs "target_id" text
    <*> required fs "type" text
    <*> optional fs "strength" 1.0 fun v => (number v).bind (atLeast 0)

def stateFields : List String :=
  ["node_id", "logic_state", "confidence", "derived_from", "conflicts_with", "last_updated"]

def nodeState : Reader (NodeState Float) := fieldsOf "NodeState" fun fs =>
  NodeState.mk <$> required fs "node_id" text
    <*> optional fs "logic_state" .unknown logic
    <*> optional fs "confidence" 50.0 percentage
    <*> optional fs "derived_from" [] texts
    <*> optional fs "conflicts_with" none (nullable texts)
    <* only fs stateFields

/-- Only three fields count and none is needed. A vocabulary member has none of them. -/
def override : Reader (Override Float) := fun v =>
  let read (fs : Fields) : Checked (Override Float) :=
    Override.mk <$> optional fs "logic_state" none (nullable logic)
      <*> optional fs "confidence" none (nullable percentage)
      <*> optional fs "derived_from" none (nullable texts)
  match v with
  | .map fs => read fs
  | .member _ => read []
  | _ => .fault .notAttributes

def dump (s : NodeState Float) : Value := .map
  [("node_id", .text s.nodeId), ("logic_state", .text s.logic.name),
    ("confidence", .float s.confidence), ("derived_from", .texts s.derivedFrom),
    ("conflicts_with", match s.partners with
      | none => .null
      | some ids => .texts ids)]

def overrides (fs : Fields) : Overrides Float :=
  OrderedMap.ofList (fs.map fun f => (f.1, (override f.2).toExcept))

def eventFields : List String :=
  ["from_node_id", "to_node_id", "edge_id", "relation_type", "old_state", "new_state",
    "old_confidence", "new_confidence", "reason", "reversed", "timestamp"]

def event : Reader (Event Float) := fieldsOf "PropagationEvent" fun fs =>
  Event.mk <$> required fs "from_node_id" text
    <*> required fs "to_node_id" text
    <*> required fs "edge_id" text
    <*> required fs "relation_type" text
    <*> required fs "old_state" logic
    <*> required fs "new_state" logic
    <*> optional fs "old_confidence" 0.0 number
    <*> optional fs "new_confidence" 0.0 number
    <*> optional fs "reason" "" text
    <*> optional fs "reversed" false truth
    <* only fs eventFields

def conflictFields : List String := ["node_ids", "reason"]

def conflictRecord : Reader ConflictRecord := fieldsOf "ConflictRecord" fun fs =>
  ConflictRecord.mk <$> required fs "node_ids" texts
    <*> required fs "reason" text
    <* only fs conflictFields

structure TimedResult where
  result : Result Float
  duration : Float

def resultFields : List String :=
  ["states", "events", "conflicts", "converged", "iterations", "execution_time", "cycles"]

def timedResult : Reader TimedResult := fieldsOf "PropagationResult" fun fs =>
  (fun states events conflicts converged iterations duration cycles =>
      ⟨⟨OrderedMap.ofList states, events, conflicts, converged, iterations, cycles⟩, duration⟩)
    <$> optional fs "states" [] (mapOf nodeState)
    <*> optional fs "events" [] (listOf event)
    <*> optional fs "conflicts" [] (listOf conflictRecord)
    <*> optional fs "converged" false truth
    <*> optional fs "iterations" 0 (integerFrom 0)
    <*> optional fs "execution_time" 0.0 (fun v => (number v).bind (atLeast 0))
    <*> optional fs "cycles" [] (listOf texts)
    <* only fs resultFields

structure Kind where
  name : String
  fields : List String
  isSealed : Bool

inductive WriteError where
  | sealed (record field : String)
  | noField (record field : String)

def WriteError.message : WriteError → String
  | sealed _ _ => Fault.frozen.message
  | noField record field => "\"" ++ record ++ "\" object has no field \"" ++ field ++ "\""

namespace Kind

def node : Kind := ⟨"GraphNode", ["id", "type", "title", "confidence"], true⟩

def edge : Kind := ⟨"GraphEdge", ["id", "source_id", "target_id", "type", "strength"], true⟩

def state : Kind := ⟨"NodeState", stateFields, true⟩

def override : Kind := ⟨"NodeStateOverride", ["logic_state", "confidence", "derived_from"], false⟩

def event : Kind := ⟨"PropagationEvent", eventFields, false⟩

def conflict : Kind := ⟨"ConflictRecord", conflictFields, false⟩

def result : Kind := ⟨"PropagationResult", resultFields, false⟩

/-- Names that start with an underscore are nobody's fields; a note under such a name is
taken by every record and never shown. -/
def isNote (field : String) : Bool := field.toList.head? = some '_'

/-- A sealed record takes no write to a field, another any value in a field that it has. -/
def writeAll (k : Kind) : Fields → Except WriteError Unit
  | [] => .ok ()
  | (field, _) :: rest =>
    if isNote field then k.writeAll rest
    else if k.isSealed then .error (.sealed k.name field)
    else if k.fields.contains field then k.writeAll rest
    else .error (.noField k.name field)

end Kind
end ReasonGraph.Schema
