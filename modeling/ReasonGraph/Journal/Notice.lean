import ReasonGraph.Journal.Basic
import ReasonGraph.Engine.Run

/-! What an engine notes about its calls. -/

namespace ReasonGraph

inductive Operation where
  | run
  | update (id : Option String)

namespace Operation

def name : Operation → String
  | run => "run"
  | update _ => "update_node"

def subject : Operation → List (String × Value)
  | update (some id) => [("node_id", .text id)]
  | _ => []

end Operation

inductive Notice where
  | missingEndpoints (edges : List String)
  | noRule (relations : List String)
  | cyclesFound (cycles : List (List String))
  | unknownNode (id : Value)
  | notConverged (op : Operation) (cap : Value)
  | complete (op : Operation) (r : Result Float)

namespace Notice

def severity : Notice → Severity
  | missingEndpoints _ | noRule _ => .debug
  | cyclesFound _ | unknownNode _ | notConverged _ _ => .warning
  | complete _ _ => .info

def event : Notice → String
  | missingEndpoints _ => "Skipping edges with missing endpoints"
  | noRule _ => "Skipping edges without a registered rule"
  | cyclesFound _ => "Cycles detected in implication edges"
  | unknownNode _ => "update_node called for unknown node"
  | notConverged _ _ => "Propagation did not converge"
  | complete _ _ => "Propagation complete"

def fields : Notice → List (String × Value)
  | missingEndpoints edges => [("edge_ids", .texts edges)]
  | noRule relations => [("relation_types", .texts relations)]
  | cyclesFound cycles =>
    [("cycle_count", .int cycles.length), ("cycles", .list (cycles.map .texts))]
  | unknownNode id => [("node_id", id)]
  | notConverged op cap =>
    [("operation", .text op.name), ("max_iterations", cap)] ++ op.subject
  | complete op r =>
    [("operation", .text op.name), ("iterations", .int r.iterations),
      ("converged", .bool r.converged), ("events", .int r.events.length),
      ("conflicts", .int r.conflicts.length)] ++ op.subject

def unruled {α : Type} (reg : Registry α) (g : Snapshot α) : List String :=
  (((g.edges.map Edge.relation).filter fun tag => !reg.has tag).eraseDups).mergeSort

def finish (op : Operation) (cap : Value) (r : Result Float) : List Notice :=
  (if r.converged then [] else [notConverged op cap]) ++ [complete op r]

def ofGraph {α : Type} (reg : Registry α) (g : Snapshot α) : List Notice :=
  (if g.dangling.isEmpty then [] else [missingEndpoints g.dangling]) ++
    if (unruled reg g).isEmpty then [] else [noRule (unruled reg g)]

def ofCycles (looksForCycles : Bool) (cycles : List (List String)) : List Notice :=
  if looksForCycles && !cycles.isEmpty then [cyclesFound cycles] else []

def beforePasses {α : Type} (reg : Registry α) (g : Snapshot α) (looksForCycles : Bool)
    (cycles : List (List String)) : List Notice :=
  ofGraph reg g ++ ofCycles looksForCycles cycles

def ofRun (reg : Registry Float) (g : Snapshot Float) (looksForCycles : Bool) (cap : Value)
    (r : Result Float) : List Notice :=
  beforePasses reg g looksForCycles r.cycles ++ finish .run cap r

def ofStray (id : Value) (cap : Value) (r : Result Float) : List Notice :=
  unknownNode id :: finish (.update none) cap r

def ofUpdate (id : String) (g : Snapshot Float) (cap : Value) (r : Result Float) :
    List Notice :=
  if g.nodes.contains id then finish (.update (some id)) cap r else ofStray (.text id) cap r

end Notice

def Journal.note (j : Journal) (logger : String) (notices : List Notice) : List Line :=
  notices.flatMap fun n => j.write logger ⟨n.severity, false⟩ (.text n.event) n.fields

end ReasonGraph
