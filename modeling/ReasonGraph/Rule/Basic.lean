import ReasonGraph.Config
import ReasonGraph.State
import ReasonGraph.Strength
import ReasonGraph.Graph.Snapshot
import ReasonGraph.Value.Alike

/-! A rule says what one edge implies. It is given the two ends of the edge and a view of
the whole graph, and proposes a new state for the target or nothing. It never writes; what
becomes of a proposal is not its business. When an edge is read backwards, source and target
are swapped and the evidence says so. -/

namespace ReasonGraph

structure Evidence (α : Type) where
  sourceNode : Node α
  source : NodeState α
  targetNode : Node α
  target : NodeState α
  edge : Edge α
  nodes : OrderedMap (Node α)
  edges : List (Edge α)
  states : Table α
  incoming : OrderedMap (List (Edge α))
  config : Config α
  reversed : Bool

structure Proposal (α : Type) where
  logic : LogicState
  confidence : α
  derivedFrom : List String
  partners : Option (List String)
  spreads : Bool
  reason : String

namespace Evidence
variable {α : Type}

/-- The edges that enter a node, from the index if there is one and else by search. -/
def edgesInto (e : Evidence α) (id : String) : List (Edge α) :=
  if e.incoming.isEmpty then e.edges.filter fun edge => edge.target = id
  else Snapshot.filed e.incoming id

def carry [Quantity α] (e : Evidence α) (confidence : α) : α := confidence * e.config.decay

def drivers (e : Evidence α) : List String :=
  addDriver e.target.derivedFrom e.sourceNode.id

theorem source_mem_drivers (e : Evidence α) : e.sourceNode.id ∈ e.drivers :=
  mem_addDriver.2 (.inr rfl)

def withDecay (e : Evidence α) (decay : α) : Evidence α :=
  { e with config := { e.config with decay } }

def sourceLabel (e : Evidence α) : String := "\"" ++ e.sourceNode.label ++ "\""

def targetLabel (e : Evidence α) : String := "\"" ++ e.targetNode.label ++ "\""

def propose (e : Evidence α) (logic : LogicState) (confidence : α) (reason : String) :
    Option (Proposal α) :=
  some ⟨logic, confidence, e.drivers, none, true, reason⟩

def contest (e : Evidence α) (partners : List String) (confidence : α) (reason : String) :
    Option (Proposal α) :=
  some ⟨.conflict, confidence, e.drivers, some partners, true, reason⟩

end Evidence

/-- Besides what it implies a rule tells whether it weighs: whether it takes a confidence
across the edge to find out. -/
structure Rule (α : Type) where
  relation : Value
  family : String
  name : String
  description : String
  bidirectional : Bool
  propagate : Evidence α → Option (Proposal α)
  weighs : Evidence α → Bool

def floored {α : Type} [Quantity α] (infer : Evidence α → Option (Proposal α))
    (e : Evidence α) : Option (Proposal α) :=
  if e.source.confidence < e.config.floor then none else infer e

theorem floored_eq_some {α : Type} [Quantity α] {infer : Evidence α → Option (Proposal α)}
    {e : Evidence α} {p : Proposal α} (h : floored infer e = some p) :
    ¬e.source.confidence < e.config.floor ∧ infer e = some p := by
  unfold floored at h
  split at h
  · simp at h
  · rename_i hf
    exact ⟨hf, h⟩

end ReasonGraph
