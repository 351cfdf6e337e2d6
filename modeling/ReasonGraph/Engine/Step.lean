import ReasonGraph.Engine.Ledger
import ReasonGraph.Registry

/-! One edge, read in one direction, against the current states. A proposal becomes a change
if both ends are nodes with a state, conflicts are looked for if it is one, and the verdict
moves or the confidence moves by at least 1. -/

namespace ReasonGraph

structure Hop (α : Type) where
  edge : Edge α
  reversed : Bool

namespace Hop
variable {α : Type}

def source (h : Hop α) : String := if h.reversed then h.edge.target else h.edge.source

def target (h : Hop α) : String := if h.reversed then h.edge.source else h.edge.target

@[simp] theorem source_forward (e : Edge α) : (Hop.mk e false).source = e.source := rfl
@[simp] theorem target_forward (e : Edge α) : (Hop.mk e false).target = e.target := rfl
@[simp] theorem source_backward (e : Edge α) : (Hop.mk e true).source = e.target := rfl
@[simp] theorem target_backward (e : Edge α) : (Hop.mk e true).target = e.source := rfl

variable [Quantity α]

/-- What a rule gets to see, unless an end of the edge is no node or has no state. -/
def evidence? (h : Hop α) (config : Config α) (g : Snapshot α) (states : Table α) :
    Option (Evidence α) := do
  let sourceNode ← g.nodes.get? h.source
  let targetNode ← g.nodes.get? h.target
  let source ← states.get? h.source
  let target ← states.get? h.target
  some
    { sourceNode, source, targetNode, target
      edge := h.edge
      nodes := g.nodes
      edges := g.edges
      states
      incoming := g.incoming
      config
      reversed := h.reversed }

end Hop

namespace Proposal
variable {α : Type} [Quantity α]

/-- Neither the verdict moves nor the confidence by 1 or more. -/
def isQuiet (p : Proposal α) (target : NodeState α) : Bool :=
  target.logic = p.logic && Quantity.gap target.confidence (Quantity.clamp p.confidence) < 1.0

def isUnwanted (p : Proposal α) (config : Config α) : Bool :=
  p.logic = .conflict && !config.detectsConflicts

def writtenPartners (p : Proposal α) : Option (List String) :=
  if p.logic = .conflict then some (p.partners.getD []) else none

def writtenReason (p : Proposal α) (reversed : Bool) : String :=
  if reversed then "[reverse] " ++ p.reason else p.reason

def change (p : Proposal α) (h : Hop α) (target : NodeState α) : Change α :=
  let confidence := Quantity.clamp p.confidence
  let reason := p.writtenReason h.reversed
  { event :=
      { source := h.source
        target := h.target
        edge := h.edge.id
        relation := h.edge.relation
        oldLogic := target.logic
        newLogic := p.logic
        oldConfidence := target.confidence
        newConfidence := confidence
        reason
        reversed := h.reversed }
    entry :=
      { target with
        logic := p.logic
        confidence
        derivedFrom := p.derivedFrom
        partners := p.writtenPartners }
    conflict := p.writtenPartners.map fun partners =>
      { nodes := h.target :: partners
        reason := if reason = "" then "Logical conflict detected" else reason }
    spreads := p.spreads }

end Proposal

variable {α : Type} [Quantity α]

def Hop.change? (h : Hop α) (rule : Rule α) (config : Config α) (g : Snapshot α)
    (states : Table α) : Option (Change α) := do
  let e ← h.evidence? config g states
  let p ← rule.propagate e
  if p.isUnwanted config || p.isQuiet e.target then none else some (p.change h e.target)

def Ledger.apply (l : Ledger α) (config : Config α) (g : Snapshot α) (h : Hop α)
    (rule : Rule α) : Ledger α × Option (Change α) :=
  match h.change? rule config g l.states with
  | none => (l, none)
  | some c => (l.write c, some c)

theorem Ledger.apply_of_none {l : Ledger α} {config : Config α} {g : Snapshot α} {h : Hop α}
    {rule : Rule α} (hc : h.change? rule config g l.states = none) :
    l.apply config g h rule = (l, none) := by simp [Ledger.apply, hc]

theorem Ledger.apply_of_some {l : Ledger α} {config : Config α} {g : Snapshot α} {h : Hop α}
    {rule : Rule α} {c : Change α} (hc : h.change? rule config g l.states = some c) :
    l.apply config g h rule = (l.write c, some c) := by simp [Ledger.apply, hc]

theorem Proposal.change_target (p : Proposal α) (h : Hop α) (target : NodeState α) :
    (p.change h target).event.target = h.target := rfl

end ReasonGraph
