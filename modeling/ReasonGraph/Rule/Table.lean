import ReasonGraph.Rule.Basic

/-! Rules given as a table of clauses: the first clause whose conditions all hold makes the
proposal. -/

namespace ReasonGraph

inductive Amount (α : Type) where
  | exactly (x : α)
  | ofSource (factor offset : α)
  | ofTarget (factor offset : α)

def Amount.value {α : Type} [Quantity α] (e : Evidence α) : Amount α → α
  | exactly x => x
  | ofSource factor offset => e.source.confidence * factor + offset
  | ofTarget factor offset => e.target.confidence * factor + offset

/-- A condition that is absent always holds. -/
structure Clause (α : Type) where
  source : Option LogicState
  target : Option LogicState
  reversed : Option Bool
  logic : LogicState
  amount : Amount α
  carries : Bool
  derivedFrom : Option (List String)
  partners : Option (List String)
  spreads : Bool
  reason : String

namespace Clause
variable {α : Type} [Quantity α]

def matchesEvidence (c : Clause α) (e : Evidence α) : Bool :=
  c.source.all (· = e.source.logic) && c.target.all (· = e.target.logic) &&
    c.reversed.all (· = e.reversed)

def proposal (c : Clause α) (e : Evidence α) : Proposal α where
  logic := c.logic
  confidence := if c.carries then e.carry (c.amount.value e) else c.amount.value e
  derivedFrom := c.derivedFrom.getD e.drivers
  partners := c.partners
  spreads := c.spreads
  reason := c.reason

end Clause

def Clause.applying? {α : Type} [Quantity α] (clauses : List (Clause α)) (e : Evidence α) :
    Option (Clause α) :=
  clauses.find? (·.matchesEvidence e)

def Rule.tabular {α : Type} [Quantity α] (clauses : List (Clause α)) (e : Evidence α) :
    Option (Proposal α) :=
  (Clause.applying? clauses e).map (·.proposal e)

def Rule.tabularWeighs {α : Type} [Quantity α] (clauses : List (Clause α)) (e : Evidence α) :
    Bool :=
  (Clause.applying? clauses e).any (·.carries)

end ReasonGraph
