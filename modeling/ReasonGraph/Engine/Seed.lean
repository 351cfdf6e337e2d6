import ReasonGraph.Graph.Snapshot
import ReasonGraph.Config
import ReasonGraph.State
import ReasonGraph.Schema.Issue
import ReasonGraph.Value.Written

/-! The first state of each node: what the caller's override fixes, and for the rest the
node's own confidence and the verdict read off it. A verdict that a caller asserts must be
one that the node's kind admits. -/

namespace ReasonGraph

inductive Assertion where
  | initial (id : String)
  | edit
deriving DecidableEq

def Assertion.field : Assertion → String
  | initial id => "initial_states[" ++ id ++ "]"
  | edit => "new_state"

inductive Rejection where
  | malformed (id : String) (issues : List Schema.Issue)
  | notAdmitted (place : Assertion) (kind : NodeKind) (id : String) (logic : LogicState)
  | notAVerdict (v : Value)

namespace Rejection

def field : Rejection → String
  | malformed id _ => (Assertion.initial id).field
  | notAdmitted place _ _ _ => place.field
  | notAVerdict _ => Assertion.edit.field

def reason : Rejection → String
  | malformed _ issues => "\n".intercalate (issues.map fun i => i.fault.message)
  | notAdmitted _ kind id logic =>
    kind.name ++ " node " ++ Text.quoted id ++ " cannot be set to " ++ logic.name
  | notAVerdict v => "not a logic state: " ++ v.written

def message (r : Rejection) : String := r.field ++ ": " ++ r.reason

end Rejection

abbrev Overrides (α : Type) := OrderedMap (Except (List Schema.Issue) (Override α))

def Table.toOverrides {α : Type} (t : Table α) : Overrides α :=
  OrderedMap.ofList (t.entries.map fun e => (e.1, .ok e.2.toOverride))

variable {α : Type}

/-- Refuses a verdict that the kind does not admit, if kinds are checked. -/
def Config.admit (config : Config α) (place : Assertion) (n : Node α) (logic : LogicState) :
    Except Rejection Unit :=
  if config.checksKinds && !n.kind.admits logic then
    .error (.notAdmitted place n.kind n.id logic)
  else .ok ()

theorem Config.admit_eq_ok_iff (config : Config α) (place : Assertion) (n : Node α)
    (logic : LogicState) :
    config.admit place n logic = .ok () ↔
      (config.checksKinds = true → n.kind.admits logic = true) := by
  unfold Config.admit
  cases config.checksKinds <;> cases n.kind.admits logic <;> simp

variable [Quantity α]

def Node.staticSeed (n : Node α) : NodeState α :=
  ⟨n.id, .infer n.confidence, n.confidence, [], none⟩

def Node.seed (n : Node α) (config : Config α) (o : Override α) :
    Except Rejection (NodeState α) := do
  match o.logic with
  | some logic => config.admit (.initial n.id) n logic
  | none => .ok ()
  return {
    nodeId := n.id
    logic := o.logic.getD (.infer n.confidence)
    confidence := o.confidence.getD n.confidence
    derivedFrom := o.derivedFrom.getD []
    partners := none }

theorem Node.seed_none (n : Node α) (config : Config α) :
    n.seed config .none = .ok n.staticSeed := rfl

def Node.seedFrom (n : Node α) (config : Config α) (overrides : Overrides α) :
    Except Rejection (NodeState α) :=
  match overrides.get? n.id with
  | none => n.seed config .none
  | some (.ok o) => n.seed config o
  | some (.error issues) => .error (.malformed n.id issues)

/-- Seeds nodes one after another and stops at the first that is rejected. -/
def Table.seed (config : Config α) (overrides : Overrides α) :
    List (Node α) → Table α → Table α × Option Rejection
  | [], t => (t, none)
  | n :: rest, t =>
    match n.seedFrom config overrides with
    | .error r => (t, some r)
    | .ok s => Table.seed config overrides rest (t.insert n.id s)

def Table.complete (t : Table α) (nodes : List (Node α)) : Table α :=
  nodes.foldl (fun t n => if t.contains n.id then t else t.insert n.id n.staticSeed) t

end ReasonGraph
