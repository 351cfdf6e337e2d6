import ReasonGraph.Engine.Pass
import ReasonGraph.Engine.Seed
import ReasonGraph.Graph.Cycle
import ReasonGraph.Graph.Order

/-! An engine and the calls it answers. A run forgets what was, seeds every node and repeats
full passes. An update keeps what was, asserts one verdict and repeats passes outward from
the edited node. Either answers with everything the engine now holds, but for how long it took. -/

namespace ReasonGraph
variable {α : Type}

structure Result (α : Type) where
  states : Table α
  events : List (Event α)
  conflicts : List ConflictRecord
  converged : Bool
  iterations : Nat
  cycles : List (List String)

structure Engine (α : Type) where
  config : Config α
  registry : Registry α
  ledger : Ledger α

structure Reassertion (α ε : Type) where
  engine : Engine α
  results : List (String × Result α)
  stop : Option ε

def Settled.result (s : Settled α) : Result α where
  states := s.ledger.states
  events := s.ledger.events
  conflicts := s.ledger.conflicts
  converged := s.converged
  iterations := s.iterations
  cycles := s.ledger.cycles

namespace Engine

def new (config : Config α) (registry : Registry α) : Engine α := ⟨config, registry, ∅⟩

def clear (e : Engine α) : Engine α := { e with ledger := ∅ }

def setting (e : Engine α) (g : Snapshot α) : Setting α := ⟨e.config, e.registry, g⟩

def chains (g : Snapshot α) : Links α := ⟨g.ids, g.edges, isImplication⟩

variable [Quantity α]

/-- Seeds every node and forgets all else. On a rejection the nodes before it are seeded. -/
def seed (e : Engine α) (nodes : OrderedMap (Node α)) (overrides : Overrides α) :
    Engine α × Option Rejection :=
  let cleared := e.clear
  let (states, rejection) := Table.seed e.config overrides nodes.values cleared.ledger.states
  ({ cleared with ledger := { cleared.ledger with states } }, rejection)

def prepare (e : Engine α) (nodes : List (Node α)) (overrides : Overrides α) :
    Engine α × Except Rejection (Table α) :=
  match e.seed (Snapshot.nodeMap nodes) overrides with
  | (e, some r) => (e, .error r)
  | (e, none) => (e, .ok e.ledger.states)

def noteCycles (e : Engine α) (g : Snapshot α) : Ledger α :=
  if e.config.detectsCycles then { e.ledger with cycles := (chains g).cycles } else e.ledger

def run (e : Engine α) (nodes : List (Node α)) (edges : List (Edge α))
    (overrides : Overrides α) : Engine α × Except Rejection (Result α) :=
  let g := Snapshot.ofLists nodes edges
  match e.seed g.nodes overrides with
  | (e, some r) => (e, .error r)
  | (e, none) =>
    let s := settle (e.setting g).fullPass e.config.passes (e.noteCycles g)
    ({ e with ledger := s.ledger }, .ok s.result)

/-- The ledger with one verdict asserted: no drivers, no partners, the confidence kept. -/
def assert (l : Ledger α) (id : String) (current : NodeState α) (logic : LogicState) :
    Ledger α :=
  { l with
    states := l.states.insert id { current with logic, derivedFrom := [], partners := none } }

def complete (e : Engine α) (nodes : List (Node α)) : Engine α :=
  { e with ledger :=
    { e.ledger with states := e.ledger.states.complete (Snapshot.nodeMap nodes).values } }

/-- Asserts a verdict of one node and lets it spread. An id that is no node changes
nothing. -/
def update (e : Engine α) (id : String) (logic : LogicState) (nodes : List (Node α))
    (edges : List (Edge α)) : Engine α × Except Rejection (Result α) :=
  let g := Snapshot.ofLists nodes edges
  let seeded := { e.ledger with states := e.ledger.states.complete g.nodes.values }
  match g.nodes.get? id, seeded.states.get? id with
  | some n, some current =>
    match e.config.admit .edit n logic with
    | .error r => ({ e with ledger := seeded }, .error r)
    | .ok () =>
      let s := settle ((e.setting g).passFrom id) e.config.passes
        (assert seeded id current logic)
      ({ e with ledger := s.ledger }, .ok s.result)
  | _, _ => ({ e with ledger := seeded }, .ok (Settled.mk seeded true 0).result)

def edit (e : Engine α) (id : String) (v : Value) (nodes : List (Node α))
    (edges : List (Edge α)) : Engine α × Except Rejection (Result α) :=
  match v.text?.bind LogicState.ofName? with
  | none => (e, .error (.notAVerdict v))
  | some logic => e.update id logic nodes edges

/-- Asserts of every listed node with a state the verdict it has, one after another, by a
given way to update, and stops at the first update that fails. -/
def reassert {ε : Type}
    (update : Engine α → String → LogicState → Engine α × Except ε (Result α)) :
    List String → Engine α → Reassertion α ε
  | [], e => ⟨e, [], none⟩
  | id :: rest, e =>
    match e.ledger.states.get? id with
    | none => reassert update rest e
    | some s =>
      match update e id s.logic with
      | (e, .error stop) => ⟨e, [], some stop⟩
      | (e, .ok result) =>
        let later := reassert update rest e
        { later with results := (id, result) :: later.results }

def sourcesFirst (nodes : List (Node α)) (edges : List (Edge α)) : List String :=
  Links.sorted ⟨nodes.map Node.id, edges, fun _ => true⟩

def replayAll (e : Engine α) (nodes : List (Node α)) (edges : List (Edge α)) :
    Reassertion α Rejection :=
  reassert (fun e id logic => e.update id logic nodes edges) (sourcesFirst nodes edges) e

end Engine
end ReasonGraph
