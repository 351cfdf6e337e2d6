import ReasonGraph.Engine.Step

/-! A pass reads edges one after another, each against the states the earlier ones left. A
full pass reads every edge, and backwards too if its rule is bidirectional. A pass from a
node reads the edges that leave it and, backwards, the bidirectional ones that enter it, and
goes on with every node that changed; it expands no node twice. Passes are repeated until
one changes nothing or their number is used up. -/

namespace ReasonGraph
variable {α : Type}

def Registry.forward? (reg : Registry α) (e : Edge α) : Option (Hop α × Rule α) :=
  (reg.get? e.relation).map fun r => (⟨e, false⟩, r)

def Registry.backward? (reg : Registry α) (e : Edge α) : Option (Hop α × Rule α) :=
  ((reg.get? e.relation).filter (·.bidirectional)).map fun r => (⟨e, true⟩, r)

def Registry.readings (reg : Registry α) (e : Edge α) : List (Hop α × Rule α) :=
  (reg.forward? e).toList ++ (reg.backward? e).toList

structure Setting (α : Type) where
  config : Config α
  registry : Registry α
  graph : Snapshot α

structure Progress (α : Type) where
  ledger : Ledger α
  changed : Bool
  reached : List String

namespace Setting
variable [Quantity α]

def hops (s : Setting α) : List (Hop α × Rule α) := s.graph.edges.flatMap s.registry.readings

def hopsAt (s : Setting α) (id : String) : List (Hop α × Rule α) :=
  (s.graph.edgesFrom id).filterMap s.registry.forward? ++
    (s.graph.edgesInto id).filterMap s.registry.backward?

def readOne (s : Setting α) (p : Progress α) (h : Hop α × Rule α) : Progress α :=
  match p.ledger.apply s.config s.graph h.1 h.2 with
  | (_, none) => p
  | (l, some c) => ⟨l, true, if c.spreads then p.reached ++ [h.1.target] else p.reached⟩

def read (s : Setting α) (l : Ledger α) (hops : List (Hop α × Rule α)) : Progress α :=
  hops.foldl s.readOne ⟨l, false, []⟩

def fullPass (s : Setting α) (l : Ledger α) : Ledger α × Bool :=
  let p := s.read l s.hops
  (p.ledger, p.changed)

def expand (s : Setting α) : Nat → List String → List String → Ledger α × Bool → Ledger α × Bool
  | 0, _, _, done => done
  | steps + 1, queue, unexpanded, (l, changed) =>
    match queue.dropWhile fun id => !unexpanded.contains id with
    | [] => (l, changed)
    | id :: rest =>
      let p := s.read l (s.hopsAt id)
      s.expand steps (rest ++ p.reached) (unexpanded.erase id) (p.ledger, changed || p.changed)

/-- One pass outward from a node. There is nothing to read at an id that is no node, and a
node is expanded once, so as many expansions as there are nodes suffice. -/
def passFrom (s : Setting α) (id : String) (l : Ledger α) : Ledger α × Bool :=
  s.expand s.graph.ids.length [id] s.graph.ids (l, false)

end Setting

structure Settled (α : Type) where
  ledger : Ledger α
  converged : Bool
  iterations : Nat

/-- Repeats a pass until it changes nothing, at most the given number of times. -/
def settle (pass : Ledger α → Ledger α × Bool) : Nat → Ledger α → Settled α
  | 0, l => ⟨l, false, 0⟩
  | cap + 1, l =>
    match pass l with
    | (next, false) => ⟨next, true, 1⟩
    | (next, true) =>
      let rest := settle pass cap next
      { rest with iterations := rest.iterations + 1 }

theorem settle_iterations_le (pass : Ledger α → Ledger α × Bool) (cap : Nat) (l : Ledger α) :
    (settle pass cap l).iterations ≤ cap := by
  induction cap generalizing l with
  | zero => simp [settle]
  | succ cap ih =>
    unfold settle
    split
    · simp
    · rename_i next _
      exact Nat.succ_le_succ (ih next)

end ReasonGraph
