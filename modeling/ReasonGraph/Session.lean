import ReasonGraph.Engine.Unchecked
import ReasonGraph.Journal.Notice

/-! An engine in use: its options as the caller wrote them, its own registry beside the one
that all engines share, what it holds, its last result and its journal. Every call answers
and tells which journal lines it wrote. -/

namespace ReasonGraph

/-- An engine without a registry of its own uses the shared one. -/
structure Registries where
  own : Option (Registry Float)
  shared : Registry Float

namespace Registries

def active (r : Registries) : Registry Float := r.own.getD r.shared

def setActive (r : Registries) (reg : Registry Float) : Registries :=
  match r.own with
  | some _ => { r with own := some reg }
  | none => { r with shared := reg }

theorem active_setActive (r : Registries) (reg : Registry Float) :
    (r.setActive reg).active = reg := by
  unfold setActive active
  cases r with
  | mk own shared => cases own <;> rfl

end Registries

def Journal.register (j : Journal) (reg : Registry Float) (c : Candidate Float) :
    Except RegistrationError (Registry Float × List Line) :=
  (reg.register c).map fun next =>
    match reg.replacement? c with
    | none => (next, [])
    | some (former, r) =>
      (next, j.writePlain .debug
        ("Replacing rule for " ++ r.key ++ ": " ++ former.shown ++ " -> " ++ r.shown))

structure Session where
  options : Options
  registries : Registries
  ledger : Ledger Float
  last : Option (Result Float)
  journal : Journal
  logger : String

inductive Interruption where
  | rejected (r : Rejection)
  | halted (h : Halt)
  | unwritten (e : LineError)
  /-- Something was looked up that can be looked up nowhere. -/
  | notAKey (v : Value)

structure Answer (ε β : Type) where
  session : Session
  outcome : Except ε β
  lines : List Line

namespace Session

def engine (s : Session) : Engine Float := ⟨s.options.config, s.registries.active, s.ledger⟩

def fault? (s : Session) : Option LineError := Journal.fault? s.journal.context

def adopt (s : Session) (e : Engine Float) : Session := { s with ledger := e.ledger }

/-- A result that cannot be noted is not given. -/
def noted (s : Session) : Engine Float × Except (Refusal Halt) (Result Float) →
    Engine Float × Except Interruption (Result Float)
  | (e, .error (.rejected r)) => (e, .error (.rejected r))
  | (e, .error (.halted h)) => (e, .error (.halted h))
  | (e, .ok r) =>
    match s.fault? with
    | some fault => (e, .error (.unwritten fault))
    | none => (e, .ok r)

def note (s : Session) (notices : List Notice) : List Line := s.journal.note s.logger notices

def conclude (s : Session) (e : Engine Float) (r : Result Float) (notices : List Notice) :
    Answer Interruption (Result Float) :=
  ⟨{ s.adopt e with last := some r }, .ok r, s.note notices⟩

/-- Where a run stops that cannot note what it finds before its first pass: after seeding if
that concerns the graph, else with the cycles found. -/
def stop? (s : Session) (nodes : List (Node Float)) (edges : List (Edge Float))
    (overrides : Overrides Float) : Option (Engine Float × LineError) :=
  s.fault?.bind fun fault =>
    match s.engine.prepare nodes overrides with
    | (_, .error _) => none
    | (seeded, .ok _) =>
      let g := Snapshot.ofLists nodes edges
      let searched := { seeded with ledger := seeded.noteCycles g }
      if !(Notice.ofGraph seeded.registry g).isEmpty then some (seeded, fault)
      else if (Notice.ofCycles searched.config.detectsCycles searched.ledger.cycles).isEmpty
        then none
      else some (searched, fault)

def run (s : Session) (nodes : List (Node Float)) (edges : List (Edge Float))
    (overrides : Overrides Float) : Answer Interruption (Result Float) :=
  let g := Snapshot.ofLists nodes edges
  match s.stop? nodes edges overrides with
  | some (e, fault) => ⟨s.adopt e, .error (.unwritten fault), []⟩
  | none =>
    match s.noted (s.engine.runUnder s.options.guard nodes edges overrides) with
    | (e, .error (.halted h)) =>
      ⟨s.adopt e, .error (.halted h), s.note
        (Notice.beforePasses e.registry g e.config.detectsCycles e.ledger.cycles)⟩
    | (e, .error i) => ⟨s.adopt e, .error i, []⟩
    | (e, .ok r) =>
      s.conclude e r
        (Notice.ofRun e.registry g e.config.detectsCycles s.options.maxIterations r)

def prepare (s : Session) (nodes : List (Node Float)) (overrides : Overrides Float) :
    Answer Rejection (Table Float) :=
  match s.engine.prepare nodes overrides with
  | (e, outcome) => ⟨s.adopt e, outcome, []⟩

def editNode (s : Session) (id : String) (v : Value) (nodes : List (Node Float))
    (edges : List (Edge Float)) : Answer Interruption (Result Float) :=
  let g := Snapshot.ofLists nodes edges
  match s.noted (s.engine.editUnder s.options.guard id v nodes edges) with
  | (e, .error i) => ⟨s.adopt e, .error i, []⟩
  | (e, .ok r) => s.conclude e r (Notice.ofUpdate id g s.options.maxIterations r)

def editStray (s : Session) (id v : Value) (nodes : List (Node Float)) :
    Answer Interruption (Result Float) :=
  match v.text?.bind LogicState.ofName? with
  | none => ⟨s, .error (.rejected (.notAVerdict v)), []⟩
  | some _ =>
    let e := s.engine.complete nodes
    if !id.isKey then ⟨s.adopt e, .error (.notAKey id), []⟩
    else match s.noted (e, .ok (Settled.mk e.ledger true 0).result) with
      | (e, .error i) => ⟨s.adopt e, .error i, []⟩
      | (e, .ok r) => s.conclude e r (Notice.ofStray id s.options.maxIterations r)

def edit (s : Session) (id v : Value) (nodes : List (Node Float)) (edges : List (Edge Float)) :
    Answer Interruption (Result Float) :=
  match id.text? with
  | some name => s.editNode name v nodes edges
  | none => s.editStray id v nodes

def replayAll (s : Session) (nodes : List (Node Float)) (edges : List (Edge Float)) :
    Answer Interruption (Option (Result Float)) :=
  let g := Snapshot.ofLists nodes edges
  let done := Engine.reassert
    (fun e id logic => s.noted (e.updateUnder s.options.guard id logic nodes edges))
    (Engine.sourcesFirst nodes edges) s.engine
  let last := match done.results.getLast? with
    | some (_, r) => some r
    | none => s.last
  { session := { s.adopt done.engine with last }
    outcome := match done.stop with
      | some i => .error i
      | none => .ok last
    lines := s.note (done.results.flatMap fun (id, r) =>
      Notice.ofUpdate id g s.options.maxIterations r) }

def clear (s : Session) : Session := { s with ledger := ∅ }

def register (s : Session) (c : Candidate Float) : Answer RegistrationError Nat :=
  match s.journal.register s.registries.active c with
  | .error e => ⟨s, .error e, []⟩
  | .ok (reg, lines) =>
    ⟨{ s with registries := s.registries.setActive reg }, .ok reg.size, lines⟩

def registerShared (s : Session) (c : Candidate Float) : Answer RegistrationError Nat :=
  match s.journal.register s.registries.shared c with
  | .error e => ⟨s, .error e, []⟩
  | .ok (reg, lines) =>
    ⟨{ s with registries := { s.registries with shared := reg } }, .ok reg.size, lines⟩

def unregister (s : Session) (tag : String) : Session × Option (Rule Float) :=
  let reg := s.registries.active
  ({ s with registries := s.registries.setActive (reg.erase tag) }, reg.get? tag)

def lastStates (s : Session) : Table Float :=
  match s.last with
  | none => ∅
  | some r => r.states

end Session
end ReasonGraph
